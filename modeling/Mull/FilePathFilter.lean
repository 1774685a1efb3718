import Mull.MutantPrinting
import Mull.Lib.Memo
import Mathlib.Data.List.Infix

/-!
# The path filter and its cache

`FilePathFilter` skips the paths that no include filter matches, or, without include filters,
those that an exclude filter matches.  It keeps the answer for every path that it has been asked
for.  The cache is transparent as long as no path is asked for again after a filter was added
that changes the decision on it (`transparent_iff`); the driver adds all filters before it asks
(`filterTasks_configured`).
-/

namespace Mull.PathFilter

open CString (Bytes)
open Sources (SourceLocation Mutant)

/-- The regular expressions of the standard library in the `grep` grammar: the constructor, which
    throws for a text that is not well formed, and `regex_search`. -/
structure Grep (Regex : Type) where
  regex : Bytes → Option Regex
  regexSearch : Bytes → Regex → Bool

/-! ### The class -/

structure FilePathFilter (Regex : Type) where
  includeFilters : List Regex
  excludeFilters : List Regex
  cache : Bytes → Option Bool

section Filter

variable {Regex : Type} (grep : Grep Regex)

def FilePathFilter.initial : FilePathFilter Regex := ⟨[], [], fun _ => none⟩

/-- What `shouldSkip` computes for a path that is not in the cache. -/
def FilePathFilter.allow (filter : FilePathFilter Regex) (sourceFilePath : Bytes) : Bool :=
  if filter.includeFilters.isEmpty then
    !filter.excludeFilters.any (grep.regexSearch sourceFilePath)
  else filter.includeFilters.any (grep.regexSearch sourceFilePath)

/-- `shouldSkip` of a path, with the cache it leaves. -/
def FilePathFilter.shouldSkip (filter : FilePathFilter Regex) (sourceFilePath : Bytes) :
    Bool × FilePathFilter Regex :=
  let (allow, cache) := Memo.ask (filter.allow grep) filter.cache sourceFilePath
  (!allow, { filter with cache := cache })

/-- `shouldSkip` of a location, with its assertion. -/
def FilePathFilter.shouldSkipLocation (filter : FilePathFilter Regex) (location : SourceLocation) :
    Option (Bool × FilePathFilter Regex) :=
  if location.isNull then none else some (filter.shouldSkip grep location.filePath)

/-- `shouldSkip` of a mutation point, a function or an instruction, by its location. -/
def FilePathFilter.shouldSkipAt {τ : Type} (locationOf : τ → SourceLocation)
    (filter : FilePathFilter Regex) (item : τ) : Option (Bool × FilePathFilter Regex) :=
  filter.shouldSkipLocation grep (locationOf item)

/-- `shouldSkip` of a mutation point. -/
def FilePathFilter.shouldSkipPoint (filter : FilePathFilter Regex) (point : Mutant) :
    Option (Bool × FilePathFilter Regex) :=
  filter.shouldSkipAt grep Mutant.sourceLocation point

/-- `exclude`; `none` is an exception. -/
def FilePathFilter.exclude (filter : FilePathFilter Regex) (text : Bytes) :
    Option (FilePathFilter Regex) :=
  (grep.regex text).map fun regex =>
    { filter with excludeFilters := filter.excludeFilters ++ [regex] }

/-- `include`; `none` is an exception. -/
def FilePathFilter.include' (filter : FilePathFilter Regex) (text : Bytes) :
    Option (FilePathFilter Regex) :=
  (grep.regex text).map fun regex =>
    { filter with includeFilters := filter.includeFilters ++ [regex] }

/-! ### Sequences of calls -/

inductive Call where
  | include' (text : Bytes)
  | exclude (text : Bytes)
  | shouldSkip (sourceFilePath : Bytes)
deriving DecidableEq, Repr

/-- The filter after a call, and the answer if it asks for a path.  A call that throws leaves
    the filter as it is. -/
def step (filter : FilePathFilter Regex) : Call → List Bool × FilePathFilter Regex
  | .include' text => ([], (filter.include' grep text).getD filter)
  | .exclude text => ([], (filter.exclude grep text).getD filter)
  | .shouldSkip sourceFilePath =>
      let (skip, filter) := filter.shouldSkip grep sourceFilePath
      ([skip], filter)

/-- The answers of a sequence of calls. -/
def answers (filter : FilePathFilter Regex) : List Call → List Bool
  | [] => []
  | call :: calls =>
      let (answered, filter) := step grep filter call
      answered ++ answers filter calls

/-! ### The filter without a cache -/

/-- The include filters that the calls have added. -/
def included (calls : List Call) : List Regex :=
  calls.filterMap fun call =>
    match call with
    | .include' text => grep.regex text
    | _ => none

/-- The exclude filters that the calls have added. -/
def excluded (calls : List Call) : List Regex :=
  calls.filterMap fun call =>
    match call with
    | .exclude text => grep.regex text
    | _ => none

/-- Some of the filters match the path. -/
def Matches (filters : List Regex) (sourceFilePath : Bytes) : Prop :=
  ∃ regex ∈ filters, grep.regexSearch sourceFilePath regex

instance (filters : List Regex) (sourceFilePath : Bytes) :
    Decidable (Matches grep filters sourceFilePath) :=
  inferInstanceAs (Decidable (∃ regex ∈ filters, grep.regexSearch sourceFilePath regex))

/-- With include filters a path is skipped if none of them matches it, and otherwise if an
    exclude filter does. -/
def Skips (calls : List Call) (sourceFilePath : Bytes) : Prop :=
  if included grep calls ≠ [] then ¬ Matches grep (included grep calls) sourceFilePath
  else Matches grep (excluded grep calls) sourceFilePath

instance (calls : List Call) (sourceFilePath : Bytes) :
    Decidable (Skips grep calls sourceFilePath) :=
  inferInstanceAs (Decidable (if included grep calls ≠ [] then
    ¬ Matches grep (included grep calls) sourceFilePath
    else Matches grep (excluded grep calls) sourceFilePath))

/-- The answers without a cache, after the calls `before`. -/
def uncached (before : List Call) : List Call → List Bool
  | [] => []
  | .shouldSkip sourceFilePath :: calls =>
      decide (Skips grep before sourceFilePath) ::
        uncached (before ++ [.shouldSkip sourceFilePath]) calls
  | call :: calls => uncached (before ++ [call]) calls

/-- Every answer is the one without a cache. -/
def Transparent (calls : List Call) : Prop :=
  answers grep .initial calls = uncached grep [] calls

instance (calls : List Call) : Decidable (Transparent grep calls) :=
  inferInstanceAs (Decidable (answers grep .initial calls = uncached grep [] calls))

/-- The filters added by `between` leave the decision on a path as it was after `before`. -/
def Settled (before between : List Call) (sourceFilePath : Bytes) : Prop :=
  if included grep before ≠ [] then
    Matches grep (included grep before) sourceFilePath ∨
      ¬ Matches grep (included grep between) sourceFilePath
  else if included grep between ≠ [] then
    (Matches grep (excluded grep before) sourceFilePath ↔
      ¬ Matches grep (included grep between) sourceFilePath)
  else Matches grep (excluded grep before) sourceFilePath ∨
    ¬ Matches grep (excluded grep between) sourceFilePath

end Filter

/-! ### The fields hold what the calls have added -/

section Configured

variable {Regex : Type} {grep : Grep Regex}

structure Configured (grep : Grep Regex) (filter : FilePathFilter Regex) (before : List Call) :
    Prop where
  includeFilters : filter.includeFilters = included grep before
  excludeFilters : filter.excludeFilters = excluded grep before

variable {filter : FilePathFilter Regex} {before : List Call}

theorem configured_initial : Configured grep .initial [] := ⟨rfl, rfl⟩

theorem included_append (calls calls' : List Call) :
    included grep (calls ++ calls') = included grep calls ++ included grep calls' :=
  List.filterMap_append

theorem excluded_append (calls calls' : List Call) :
    excluded grep (calls ++ calls') = excluded grep calls ++ excluded grep calls' :=
  List.filterMap_append

theorem includeFilters_step (filter : FilePathFilter Regex) (call : Call) :
    (step grep filter call).2.includeFilters = filter.includeFilters ++ included grep [call] := by
  cases call with
  | include' text =>
      cases hregex : grep.regex text <;> simp [step, FilePathFilter.include', included, hregex]
  | exclude text =>
      cases hregex : grep.regex text <;> simp [step, FilePathFilter.exclude, included, hregex]
  | shouldSkip sourceFilePath => simp [step, FilePathFilter.shouldSkip, included]

theorem excludeFilters_step (filter : FilePathFilter Regex) (call : Call) :
    (step grep filter call).2.excludeFilters = filter.excludeFilters ++ excluded grep [call] := by
  cases call with
  | include' text =>
      cases hregex : grep.regex text <;> simp [step, FilePathFilter.include', excluded, hregex]
  | exclude text =>
      cases hregex : grep.regex text <;> simp [step, FilePathFilter.exclude, excluded, hregex]
  | shouldSkip sourceFilePath => simp [step, FilePathFilter.shouldSkip, excluded]

/-- Only questions write to the cache. -/
theorem cache_step {call : Call} (h : ∀ sourceFilePath, call ≠ .shouldSkip sourceFilePath) :
    (step grep filter call).2.cache = filter.cache := by
  cases call with
  | include' text => cases hregex : grep.regex text <;> simp [step, FilePathFilter.include', hregex]
  | exclude text => cases hregex : grep.regex text <;> simp [step, FilePathFilter.exclude, hregex]
  | shouldSkip sourceFilePath => exact absurd rfl (h sourceFilePath)

theorem Configured.step (h : Configured grep filter before) (call : Call) :
    Configured grep (step grep filter call).2 (before ++ [call]) := by
  constructor
  · rw [includeFilters_step, h.includeFilters, included_append]
  · rw [excludeFilters_step, h.excludeFilters, excluded_append]

theorem any_iff_matches {filters : List Regex} {sourceFilePath : Bytes} :
    filters.any (grep.regexSearch sourceFilePath) = true ↔ Matches grep filters sourceFilePath :=
  List.any_eq_true

/-- What the code computes is the decision. -/
theorem Configured.allow_iff (h : Configured grep filter before) {sourceFilePath : Bytes} :
    filter.allow grep sourceFilePath = true ↔ ¬ Skips grep before sourceFilePath := by
  unfold FilePathFilter.allow Skips
  rw [h.includeFilters, h.excludeFilters]
  by_cases hempty : included grep before = []
  · rw [hempty, if_pos List.isEmpty_nil, if_neg (by simp), ← any_iff_matches]
    simp
  · rw [if_neg (by simpa using hempty), if_pos hempty, not_not, any_iff_matches]

theorem Configured.allow_eq (h : Configured grep filter before) (sourceFilePath : Bytes) :
    filter.allow grep sourceFilePath = !decide (Skips grep before sourceFilePath) := by
  rw [Bool.eq_iff_iff, h.allow_iff, Bool.not_eq_true', decide_eq_false_iff_not]

end Configured

/-! ### Questions to the cache -/

section Questions

variable {Regex : Type} {grep : Grep Regex} {before : List Call}

/-- The decision after some calls, as it is kept. -/
def allowed (grep : Grep Regex) (before : List Call) (sourceFilePath : Bytes) : Bool :=
  !decide (Skips grep before sourceFilePath)

/-- What the calls ask the cache for. -/
def questions (grep : Grep Regex) (before : List Call) :
    List Call → List (Memo.Question Bytes Bool)
  | [] => []
  | .shouldSkip sourceFilePath :: calls =>
      ⟨allowed grep before, sourceFilePath⟩ ::
        questions grep (before ++ [.shouldSkip sourceFilePath]) calls
  | call :: calls => questions grep (before ++ [call]) calls

theorem answers_eq {filter : FilePathFilter Regex} (h : Configured grep filter before)
    (calls : List Call) :
    answers grep filter calls =
      (Memo.answers filter.cache (questions grep before calls)).map not := by
  induction calls generalizing filter before with
  | nil => rfl
  | cons call calls ih =>
      have hrest := ih (h.step call)
      cases call with
      | include' text =>
          rw [cache_step (by simp)] at hrest
          simpa [answers, questions, step] using hrest
      | exclude text =>
          rw [cache_step (by simp)] at hrest
          simpa [answers, questions, step] using hrest
      | shouldSkip sourceFilePath =>
          have heval : filter.allow grep = allowed grep before := funext h.allow_eq
          simp only [answers, questions, step, FilePathFilter.shouldSkip, Memo.answers,
            heval] at hrest ⊢
          rw [hrest]
          rfl

theorem uncached_eq (before calls : List Call) :
    uncached grep before calls =
      ((questions grep before calls).map Memo.Question.answer).map not := by
  induction calls generalizing before with
  | nil => rfl
  | cons call calls ih =>
      cases call with
      | shouldSkip sourceFilePath =>
          rw [uncached, questions, ih]
          simp [Memo.Question.answer, allowed]
      | _ => rw [uncached, questions, ih] <;> simp

theorem mem_questions_iff {calls : List Call} {question : Memo.Question Bytes Bool} :
    question ∈ questions grep before calls ↔
      ∃ between sourceFilePath after, calls = between ++ .shouldSkip sourceFilePath :: after ∧
        question = ⟨allowed grep (before ++ between), sourceFilePath⟩ := by
  induction calls generalizing before with
  | nil => simp [questions]
  | cons call calls ih =>
      have hrest : (∃ between sourceFilePath after,
          call :: calls = between ++ .shouldSkip sourceFilePath :: after ∧
            question = ⟨allowed grep (before ++ between), sourceFilePath⟩) ↔
          (∃ sourceFilePath, call = .shouldSkip sourceFilePath ∧
            question = ⟨allowed grep before, sourceFilePath⟩) ∨
          question ∈ questions grep (before ++ [call]) calls := by
        rw [ih]
        constructor
        · rintro ⟨between, sourceFilePath, after, heq, rfl⟩
          rcases List.cons_eq_append_iff.mp heq with ⟨rfl, hcons⟩ | ⟨between', rfl, hcalls⟩
          · rcases List.cons.inj hcons with ⟨rfl, -⟩
            exact .inl ⟨sourceFilePath, rfl, by rw [List.append_nil]⟩
          · exact .inr ⟨between', sourceFilePath, after, hcalls, by simp⟩
        · rintro (⟨sourceFilePath, rfl, rfl⟩ | ⟨between, sourceFilePath, after, rfl, rfl⟩)
          · exact ⟨[], sourceFilePath, calls, rfl, by rw [List.append_nil]⟩
          · exact ⟨call :: between, sourceFilePath, after, rfl, by simp⟩
      rw [hrest]
      cases call <;> simp [questions]

/-- Any two questions for one path meet the same decision on it. -/
def Unchanged (grep : Grep Regex) (before calls : List Call) : Prop :=
  ∀ first sourceFilePath between after,
    calls = first ++ .shouldSkip sourceFilePath ::
      (between ++ .shouldSkip sourceFilePath :: after) →
    allowed grep (before ++ first ++ .shouldSkip sourceFilePath :: between) sourceFilePath =
      allowed grep (before ++ first) sourceFilePath

theorem unchanged_cons {call : Call} {calls : List Call} :
    Unchanged grep before (call :: calls) ↔
      (∀ sourceFilePath between after, call = .shouldSkip sourceFilePath →
        calls = between ++ .shouldSkip sourceFilePath :: after →
        allowed grep (before ++ .shouldSkip sourceFilePath :: between) sourceFilePath =
          allowed grep before sourceFilePath) ∧
      Unchanged grep (before ++ [call]) calls := by
  constructor
  · intro h
    constructor
    · rintro sourceFilePath between after rfl rfl
      simpa using h [] sourceFilePath between after rfl
    · rintro first sourceFilePath between after rfl
      simpa using h (call :: first) sourceFilePath between after rfl
  · rintro ⟨hfirst, hrest⟩ first sourceFilePath between after heq
    rcases List.cons_eq_append_iff.mp heq with ⟨rfl, hcons⟩ | ⟨first', rfl, hcalls⟩
    · rcases List.cons.inj hcons with ⟨hcall, hcalls⟩
      simpa using hfirst sourceFilePath between after hcall.symm hcalls.symm
    · simpa using hrest first' sourceFilePath between after hcalls

theorem pairwise_questions_iff {calls : List Call} :
    (questions grep before calls).Pairwise (fun question later =>
        later.key = question.key → later.answer = question.answer) ↔
      Unchanged grep before calls := by
  induction calls generalizing before with
  | nil => simp [questions, Unchanged]
  | cons call calls ih =>
      rw [unchanged_cons, ← ih]
      cases call with
      | shouldSkip path =>
          rw [questions, List.pairwise_cons]
          refine and_congr_left' ?_
          constructor
          · rintro h sourceFilePath between after heq rfl
            rcases Call.shouldSkip.inj heq with rfl
            simpa [Memo.Question.answer] using
              h _ (mem_questions_iff.mpr ⟨between, path, after, rfl, rfl⟩) rfl
          · intro h question hmem hkey
            rcases mem_questions_iff.mp hmem with ⟨between, sourceFilePath, after, rfl, rfl⟩
            rcases (show sourceFilePath = path from hkey) with rfl
            simpa [Memo.Question.answer] using h sourceFilePath between after rfl rfl
      | _ => simp [questions]

/-- The cache is transparent if the decision is the same for any two questions for one path. -/
theorem transparent_iff_unchanged {calls : List Call} :
    Transparent grep calls ↔ Unchanged grep [] calls := by
  have hagrees : Memo.Agrees (fun _ => none) (questions grep [] calls) := by
    intro question _ answer hentry
    cases hentry
  rw [Transparent, answers_eq configured_initial, uncached_eq,
    (List.map_injective_iff.mpr Bool.involutive_not.injective).eq_iff, FilePathFilter.initial,
    Memo.answers_eq_iff, pairwise_questions_iff]
  exact and_iff_right hagrees

end Questions

/-! ### When the cache is transparent -/

section Transparent

variable {Regex : Type} {grep : Grep Regex} {before between : List Call} {sourceFilePath : Bytes}

theorem matches_append (filters filters' : List Regex) :
    Matches grep (filters ++ filters') sourceFilePath ↔
      Matches grep filters sourceFilePath ∨ Matches grep filters' sourceFilePath := by
  simp [Matches, or_and_right, exists_or]

theorem allowed_eq_iff :
    allowed grep between sourceFilePath = allowed grep before sourceFilePath ↔
      (Skips grep between sourceFilePath ↔ Skips grep before sourceFilePath) := by
  rw [allowed, allowed, Bool.not_inj_iff, decide_eq_decide]

/-- A question changes no decision. -/
theorem skips_shouldSkip (other : Bytes) :
    Skips grep (before ++ .shouldSkip other :: between) sourceFilePath ↔
      Skips grep (before ++ between) sourceFilePath := by
  unfold Skips
  simp only [included_append, excluded_append]
  rfl

/-- What the added filters have to do for the decision to stay. -/
theorem settled_iff :
    Settled grep before between sourceFilePath ↔
      (Skips grep (before ++ between) sourceFilePath ↔ Skips grep before sourceFilePath) := by
  unfold Settled Skips
  rw [included_append, excluded_append]
  by_cases hbefore : included grep before = []
  · by_cases hbetween : included grep between = []
    · simp only [hbefore, hbetween, List.append_nil, ne_eq, not_true_eq_false, if_false,
        matches_append]
      tauto
    · simp only [hbefore, hbetween, List.nil_append, ne_eq, not_true_eq_false, if_false,
        not_false_eq_true, if_true]
      tauto
  · simp only [hbefore, ne_eq, List.append_eq_nil_iff, false_and, not_false_eq_true, if_true,
      matches_append]
    tauto

/-- **The cache is transparent exactly if, between two questions for one path, no filters are
    added that change the decision on it.** -/
theorem transparent_iff (grep : Grep Regex) (calls : List Call) :
    Transparent grep calls ↔
      ∀ before sourceFilePath between after,
        calls = before ++ .shouldSkip sourceFilePath ::
          (between ++ .shouldSkip sourceFilePath :: after) →
        Settled grep before between sourceFilePath := by
  rw [transparent_iff_unchanged]
  constructor
  · intro h before sourceFilePath between after hcalls
    have hsame := h before sourceFilePath between after hcalls
    rw [List.nil_append, allowed_eq_iff, skips_shouldSkip] at hsame
    exact settled_iff.mpr hsame
  · intro h first sourceFilePath between after hcalls
    rw [List.nil_append, allowed_eq_iff, skips_shouldSkip]
    exact settled_iff.mp (h first sourceFilePath between after hcalls)

/-- `grep` for texts without special characters: the text occurs in the path. -/
def literal : Grep Bytes where
  regex text := some text
  regexSearch path text := decide (text <:+: path)

/-- The path `ab` is asked for, `b` is excluded, and `ab` is still not skipped. -/
theorem not_transparent_excludedLater :
    ¬ Transparent literal [.shouldSkip [97, 98], .exclude [98], .shouldSkip [97, 98]] := by
  decide

end Transparent

/-! ### The filter in a run of the driver -/

section Configuration

variable {Regex : Type} {grep : Grep Regex} {configuration : List Call}
  {filter : FilePathFilter Regex}

/-- The calls of `main` before the filter is used. -/
def IsConfiguration (calls : List Call) : Prop :=
  ∀ call ∈ calls, ∀ sourceFilePath, call ≠ .shouldSkip sourceFilePath

/-- The filter after some calls. -/
def after (grep : Grep Regex) (filter : FilePathFilter Regex) (calls : List Call) :
    FilePathFilter Regex :=
  calls.foldl (fun filter call => (step grep filter call).2) filter

/-- Whatever has been asked so far, the cache agrees with the configuration. -/
structure Fresh (grep : Grep Regex) (configuration : List Call) (filter : FilePathFilter Regex) :
    Prop where
  configured : Configured grep filter configuration
  cache : ∀ path allow, filter.cache path = some allow → allow = allowed grep configuration path

theorem Configured.after {before : List Call} (h : Configured grep filter before)
    (calls : List Call) : Configured grep (after grep filter calls) (before ++ calls) := by
  induction calls generalizing filter before with
  | nil => simpa [PathFilter.after] using h
  | cons call calls ih => simpa [PathFilter.after] using ih (h.step call)

theorem cache_after {calls : List Call} (h : IsConfiguration calls) :
    (after grep filter calls).cache = filter.cache := by
  induction calls generalizing filter with
  | nil => rfl
  | cons call calls ih =>
      rw [after, List.foldl_cons]
      exact (ih fun call' hmem => h call' (List.mem_cons_of_mem _ hmem)).trans
        (cache_step (h call List.mem_cons_self))

theorem fresh_after (h : IsConfiguration configuration) :
    Fresh grep configuration (after grep .initial configuration) := by
  refine ⟨configured_initial.after configuration, ?_⟩
  intro path allow hentry
  rw [cache_after h] at hentry
  cases hentry

theorem shouldSkip_of_some {sourceFilePath : Bytes} {allow : Bool}
    (h : filter.cache sourceFilePath = some allow) :
    filter.shouldSkip grep sourceFilePath = (!allow, filter) := by
  simp [FilePathFilter.shouldSkip, Memo.ask_of_some h]

theorem shouldSkip_of_none {sourceFilePath : Bytes} (h : filter.cache sourceFilePath = none) :
    filter.shouldSkip grep sourceFilePath = (!filter.allow grep sourceFilePath,
      { filter with cache :=
          Function.update filter.cache sourceFilePath (some (filter.allow grep sourceFilePath)) }) := by
  simp [FilePathFilter.shouldSkip, Memo.ask_of_none h]

/-- A question is answered from the configuration and leaves the filter fresh. -/
theorem Fresh.shouldSkip (h : Fresh grep configuration filter) (sourceFilePath : Bytes) :
    (filter.shouldSkip grep sourceFilePath).1 =
        decide (Skips grep configuration sourceFilePath) ∧
      Fresh grep configuration (filter.shouldSkip grep sourceFilePath).2 := by
  cases hentry : filter.cache sourceFilePath with
  | none =>
      rw [shouldSkip_of_none hentry]
      refine ⟨by simp [h.configured.allow_eq], ⟨h.configured.1, h.configured.2⟩, ?_⟩
      intro path allow hallow
      by_cases hpath : path = sourceFilePath
      · have hkept : some (filter.allow grep sourceFilePath) = some allow := by
          simpa [hpath] using hallow
        rw [hpath, ← Option.some.inj hkept]
        exact h.configured.allow_eq sourceFilePath
      · exact h.cache path allow (by simpa [hpath] using hallow)
  | some allow =>
      rw [shouldSkip_of_some hentry]
      exact ⟨by simp [h.cache _ _ hentry, allowed], h⟩

/-- `operator()` of the tasks that ask a filter for the items of a stage. -/
def filterTask {τ : Type}
    (shouldSkip : FilePathFilter Regex → τ → Option (Bool × FilePathFilter Regex))
    (filter : FilePathFilter Regex) : List τ → Option (List τ × FilePathFilter Regex)
  | [] => some ([], filter)
  | item :: items => do
      let (skip, filter) ← shouldSkip filter item
      let (kept, filter) ← filterTask shouldSkip filter items
      some (if skip then kept else item :: kept, filter)

/-- `MutationFilterTask::operator()`. -/
def mutationFilterTask (grep : Grep Regex) : FilePathFilter Regex → List Mutant →
    Option (List Mutant × FilePathFilter Regex) :=
  filterTask fun filter point => filter.shouldSkipPoint grep point

/-- `FunctionFilterTask::operator()`; the location of a function comes from its debug info. -/
def functionFilterTask {τ : Type} (grep : Grep Regex) (locationFromFunction : τ → SourceLocation) :
    FilePathFilter Regex → List τ → Option (List τ × FilePathFilter Regex) :=
  filterTask fun filter function => filter.shouldSkipAt grep locationFromFunction function

/-- The items that the configuration lets through. -/
def passing {τ : Type} (grep : Grep Regex) (configuration : List Call)
    (locationOf : τ → SourceLocation) (items : List τ) : List τ :=
  items.filter fun item => !decide (Skips grep configuration (locationOf item).filePath)

theorem Fresh.filterTask {τ : Type} {locationOf : τ → SourceLocation} {items : List τ}
    (h : Fresh grep configuration filter)
    (hnull : ∀ item ∈ items, (locationOf item).isNull = false) :
    ∃ filter', PathFilter.filterTask (fun filter item => filter.shouldSkipAt grep locationOf item)
        filter items = some (passing grep configuration locationOf items, filter') ∧
      Fresh grep configuration filter' := by
  induction items generalizing filter with
  | nil => exact ⟨filter, rfl, h⟩
  | cons item items ih =>
      rcases h.shouldSkip (locationOf item).filePath with ⟨hskip, hfresh⟩
      rcases ih hfresh fun item' hmem => hnull item' (List.mem_cons_of_mem _ hmem) with
        ⟨filter', hrest, hfresh'⟩
      refine ⟨filter', ?_, hfresh'⟩
      rw [PathFilter.filterTask, FilePathFilter.shouldSkipAt, FilePathFilter.shouldSkipLocation,
        hnull item List.mem_cons_self]
      by_cases hitem : Skips grep configuration (locationOf item).filePath
      · simp [hskip, hrest, passing, hitem]
      · simp [hskip, hrest, passing, hitem]

/-- **In the driver the filter is a function of the path.**  All filters have been added when the
    first function is looked at; the functions are filtered first, then the mutation points, and
    no location is null behind `NoDebugInfoFilter`. -/
theorem filterTasks_configured {τ : Type} (h : IsConfiguration configuration)
    {locationFromFunction : τ → SourceLocation} {functions : List τ} {points : List Mutant}
    (hfunctions : ∀ function ∈ functions, (locationFromFunction function).isNull = false)
    (hpoints : ∀ point ∈ points, point.sourceLocation.isNull = false) :
    ∃ filter filter',
      functionFilterTask grep locationFromFunction (after grep .initial configuration) functions =
        some (passing grep configuration locationFromFunction functions, filter) ∧
      mutationFilterTask grep filter points =
        some (passing grep configuration Mutant.sourceLocation points, filter') := by
  rcases (fresh_after h).filterTask hfunctions with ⟨filter, hkept, hfresh⟩
  rcases hfresh.filterTask hpoints with ⟨filter', hkept', -⟩
  exact ⟨filter, filter', hkept, hkept'⟩

end Configuration

end Mull.PathFilter
