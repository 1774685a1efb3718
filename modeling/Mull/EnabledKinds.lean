import Mull.ASTSearch
import Mull.Lib.FirstWins

/-!
# The AST search under different sets of kinds

`VisitExpr` records at most one mutation for an expression: the loop over
`BINARY_MUTATIONS` returns at the first enabled kind of the operator, and a call is not
looked at for `ReplaceCallMutator` when `RemoveVoidFunctionMutator` is enabled.  So what is
recorded for one kind depends on which others are enabled (`compositional_iff`): there are
five pairs of kinds of which the first hides the second (`hides`).
-/

namespace Mull.ASTSearch

open MachineInt FirstWins

/-! ### The search fills a table -/

/-- What one call of `saveMutationPoint` records. -/
structure Entry where
  mutatorKind : MutatorKind
  location : Location
  stmt : Nat
deriving DecidableEq, Repr

namespace Entry

def mutation (entry : Entry) : ASTMutation :=
  ⟨entry.mutatorKind, entry.location.line, entry.location.column, entry.stmt⟩

/-- Where it is recorded; `none` if the program ends there. -/
def key (sources : Sources) (entry : Entry) : Option (MutatorKind × Int) :=
  if !sources.isRegularFile entry.location.file && entry.location.file ≠ "input.cc" then none
  else (lineColumnHash entry.location.line entry.location.column).map fun hash =>
    (entry.mutatorKind, hash)

theorem key_eq_some {sources : Sources} {entry : Entry} {mutatorKind : MutatorKind} {hash : Int}
    (h : entry.key sources = some (mutatorKind, hash)) : entry.mutatorKind = mutatorKind := by
  unfold key at h
  split at h
  · cases h
  · obtain ⟨hash, -, heq⟩ := Option.map_eq_some_iff.mp h
    exact congrArg Prod.fst heq

end Entry

/-- The entry of an expression, if it is recorded. -/
def entryOf (enabled : MutatorKind → Bool) (e : Expr) : Option Entry :=
  (records enabled e).bind fun record =>
    if record.2.file = "" then none else some ⟨record.1, record.2, e.stmt⟩

/-- The entries of the expressions, in the order of the traversal. -/
def entries (enabled : MutatorKind → Bool) (exprs : List Expr) : List Entry :=
  exprs.filterMap (entryOf enabled)

/-- The buckets of a unit as one table. -/
def table (mutations : SingleASTUnitMutations) (key : MutatorKind × Int) : Option ASTMutation :=
  (mutations key.1).bind fun bucket => bucket key.2

theorem table_emplace (mutations : SingleASTUnitMutations) (mutatorKind : MutatorKind) (hash : Int)
    (mutation : ASTMutation) :
    table (Function.update mutations mutatorKind
      (some (emplace ((mutations mutatorKind).getD fun _ => none) hash mutation))) =
      insert (table mutations) (mutatorKind, hash) mutation := by
  funext ⟨mutatorKind', hash'⟩
  rw [insert_apply, table, table]
  by_cases hkind : mutatorKind' = mutatorKind
  · subst hkind
    rw [Function.update_self, Option.bind_some]
    have hemplace : emplace ((mutations mutatorKind').getD fun _ => none) hash mutation =
      insert ((mutations mutatorKind').getD fun _ => none) hash mutation := rfl
    rw [hemplace, insert_apply]
    congr 1
    · cases mutations mutatorKind' <;> rfl
    · simp
  · rw [Function.update_of_ne hkind, if_neg fun heq => hkind (congrArg Prod.fst heq).symm,
      Option.or_none]

section Traversal

variable {sources : Sources} {enabled : MutatorKind → Bool}

/-- A call of `saveMutationPoint` puts in its entry, or ends the program. -/
theorem map_table_saveMutationPoint (visitor : Visitor) {entry : Entry}
    (hfile : entry.location.file ≠ "") :
    (saveMutationPoint sources visitor entry.mutatorKind entry.stmt entry.location).map
        (fun visitor' => (visitor'.shouldSkipCurrentFunction, table visitor'.singleUnitMutations)) =
      (entry.key sources).map fun key => (visitor.shouldSkipCurrentFunction,
        insert (table visitor.singleUnitMutations) key entry.mutation) := by
  unfold saveMutationPoint Entry.key
  rw [if_neg hfile]
  split
  · rfl
  · cases lineColumnHash entry.location.line entry.location.column with
    | none => rfl
    | some hash =>
        refine congrArg some (Prod.ext rfl ?_)
        exact table_emplace _ _ _ _

/-- An expression that is looked at puts in its entry, if it has one. -/
theorem map_table_visitExpr {visitor : Visitor} {e : Expr}
    (hconsidered : (!visitor.shouldSkipCurrentFunction && !e.inSystemHeader &&
      e.beginLoc.file ≠ "" && !sources.shouldSkip e.beginLoc.file) = true) :
    (visitExpr sources enabled visitor e).map
        (fun visitor' => (visitor'.shouldSkipCurrentFunction, table visitor'.singleUnitMutations)) =
      (fill (Entry.key sources) Entry.mutation (table visitor.singleUnitMutations)
        (entryOf enabled e).toList).map fun filled => (visitor.shouldSkipCurrentFunction, filled) := by
  rw [visitExpr_eq hconsidered, entryOf]
  cases records enabled e with
  | none => rfl
  | some record =>
      obtain ⟨mutatorKind, location⟩ := record
      simp only [Option.bind_some]
      by_cases hfile : location.file = ""
      · rw [saveMutationPoint, if_pos hfile, if_pos hfile]
        rfl
      · rw [if_neg hfile]
        have hsave := @map_table_saveMutationPoint sources visitor ⟨mutatorKind, location, e.stmt⟩ hfile
        refine hsave.trans ?_
        cases hkey : Entry.key sources ⟨mutatorKind, location, e.stmt⟩ with
        | none => simp [fill, hkey]
        | some key => simp [fill, hkey]

/-- The whole traversal fills in the entries of the expressions looked at. -/
theorem map_table_foldlM (visits : List Visit) (visitor : Visitor) :
    (visits.foldlM (visit sources enabled) visitor).map
        (fun visitor' => table visitor'.singleUnitMutations) =
      fill (Entry.key sources) Entry.mutation (table visitor.singleUnitMutations)
        (entries enabled (considered sources visitor.shouldSkipCurrentFunction visits)) := by
  induction visits generalizing visitor with
  | nil => rfl
  | cons node visits ih =>
      rw [List.foldlM_cons]
      cases node with
      | functionDecl name => exact ih ⟨name = "main", visitor.singleUnitMutations⟩
      | expr e =>
          unfold considered
          split
          · rename_i hconsidered
            have hstep := @map_table_visitExpr sources enabled visitor e hconsidered
            have hsplit : entries enabled
                (e :: considered sources visitor.shouldSkipCurrentFunction visits) =
              (entryOf enabled e).toList ++
                entries enabled (considered sources visitor.shouldSkipCurrentFunction visits) := by
              rw [entries, List.filterMap_cons]
              cases entryOf enabled e <;> rfl
            rw [hsplit, fill, List.foldlM_append, ← fill, visit]
            cases hvisit : visitExpr sources enabled visitor e with
            | none =>
                rw [hvisit, Option.map_none, eq_comm, Option.map_eq_none_iff] at hstep
                rw [hstep]
                rfl
            | some next =>
                rw [hvisit, Option.map_some, eq_comm, Option.map_eq_some_iff] at hstep
                obtain ⟨filled, hfill, heq⟩ := hstep
                obtain ⟨hskip, rfl⟩ := Prod.mk.inj heq
                rw [hfill, hskip]
                exact ih next
          · rename_i hskipped
            rw [visit, visitExpr_of_skipped hskipped]
            exact ih visitor

theorem map_table_traverse (sourceFileName : String) :
    (traverse sources enabled sourceFileName).map table =
      fill (Entry.key sources) Entry.mutation (fun _ => none)
        (entries enabled (considered sources false (sources.ast sourceFileName))) := by
  rw [traverse, Option.map_map]
  exact map_table_foldlM _ ⟨false, fun _ => none⟩

end Traversal

/-! ### Kinds that hide others -/

/-- The kinds with one that `VisitExpr` tries before on the same expressions. -/
def hides : List (MutatorKind × MutatorKind) :=
  [(.cxxGreaterThanToLessOrEqual, .cxxGreaterThanToGreaterOrEqual),
    (.cxxLessThanToGreaterOrEqual, .cxxLessThanToLessOrEqual),
    (.cxxGreaterOrEqualToLessThan, .cxxGreaterOrEqualToGreaterThan),
    (.cxxLessOrEqualToGreaterThan, .cxxLessOrEqualToLessThan),
    (.removeVoidFunctionMutator, .replaceCallMutator)]

/-- An enabled kind hides this one. -/
def isHidden (enabled : MutatorKind → Bool) (mutatorKind : MutatorKind) : Bool :=
  hides.any fun pair => decide (pair.2 = mutatorKind) && enabled pair.1

/-- The set with one kind. -/
def only (mutatorKind : MutatorKind) : MutatorKind → Bool := fun other => other = mutatorKind

/-- In the table, the entries of the same operator before an entry are those that hide it. -/
theorem earlier_mutations : (binaryMutations.all fun mutation => decide
    (((binaryMutations.takeWhile (· ≠ mutation)).filter (·.1 = mutation.1)).map Prod.snd =
      (hides.filter (·.2 = mutation.2)).map Prod.fst)) = true := by
  decide +kernel

theorem find?_eq_some_iff_takeWhile {α : Type} [DecidableEq α] {p : α → Bool} {xs : List α} {x : α} :
    xs.find? p = some x ↔ x ∈ xs ∧ p x = true ∧ ∀ y ∈ xs.takeWhile (· ≠ x), p y = false := by
  induction xs with
  | nil => simp
  | cons y ys ih =>
      by_cases hy : p y
      · rw [List.find?_cons_of_pos hy]
        by_cases hx : y = x
        · subst hx
          simp [hy]
        · simp [hx, hy]
      · rw [List.find?_cons_of_neg hy, ih]
        by_cases hx : y = x
        · subst hx
          simp [hy]
        · simp [hx, Ne.symm hx, hy]

theorem isHidden_eq_false_iff {enabled : MutatorKind → Bool} {mutatorKind : MutatorKind} :
    isHidden enabled mutatorKind = false ↔
      ∀ first ∈ (hides.filter (·.2 = mutatorKind)).map Prod.fst, enabled first = false := by
  rw [isHidden, List.any_eq_false]
  constructor
  · intro h first hfirst
    obtain ⟨pair, hpair, rfl⟩ := List.mem_map.mp hfirst
    obtain ⟨hpair, hsecond⟩ := List.mem_filter.mp hpair
    simpa [of_decide_eq_true hsecond] using h pair hpair
  · intro h pair hpair hboth
    simp only [Bool.and_eq_true, decide_eq_true_eq] at hboth
    have hfalse := h pair.1 (List.mem_map_of_mem
      (List.mem_filter.mpr ⟨hpair, decide_eq_true hboth.1⟩))
    rw [hboth.2] at hfalse
    cases hfalse

/-- The loop over `BINARY_MUTATIONS` stops at a kind that is enabled and not hidden. -/
theorem find?_binaryMutations {enabled : MutatorKind → Bool} {opcode : BinaryOpcode}
    {mutation : BinaryOpcode × MutatorKind} :
    (binaryMutations.find? fun mutation =>
        decide (opcode = mutation.1) && enabled mutation.2) = some mutation ↔
      mutation ∈ binaryMutations ∧ opcode = mutation.1 ∧ enabled mutation.2 = true ∧
        isHidden enabled mutation.2 = false := by
  rw [find?_eq_some_iff_takeWhile, isHidden_eq_false_iff]
  refine and_congr_right fun hmem => ?_
  rw [← of_decide_eq_true (List.all_eq_true.mp earlier_mutations _ hmem), Bool.and_eq_true,
    decide_eq_true_eq, and_assoc]
  refine and_congr_right fun hopcode => and_congr_right fun _ => ?_
  constructor
  · intro hearlier first hfirst
    obtain ⟨other, hother, rfl⟩ := List.mem_map.mp hfirst
    obtain ⟨hother, hsame⟩ := List.mem_filter.mp hother
    simpa [hopcode, of_decide_eq_true hsame] using hearlier other hother
  · intro hhidden other hother
    by_cases hsame : other.1 = mutation.1
    · rw [hhidden other.2 (List.mem_map_of_mem (List.mem_filter.mpr
        ⟨hother, decide_eq_true hsame⟩)), Bool.and_false]
    · rw [hopcode, decide_eq_false (Ne.symm hsame), Bool.false_and]

/-- Which kind is recorded for an expression. -/
theorem records_eq_some_iff {enabled : MutatorKind → Bool} {e : Expr} {mutatorKind : MutatorKind}
    {location : Location} :
    records enabled e = some (mutatorKind, location) ↔
      (enabled mutatorKind = true ∧ isHidden enabled mutatorKind = false) ∧
        EligibleAt mutatorKind e location := by
  unfold records EligibleAt
  cases e.kind with
  | binaryOperator opcode operatorLoc =>
      simp only [Option.map_eq_some_iff, find?_binaryMutations]
      constructor
      · rintro ⟨mutation, ⟨hmem, rfl, henabled, hhidden⟩, heq⟩
        cases heq
        exact ⟨⟨henabled, hhidden⟩, hmem, rfl⟩
      · rintro ⟨⟨henabled, hhidden⟩, hmem, rfl⟩
        exact ⟨(opcode, mutatorKind), ⟨hmem, rfl, henabled, hhidden⟩, rfl⟩
  | callExpr isVoid =>
      have hremove : isHidden enabled .removeVoidFunctionMutator = false := by
        simp [isHidden, hides]
      have hreplace : isHidden enabled .replaceCallMutator = enabled .removeVoidFunctionMutator := by
        simp [isHidden, hides]
      simp only
      constructor
      · intro h
        split at h
        · rename_i henabled
          split at h
          · rename_i hvoid
            cases h
            exact ⟨⟨henabled, hremove⟩, .inl ⟨rfl, hvoid⟩, rfl⟩
          · cases h
        · rename_i hdisabled
          split at h
          · rename_i henabled
            cases h
            rw [hreplace]
            exact ⟨⟨henabled, Bool.eq_false_iff.mpr hdisabled⟩, .inr rfl, rfl⟩
          · cases h
      · rintro ⟨⟨henabled, hhidden⟩, ⟨rfl, hvoid⟩ | rfl, rfl⟩
        · rw [if_pos henabled, if_pos hvoid]
        · rw [hreplace] at hhidden
          rw [if_neg (Bool.eq_false_iff.mp hhidden), if_pos henabled]
  | other => simp

theorem isHidden_only (mutatorKind : MutatorKind) : isHidden (only mutatorKind) mutatorKind = false := by
  rw [isHidden_eq_false_iff]
  intro first hfirst
  obtain ⟨pair, hpair, rfl⟩ := List.mem_map.mp hfirst
  obtain ⟨hpair, hsecond⟩ := List.mem_filter.mp hpair
  have hdifferent := List.all_eq_true.mp
    (by decide : (hides.all fun pair => decide (pair.1 ≠ pair.2)) = true) pair hpair
  rw [only, ← of_decide_eq_true hsecond]
  exact decide_eq_false (of_decide_eq_true hdifferent)

theorem entryOf_eq_some {enabled : MutatorKind → Bool} {e : Expr} {entry : Entry} :
    entryOf enabled e = some entry ↔
      records enabled e = some (entry.mutatorKind, entry.location) ∧ entry.location.file ≠ "" ∧
        entry.stmt = e.stmt := by
  unfold entryOf
  constructor
  · intro h
    obtain ⟨⟨mutatorKind, location⟩, hrecords, h⟩ := Option.bind_eq_some_iff.mp h
    split at h
    · cases h
    · rename_i hfile
      cases h
      exact ⟨hrecords, hfile, rfl⟩
  · rintro ⟨hrecords, hfile, hstmt⟩
    rw [hrecords, Option.bind_some, if_neg hfile, ← hstmt]

theorem entryOf_only {mutatorKind : MutatorKind} {e : Expr} {entry : Entry} :
    entryOf (only mutatorKind) e = some entry ↔ entry.mutatorKind = mutatorKind ∧
      EligibleAt mutatorKind e entry.location ∧ entry.location.file ≠ "" ∧ entry.stmt = e.stmt := by
  rw [entryOf_eq_some, records_eq_some_iff]
  constructor
  · rintro ⟨⟨⟨honly, -⟩, heligible⟩, hrest⟩
    have hkind : entry.mutatorKind = mutatorKind := of_decide_eq_true honly
    rw [hkind] at heligible
    exact ⟨hkind, heligible, hrest⟩
  · rintro ⟨rfl, heligible, hrest⟩
    exact ⟨⟨⟨decide_eq_true rfl, isHidden_only _⟩, heligible⟩, hrest⟩

/-- An entry is recorded if its kind is enabled and not hidden. -/
theorem entryOf_eq_some_iff {enabled : MutatorKind → Bool} {e : Expr} {entry : Entry} :
    entryOf enabled e = some entry ↔
      (enabled entry.mutatorKind = true ∧ isHidden enabled entry.mutatorKind = false) ∧
        entryOf (only entry.mutatorKind) e = some entry := by
  rw [entryOf_eq_some, entryOf_only, records_eq_some_iff]
  tauto

/-- The entries of one kind are those that it alone would have, or none if the kind is not
    enabled or hidden. -/
theorem filter_entries (enabled : MutatorKind → Bool) (exprs : List Expr) (mutatorKind : MutatorKind) :
    (entries enabled exprs).filter (·.mutatorKind = mutatorKind) =
      if enabled mutatorKind && !isHidden enabled mutatorKind then entries (only mutatorKind) exprs
      else [] := by
  rw [entries, List.filter_filterMap]
  split
  · rename_i hrecorded
    simp only [Bool.and_eq_true, Bool.not_eq_true'] at hrecorded
    refine List.filterMap_congr fun e _ => Option.ext fun entry => ?_
    rw [Option.filter_eq_some_iff, entryOf_eq_some_iff]
    constructor
    · rintro ⟨⟨-, hentry⟩, hkind⟩
      rw [← of_decide_eq_true hkind]
      exact hentry
    · intro hentry
      have hkind : entry.mutatorKind = mutatorKind :=
        of_decide_eq_true (entryOf_eq_some_iff.mp hentry).1.1
      rw [hkind]
      exact ⟨⟨hrecorded, hentry⟩, decide_eq_true rfl⟩
  · rename_i hnot
    refine List.filterMap_eq_nil_iff.mpr fun e _ => ?_
    rw [Option.eq_none_iff_forall_ne_some]
    intro entry hentry
    rw [Option.filter_eq_some_iff, entryOf_eq_some_iff] at hentry
    obtain ⟨⟨hrecorded, -⟩, hkind⟩ := hentry
    rw [of_decide_eq_true hkind] at hrecorded
    exact hnot (by simp [hrecorded])

/-! ### Runs with several kinds and with one -/

/-- A mutation is in one of the buckets. -/
def Recorded (mutations : SingleASTUnitMutations) (mutation : ASTMutation) : Prop :=
  ∃ key, table mutations key = some mutation

section Runs

variable {sources : Sources} {enabled : MutatorKind → Bool} {sourceFileName : String}

/-- What a run records is what the runs with one of its kinds that is not hidden would. -/
theorem recorded_iff {mutations : SingleASTUnitMutations}
    (h : traverse sources enabled sourceFileName = some mutations) {mutation : ASTMutation} :
    Recorded mutations mutation ↔
      (enabled mutation.mutatorKind = true ∧ isHidden enabled mutation.mutatorKind = false) ∧
      ∃ hash, first (Entry.key sources) Entry.mutation
        (entries (only mutation.mutatorKind)
          (considered sources false (sources.ast sourceFileName)))
        (mutation.mutatorKind, hash) = some mutation := by
  have hfill := @map_table_traverse sources enabled sourceFileName
  rw [h, Option.map_some, eq_comm] at hfill
  have hkeys := (fill_isSome_iff _ _).mp (Option.isSome_of_eq_some hfill)
  rw [fill_eq _ hkeys] at hfill
  have htable := Option.some.inj hfill
  have hkind : ∀ kind hash, table mutations (kind, hash) =
      if enabled kind && !isHidden enabled kind then
        first (Entry.key sources) Entry.mutation (entries (only kind)
          (considered sources false (sources.ast sourceFileName))) (kind, hash)
      else none := by
    intro kind hash
    rw [← htable]
    simp only [Option.none_or]
    rw [← first_filter (fun entry => decide (entry.mutatorKind = kind))
      fun entry _ hkey => decide_eq_true (Entry.key_eq_some hkey), filter_entries]
    split
    · rfl
    · rfl
  constructor
  · rintro ⟨⟨kind, hash⟩, hmutation⟩
    rw [hkind] at hmutation
    split at hmutation
    · rename_i hrecorded
      obtain ⟨entry, -, hkey, hvalue⟩ := exists_of_first_eq_some hmutation
      obtain rfl : mutation.mutatorKind = kind := by
        rw [← hvalue]
        exact Entry.key_eq_some hkey
      exact ⟨by simpa using hrecorded, hash, hmutation⟩
    · cases hmutation
  · rintro ⟨⟨henabled, hhidden⟩, hash, hmutation⟩
    refine ⟨(mutation.mutatorKind, hash), ?_⟩
    rw [hkind, henabled, hhidden]
    exact hmutation

theorem exists_traverse_iff : (∃ mutations, traverse sources enabled sourceFileName = some mutations) ↔
    ∀ entry ∈ entries enabled (considered sources false (sources.ast sourceFileName)),
      (entry.key sources).isSome := by
  rw [← fill_isSome_iff fun _ => none, ← map_table_traverse, Option.isSome_map,
    Option.isSome_iff_exists]

/-- A run with several kinds ends the program at no expression at which the runs with one
    kind do not. -/
theorem exists_traverse (hruns : ∀ mutatorKind, enabled mutatorKind = true →
    ∃ alone, traverse sources (only mutatorKind) sourceFileName = some alone) :
    ∃ mutations, traverse sources enabled sourceFileName = some mutations := by
  rw [exists_traverse_iff]
  intro entry hentry
  obtain ⟨e, he, hrecords⟩ := List.mem_filterMap.mp hentry
  obtain ⟨⟨henabled, -⟩, halone⟩ := entryOf_eq_some_iff.mp hrecords
  exact exists_traverse_iff.mp (hruns _ henabled) entry (List.mem_filterMap.mpr ⟨e, he, halone⟩)

end Runs

/-- What is recorded for a set of kinds is what is recorded for its kinds one by one, and
    a smaller set records no more. -/
structure Compositional (sources : Sources) (enabled : MutatorKind → Bool)
    (sourceFileName : String) (mutations : SingleASTUnitMutations) : Prop where
  union : ∀ mutation, Recorded mutations mutation ↔ ∃ mutatorKind, enabled mutatorKind = true ∧
    ∃ alone, traverse sources (only mutatorKind) sourceFileName = some alone ∧
      Recorded alone mutation
  monotone : ∀ fewer : MutatorKind → Bool,
    (∀ mutatorKind, fewer mutatorKind = true → enabled mutatorKind = true) →
    ∀ mutations', traverse sources fewer sourceFileName = some mutations' →
      ∀ mutation, Recorded mutations' mutation → Recorded mutations mutation

/-- No expression that is looked at could be recorded for the second kind of a pair of
    which both are enabled. -/
def NothingHidden (sources : Sources) (enabled : MutatorKind → Bool) (sourceFileName : String) :
    Prop :=
  ∀ pair ∈ hides, enabled pair.1 = true → enabled pair.2 = true →
    ∀ e ∈ considered sources false (sources.ast sourceFileName), ∀ location,
      EligibleAt pair.2 e location → location.file = ""

section Compositional

variable {sources : Sources} {enabled : MutatorKind → Bool} {sourceFileName : String}

/-- The run with one kind records a mutation if the kind applies to an expression. -/
theorem exists_recorded_alone {mutatorKind : MutatorKind} {alone : SingleASTUnitMutations}
    (h : traverse sources (only mutatorKind) sourceFileName = some alone) {e : Expr}
    (he : e ∈ considered sources false (sources.ast sourceFileName)) {location : Location}
    (heligible : EligibleAt mutatorKind e location) (hfile : location.file ≠ "") :
    ∃ mutation, mutation.mutatorKind = mutatorKind ∧ Recorded alone mutation := by
  have hentry : (⟨mutatorKind, location, e.stmt⟩ : Entry) ∈
      entries (only mutatorKind) (considered sources false (sources.ast sourceFileName)) :=
    List.mem_filterMap.mpr ⟨e, he, entryOf_only.mpr ⟨rfl, heligible, hfile, rfl⟩⟩
  obtain ⟨⟨kind, hash⟩, hkey⟩ :=
    Option.isSome_iff_exists.mp (exists_traverse_iff.mp ⟨alone, h⟩ _ hentry)
  obtain rfl : mutatorKind = kind := Entry.key_eq_some hkey
  obtain ⟨mutation, hmutation⟩ := Option.isSome_iff_exists.mp
    (@first_isSome _ _ _ _ _ Entry.mutation _ _ _ hentry hkey)
  obtain ⟨other, -, hother, rfl⟩ := exists_of_first_eq_some hmutation
  have hkind : other.mutation.mutatorKind = mutatorKind := Entry.key_eq_some hother
  refine ⟨other.mutation, hkind, ?_⟩
  rw [recorded_iff h, hkind, isHidden_only]
  exact ⟨⟨decide_eq_true rfl, rfl⟩, hash, hmutation⟩

/-- If nothing is hidden, an enabled kind that has a mutation is not hidden. -/
theorem NothingHidden.isHidden_eq_false (h : NothingHidden sources enabled sourceFileName)
    {mutation : ASTMutation} (henabled : enabled mutation.mutatorKind = true) {hash : Int}
    (hmutation : first (Entry.key sources) Entry.mutation (entries (only mutation.mutatorKind)
      (considered sources false (sources.ast sourceFileName)))
      (mutation.mutatorKind, hash) = some mutation) :
    isHidden enabled mutation.mutatorKind = false := by
  obtain ⟨entry, hentry, -, -⟩ := exists_of_first_eq_some hmutation
  obtain ⟨e, he, hentry⟩ := List.mem_filterMap.mp hentry
  obtain ⟨-, heligible, hfile, -⟩ := entryOf_only.mp hentry
  rw [isHidden, List.any_eq_false]
  intro pair hpair hboth
  simp only [Bool.and_eq_true, decide_eq_true_eq] at hboth
  obtain ⟨hsecond, hfirst⟩ := hboth
  rw [← hsecond] at henabled heligible
  exact hfile (h pair hpair hfirst henabled e he _ heligible)

/-- If a set records what its kinds do, none of them hides another. -/
theorem Compositional.nothingHidden {mutations : SingleASTUnitMutations}
    (hruns : ∀ mutatorKind, enabled mutatorKind = true →
      ∃ alone, traverse sources (only mutatorKind) sourceFileName = some alone)
    (htraverse : traverse sources enabled sourceFileName = some mutations)
    (h : Compositional sources enabled sourceFileName mutations) :
    NothingHidden sources enabled sourceFileName := by
  intro pair hpair hfirst hsecond e he location heligible
  by_contra hfile
  -- the second kind alone records a mutation, and both kinds together do not
  obtain ⟨alone, halone⟩ := hruns pair.2 hsecond
  obtain ⟨mutation, hkind, hrecorded⟩ := exists_recorded_alone halone he heligible hfile
  have hunion := (h.union mutation).mpr ⟨pair.2, hsecond, alone, halone, hrecorded⟩
  obtain ⟨⟨-, hhidden⟩, -⟩ := (recorded_iff htraverse).mp hunion
  rw [hkind, isHidden, List.any_eq_false] at hhidden
  exact hhidden pair hpair (by simp [hfirst])

theorem NothingHidden.compositional {mutations : SingleASTUnitMutations}
    (hruns : ∀ mutatorKind, enabled mutatorKind = true →
      ∃ alone, traverse sources (only mutatorKind) sourceFileName = some alone)
    (htraverse : traverse sources enabled sourceFileName = some mutations)
    (h : NothingHidden sources enabled sourceFileName) :
    Compositional sources enabled sourceFileName mutations := by
  constructor
  · intro mutation
    rw [recorded_iff htraverse]
    constructor
    · rintro ⟨⟨henabled, -⟩, hash, hmutation⟩
      obtain ⟨alone, halone⟩ := hruns _ henabled
      refine ⟨_, henabled, alone, halone, (recorded_iff halone).mpr ?_⟩
      exact ⟨⟨decide_eq_true rfl, isHidden_only _⟩, hash, hmutation⟩
    · rintro ⟨kind, henabled, alone, halone, hrecorded⟩
      obtain ⟨⟨honly, -⟩, hash, hmutation⟩ := (recorded_iff halone).mp hrecorded
      rw [← of_decide_eq_true honly] at henabled
      exact ⟨⟨henabled, h.isHidden_eq_false henabled hmutation⟩, hash, hmutation⟩
  · intro fewer hfewer mutations' hrun mutation hrecorded
    obtain ⟨⟨hmember, -⟩, hash, hmutation⟩ := (recorded_iff hrun).mp hrecorded
    have henabled := hfewer _ hmember
    rw [recorded_iff htraverse]
    exact ⟨⟨henabled, h.isHidden_eq_false henabled hmutation⟩, hash, hmutation⟩

end Compositional

/-- **The search is compositional exactly if no enabled kind hides another one** at an
    expression of the unit. -/
theorem compositional_iff {sources : Sources} {enabled : MutatorKind → Bool}
    {sourceFileName : String}
    (hruns : ∀ mutatorKind, enabled mutatorKind = true →
      ∃ alone, traverse sources (only mutatorKind) sourceFileName = some alone) :
    ∃ mutations, traverse sources enabled sourceFileName = some mutations ∧
      (Compositional sources enabled sourceFileName mutations ↔
        NothingHidden sources enabled sourceFileName) := by
  obtain ⟨mutations, htraverse⟩ := exists_traverse hruns
  exact ⟨mutations, htraverse, fun h => h.nothingHidden hruns htraverse,
    fun h => h.compositional hruns htraverse⟩

/-- Of additions, nothing is hidden by the kinds of comparisons. -/
theorem compositional_twoAdditions : ∃ mutations,
    traverse twoAdditions (fun kind => kind = .cxxAddToSub || kind = .cxxGreaterThanToLessOrEqual)
      "/p/a.cpp" = some mutations ∧
    Compositional twoAdditions
      (fun kind => kind = .cxxAddToSub || kind = .cxxGreaterThanToLessOrEqual) "/p/a.cpp"
      mutations := by
  obtain ⟨mutations, htraverse, hiff⟩ := @compositional_iff twoAdditions
    (fun kind => kind = .cxxAddToSub || kind = .cxxGreaterThanToLessOrEqual) "/p/a.cpp" (by
      intro kind henabled
      simp only [Bool.or_eq_true, decide_eq_true_eq] at henabled
      rw [← Option.isSome_iff_exists]
      rcases henabled with rfl | rfl
      · decide +kernel
      · decide +kernel)
  refine ⟨mutations, htraverse, hiff.mpr ?_⟩
  intro pair hpair hfirst hsecond
  have hnone : (hides.all fun pair => decide ¬
      ((pair.1 = .cxxAddToSub ∨ pair.1 = .cxxGreaterThanToLessOrEqual) ∧
        (pair.2 = .cxxAddToSub ∨ pair.2 = .cxxGreaterThanToLessOrEqual))) = true := by decide
  simp only [Bool.or_eq_true, decide_eq_true_eq] at hfirst hsecond
  exact absurd ⟨hfirst, hsecond⟩ (of_decide_eq_true (List.all_eq_true.mp hnone pair hpair))

/-- A unit with the comparison `a > b`, at 2:12. -/
def oneComparison : Sources where
  ast file := if file = "/p/a.cpp" then
      [.functionDecl "greater",
        .expr ⟨0, .binaryOperator .gt ⟨"/p/a.cpp", 2, 12⟩, ⟨"/p/a.cpp", 2, 10⟩, false⟩]
    else []
  isRegularFile file := file = "/p/a.cpp"
  shouldSkip _ := false

/-- With both kinds for `>` enabled, the mutation to `>=` is not recorded. -/
theorem not_compositional_comparison :
    ¬ ∀ (sources : Sources) (enabled : MutatorKind → Bool) (sourceFileName : String)
      (mutations : SingleASTUnitMutations),
      (∀ mutatorKind, enabled mutatorKind = true →
        ∃ alone, traverse sources (only mutatorKind) sourceFileName = some alone) →
      traverse sources enabled sourceFileName = some mutations →
        Compositional sources enabled sourceFileName mutations := by
  intro hall
  let both : MutatorKind → Bool := fun kind =>
    kind = .cxxGreaterThanToLessOrEqual || kind = .cxxGreaterThanToGreaterOrEqual
  have hruns : ∀ kind, both kind = true →
      ∃ alone, traverse oneComparison (only kind) "/p/a.cpp" = some alone := by
    intro kind henabled
    simp only [both, Bool.or_eq_true, decide_eq_true_eq] at henabled
    rw [← Option.isSome_iff_exists]
    rcases henabled with rfl | rfl
    · decide +kernel
    · decide +kernel
  obtain ⟨mutations, htraverse⟩ := exists_traverse hruns
  obtain ⟨alone, halone⟩ := hruns .cxxGreaterThanToGreaterOrEqual rfl
  have hrecorded : Recorded alone ⟨.cxxGreaterThanToGreaterOrEqual, 2, 12, 0⟩ := by
    refine ⟨(.cxxGreaterThanToGreaterOrEqual, 107), ?_⟩
    have hentry : (traverse oneComparison (only .cxxGreaterThanToGreaterOrEqual) "/p/a.cpp").map
        (fun alone => table alone (.cxxGreaterThanToGreaterOrEqual, 107)) =
        some (some ⟨.cxxGreaterThanToGreaterOrEqual, 2, 12, 0⟩) := by decide +kernel
    rw [halone] at hentry
    exact Option.some.inj hentry
  have hunion := ((hall _ both _ _ hruns htraverse).union _).mpr ⟨_, rfl, alone, halone, hrecorded⟩
  obtain ⟨⟨-, hhidden⟩, -⟩ := (recorded_iff htraverse).mp hunion
  exact absurd hhidden (by decide)

end Mull.ASTSearch
