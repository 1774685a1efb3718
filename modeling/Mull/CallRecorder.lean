import Mull.Lib.ParentForest

/-!
# Recording calls: `enterFunction` and `leaveFunction`

The callbacks that mull injects into an instrumented program keep a call stack
and a plain array, `callTreeMapping`, with one entry per function index.  Index
`0` is never used.  The entry of a function is

  * `0` when the function was never called;
  * the function itself when it was called on an empty call stack;
  * the function on top of the call stack at its first call otherwise.

The entry of a function is written at its first call, and once more whenever the
function is entered on an empty stack.  `Recorded.order` is the order of first
entry: it certifies that the array is a forest after any sequence of events,
properly nested or not.
-/

namespace Mull.DynamicCallTree

open ParentForest

/-- The data the callbacks of one test write to.  `callTreeMapping` is the raw
    array behind a `uint32_t *`; `callstack` has its top at the head. -/
structure InstrumentationInfo where
  callTreeMapping : Nat → Nat
  callstack : List Nat

/-- The state before a test: a zeroed mapping and an empty stack. -/
def InstrumentationInfo.initial : InstrumentationInfo := ⟨fun _ => 0, []⟩

/-- A call of one of the two callbacks, with the function index it is given. -/
inductive Event where
  | enter (functionIndex : Nat)
  | leave (functionIndex : Nat)
deriving DecidableEq, Repr

def Event.functionIndex : Event → Nat
  | .enter functionIndex => functionIndex
  | .leave functionIndex => functionIndex

/-- `DynamicCallTree::enterFunction`; `none` is the failed assertion on index `0`. -/
def enterFunction (functionIndex : Nat) (info : InstrumentationInfo) :
    Option InstrumentationInfo :=
  if functionIndex = 0 then none
  else
    let mapping :=
      match info.callstack with
      | [] => Function.update info.callTreeMapping functionIndex functionIndex
      | parent :: _ =>
          if info.callTreeMapping functionIndex = 0 then
            Function.update info.callTreeMapping functionIndex parent
          else info.callTreeMapping
    some ⟨mapping, functionIndex :: info.callstack⟩

/-- `DynamicCallTree::leaveFunction`: the index is asserted to be non-zero and is
    otherwise ignored.  Popping an empty stack is undefined. -/
def leaveFunction (functionIndex : Nat) (info : InstrumentationInfo) :
    Option InstrumentationInfo :=
  if functionIndex = 0 then none
  else
    match info.callstack with
    | [] => none
    | _ :: callstack => some { info with callstack := callstack }

def step (info : InstrumentationInfo) : Event → Option InstrumentationInfo
  | .enter functionIndex => enterFunction functionIndex info
  | .leave functionIndex => leaveFunction functionIndex info

/-- The callbacks of a whole run, in order. -/
def record (info : InstrumentationInfo) : List Event → Option InstrumentationInfo
  | [] => some info
  | event :: events => (step info event).bind fun info => record info events

/-- Every event names a function of a table of size `n`. -/
def InRange (n : Nat) (events : List Event) : Prop :=
  ∀ event ∈ events, 1 ≤ event.functionIndex ∧ event.functionIndex < n

/-- No `leave` meets an empty stack, when the stack has `depth` entries at first. -/
def LeavesNonEmpty : Nat → List Event → Prop
  | _, [] => True
  | depth, .enter _ :: events => LeavesNonEmpty (depth + 1) events
  | 0, .leave _ :: _ => False
  | depth + 1, .leave _ :: events => LeavesNonEmpty depth events

/-- The mapping is a forest that holds everything on the stack: from a recorded
    function, following the entries meets recorded functions only and reaches a
    root in at most `n - 1` steps. -/
structure IsForest (n : Nat) (info : InstrumentationInfo) : Prop where
  zero : info.callTreeMapping 0 = 0
  stack : ∀ f ∈ info.callstack, info.callTreeMapping f ≠ 0
  chain : ∀ f, info.callTreeMapping f ≠ 0 → ∃ k ≤ n - 1,
    (∀ j ≤ k, info.callTreeMapping (info.callTreeMapping^[j] f) ≠ 0) ∧
      info.callTreeMapping (info.callTreeMapping^[k] f) = info.callTreeMapping^[k] f

/-! ### What one event can do -/

theorem step_cases {info info' : InstrumentationInfo} {event : Event}
    (h : step info event = some info') :
    (∃ f, event = .enter f ∧ f ≠ 0 ∧ info.callstack = [] ∧
        info' = ⟨Function.update info.callTreeMapping f f, [f]⟩) ∨
    (∃ f parent stack, event = .enter f ∧ f ≠ 0 ∧ info.callstack = parent :: stack ∧
        info.callTreeMapping f = 0 ∧
        info' = ⟨Function.update info.callTreeMapping f parent, f :: info.callstack⟩) ∨
    (∃ f parent stack, event = .enter f ∧ f ≠ 0 ∧ info.callstack = parent :: stack ∧
        info.callTreeMapping f ≠ 0 ∧
        info' = ⟨info.callTreeMapping, f :: info.callstack⟩) ∨
    (∃ f top stack, event = .leave f ∧ f ≠ 0 ∧ info.callstack = top :: stack ∧
        info' = ⟨info.callTreeMapping, stack⟩) := by
  cases event with
  | enter f =>
      simp only [step, enterFunction] at h
      split at h
      · cases h
      · rename_i hf
        cases hstack : info.callstack with
        | nil =>
            rw [hstack] at h
            exact Or.inl ⟨f, rfl, hf, rfl, (Option.some.inj h).symm⟩
        | cons parent stack =>
            rw [hstack] at h
            by_cases hzero : info.callTreeMapping f = 0
            · simp only [hzero, if_true] at h
              exact Or.inr (Or.inl ⟨f, parent, stack, rfl, hf, rfl, hzero,
                (Option.some.inj h).symm⟩)
            · simp only [hzero, if_false] at h
              exact Or.inr (Or.inr (Or.inl ⟨f, parent, stack, rfl, hf, rfl, hzero,
                (Option.some.inj h).symm⟩))
  | leave f =>
      simp only [step, leaveFunction] at h
      split at h
      · cases h
      · rename_i hf
        cases hstack : info.callstack with
        | nil => rw [hstack] at h; cases h
        | cons top stack =>
            rw [hstack] at h
            exact Or.inr (Or.inr (Or.inr ⟨f, top, stack, rfl, hf, rfl,
              (Option.some.inj h).symm⟩))

/-- The callbacks return: the two assertions hold and no empty stack is popped. -/
theorem exists_record {n : Nat} {events : List Event} {info : InstrumentationInfo}
    (hrange : InRange n events) (hleave : LeavesNonEmpty info.callstack.length events) :
    ∃ info', record info events = some info' := by
  induction events generalizing info with
  | nil => exact ⟨info, rfl⟩
  | cons event events ih =>
      have htail : InRange n events := fun e he => hrange e (List.mem_cons_of_mem _ he)
      have hindex := (hrange event List.mem_cons_self).1
      cases event with
      | enter f =>
          have hf : f ≠ 0 := by simp only [Event.functionIndex] at hindex; omega
          simp only [record, step, enterFunction, if_neg hf, Option.bind_some]
          exact ih htail (by simpa [LeavesNonEmpty] using hleave)
      | leave f =>
          have hf : f ≠ 0 := by simp only [Event.functionIndex] at hindex; omega
          cases hstack : info.callstack with
          | nil => simp [hstack, LeavesNonEmpty] at hleave
          | cons top stack =>
              simp only [record, step, leaveFunction, if_neg hf, hstack, Option.bind_some]
              exact ih htail (by simpa [hstack, LeavesNonEmpty] using hleave)

theorem LeavesNonEmpty.left {depth : Nat} {first second : List Event}
    (h : LeavesNonEmpty depth (first ++ second)) : LeavesNonEmpty depth first := by
  induction first generalizing depth with
  | nil => simp [LeavesNonEmpty]
  | cons event first ih =>
      cases event with
      | enter f => exact ih h
      | leave f =>
          cases depth with
          | zero => exact h
          | succ depth => exact ih h

theorem record_append (info : InstrumentationInfo) (first second : List Event) :
    record info (first ++ second) =
      (record info first).bind fun info => record info second := by
  induction first generalizing info with
  | nil => rfl
  | cons event first ih =>
      simp only [List.cons_append, record]
      cases step info event with
      | none => rfl
      | some info' => exact ih info'

/-- A property that every event preserves holds after every run. -/
theorem record_invariant {P : InstrumentationInfo → Prop} {events : List Event}
    {info info' : InstrumentationInfo}
    (hstep : ∀ event ∈ events, ∀ i i', step i event = some i' → P i → P i')
    (h : record info events = some info') (hP : P info) : P info' := by
  induction events generalizing info with
  | nil => exact Option.some.inj h ▸ hP
  | cons event events ih =>
      simp only [record, Option.bind_eq_some_iff] at h
      obtain ⟨next, hnext, hrest⟩ := h
      apply ih _ hrest (hstep event List.mem_cons_self info next hnext hP)
      intro e he
      exact hstep e (List.mem_cons_of_mem _ he)

/-! ### The invariant of the recorder -/

/-- `Recorded n info order`: `order` lists the functions entered so far, newest
    first; they are exactly the functions with a non-zero entry, everything on
    the stack is among them, and each hangs below one entered earlier. -/
structure Recorded (n : Nat) (info : InstrumentationInfo) (order : List Nat) : Prop where
  ordered : Ordered info.callTreeMapping order
  mem_iff : ∀ f, f ∈ order ↔ info.callTreeMapping f ≠ 0
  stack : ∀ f ∈ info.callstack, f ∈ order
  range : ∀ f ∈ order, 1 ≤ f ∧ f < n

theorem Recorded.initial (n : Nat) : Recorded n .initial [] where
  ordered := .nil
  mem_iff := by simp [InstrumentationInfo.initial]
  stack := by simp [InstrumentationInfo.initial]
  range := by simp

/-- One event keeps the invariant; the order of first entry grows by the entered
    function when it is new. -/
theorem Recorded.preserved {n : Nat} {info info' : InstrumentationInfo} {order : List Nat}
    {event : Event} (hrec : Recorded n info order)
    (hrange : 1 ≤ event.functionIndex ∧ event.functionIndex < n)
    (h : step info event = some info') : ∃ order', Recorded n info' order' := by
  rcases step_cases h with ⟨f, rfl, hf, hstack, rfl⟩ | ⟨f, parent, stack, rfl, hf, hstack, hzero, rfl⟩ |
    ⟨f, parent, stack, rfl, hf, hstack, hne, rfl⟩ | ⟨f, top, stack, rfl, hf, hstack, rfl⟩
  · -- a root: the entry is overwritten even when the function was called before
    by_cases hmem : f ∈ order
    · refine ⟨order, hrec.ordered.makeRoot f, ?_, ?_, hrec.range⟩
      · intro g
        by_cases hg : g = f
        · simp [hg, hmem, hf]
        · simpa [hg] using hrec.mem_iff g
      · intro g hg
        rw [List.mem_singleton.mp hg]
        exact hmem
    · refine ⟨f :: order, hrec.ordered.push hmem (Or.inl rfl), ?_, ?_, ?_⟩
      · intro g
        by_cases hg : g = f
        · simp [hg, hf]
        · simpa [hg] using hrec.mem_iff g
      · intro g hg
        rw [List.mem_singleton.mp hg]
        exact List.mem_cons_self
      · intro g hg
        rcases List.mem_cons.mp hg with rfl | hg
        · exact hrange
        · exact hrec.range g hg
  · -- a first call: the caller is on the stack, hence already in the forest
    have hmem : f ∉ order := fun hf => (hrec.mem_iff f).mp hf hzero
    have hparent : parent ∈ order := hrec.stack parent (by simp [hstack])
    have hpos : parent ≠ 0 := by have := (hrec.range parent hparent).1; omega
    refine ⟨f :: order, hrec.ordered.push hmem (Or.inr hparent), ?_, ?_, ?_⟩
    · intro g
      by_cases hg : g = f
      · simp [hg, hpos]
      · simpa [hg] using hrec.mem_iff g
    · intro g hg
      rcases List.mem_cons.mp hg with rfl | hg
      · exact List.mem_cons_self
      · exact List.mem_cons_of_mem _ (hrec.stack g hg)
    · intro g hg
      rcases List.mem_cons.mp hg with rfl | hg
      · exact hrange
      · exact hrec.range g hg
  · -- a later call: only the stack changes
    refine ⟨order, hrec.ordered, hrec.mem_iff, ?_, hrec.range⟩
    intro g hg
    rcases List.mem_cons.mp hg with rfl | hg
    · exact (hrec.mem_iff g).mpr hne
    · exact hrec.stack g hg
  · refine ⟨order, hrec.ordered, hrec.mem_iff, ?_, hrec.range⟩
    intro g hg
    exact hrec.stack g (by rw [hstack]; exact List.mem_cons_of_mem _ hg)

/-- After any run over a table of size `n` the invariant holds. -/
theorem recorded_of_record {n : Nat} {events : List Event} {info : InstrumentationInfo}
    (hrange : InRange n events) (h : record .initial events = some info) :
    ∃ order, Recorded n info order := by
  refine record_invariant (P := fun info => ∃ order, Recorded n info order) ?_ h
    ⟨[], Recorded.initial n⟩
  rintro event hevent i i' hi ⟨order, horder⟩
  exact horder.preserved (hrange event hevent) hi

/-- Every recorded function has a level, below the size of the table. -/
theorem Recorded.exists_level {n : Nat} {info : InstrumentationInfo} {order : List Nat}
    (hrec : Recorded n info order) {f : Nat} (hf : info.callTreeMapping f ≠ 0) :
    ∃ k < n, Level info.callTreeMapping f k := by
  have hmem := (hrec.mem_iff f).mpr hf
  obtain ⟨k, hk, hlevel⟩ :=
    hrec.ordered.exists_level (fun g hg => (hrec.mem_iff g).mp hg) f hmem
  have hlength := hrec.ordered.length_le hrec.range
  have hn := hrec.range f hmem
  exact ⟨k, by omega, hlevel⟩

theorem Recorded.zero {n : Nat} {info : InstrumentationInfo} {order : List Nat}
    (hrec : Recorded n info order) : info.callTreeMapping 0 = 0 := by
  by_contra hne
  have := hrec.range 0 ((hrec.mem_iff 0).mpr hne)
  omega

theorem Recorded.isForest {n : Nat} {info : InstrumentationInfo} {order : List Nat}
    (hrec : Recorded n info order) : IsForest n info where
  zero := hrec.zero
  stack := fun f hf => (hrec.mem_iff f).mp (hrec.stack f hf)
  chain := by
    intro f hf
    obtain ⟨k, hk, hlevel⟩ := hrec.exists_level hf
    have hpos := hlevel.pos
    obtain ⟨hchain, hroot⟩ := hlevel.iterate
    exact ⟨k - 1, by omega, fun j hj => hchain j (by omega), hroot⟩

/-! ### The recorded caller, read off the events -/

/-- The call stack after a run, from the events alone. -/
def stackAfter : List Nat → List Event → List Nat
  | stack, [] => stack
  | stack, .enter f :: events => stackAfter (f :: stack) events
  | stack, .leave _ :: events => stackAfter stack.tail events

/-- All calls of a run in order: the function on top of the stack, if there is
    one, and the function that is entered. -/
def calls : List Nat → List Event → List (Option Nat × Nat)
  | _, [] => []
  | stack, .enter f :: events => (stack.head?, f) :: calls (f :: stack) events
  | stack, .leave _ :: events => calls stack.tail events

/-- `p` was on top of the stack when `f` was called for the first time. -/
def FirstCaller (history : List (Option Nat × Nat)) (p f : Nat) : Prop :=
  ∃ before after, history = before ++ (some p, f) :: after ∧ ∀ caller, (caller, f) ∉ before

/-- `p` is the caller that the mapping remembers for `f`: its first caller, for a
    function that was never called on an empty stack. -/
def RecordedCall (history : List (Option Nat × Nat)) (p f : Nat) : Prop :=
  (none, f) ∉ history ∧ FirstCaller history p f

theorem calls_append (stack : List Nat) (first second : List Event) :
    calls stack (first ++ second) =
      calls stack first ++ calls (stackAfter stack first) second := by
  induction first generalizing stack with
  | nil => rfl
  | cons event first ih =>
      cases event with
      | enter f => simp only [List.cons_append, calls, stackAfter, ih]
      | leave f => simp only [List.cons_append, calls, stackAfter, ih]

theorem stackAfter_append (stack : List Nat) (first second : List Event) :
    stackAfter stack (first ++ second) = stackAfter (stackAfter stack first) second := by
  induction first generalizing stack with
  | nil => rfl
  | cons event first ih => cases event <;> exact ih _

theorem enter_mem_of_mem_calls {stack : List Nat} {events : List Event} {caller : Option Nat}
    {f : Nat} (h : (caller, f) ∈ calls stack events) : .enter f ∈ events := by
  induction events generalizing stack with
  | nil => simp [calls] at h
  | cons event events ih =>
      cases event with
      | enter g =>
          rcases List.mem_cons.mp h with heq | h
          · simp only [Prod.mk.injEq] at heq
            simp [heq.2]
          · exact List.mem_cons_of_mem _ (ih h)
      | leave g => exact List.mem_cons_of_mem _ (ih h)

theorem FirstCaller.mem {history : List (Option Nat × Nat)} {p f : Nat}
    (h : FirstCaller history p f) : (some p, f) ∈ history := by
  obtain ⟨before, after, rfl, -⟩ := h
  simp

theorem FirstCaller.append {history : List (Option Nat × Nat)} {p f : Nat}
    (h : FirstCaller history p f) (later : List (Option Nat × Nat)) :
    FirstCaller (history ++ later) p f := by
  obtain ⟨before, after, rfl, hnew⟩ := h
  exact ⟨before, after ++ later, by simp, hnew⟩

/-- The first caller is unique. -/
theorem FirstCaller.functional {history : List (Option Nat × Nat)} {p q f : Nat}
    (hp : FirstCaller history p f) (hq : FirstCaller history q f) : p = q := by
  obtain ⟨before, after, rfl, hnew⟩ := hp
  obtain ⟨before', after', heq, hnew'⟩ := hq
  rcases List.append_eq_append_iff.mp heq with ⟨mid, hmid, hrest⟩ | ⟨mid, hmid, hrest⟩
  · cases mid with
    | nil =>
        simp only [List.nil_append, List.cons.injEq, Prod.mk.injEq] at hrest
        simpa using hrest.1.1
    | cons call mid =>
        simp only [List.cons_append, List.cons.injEq] at hrest
        exact absurd (by rw [hmid, ← hrest.1]; simp) (hnew' (some p))
  · cases mid with
    | nil =>
        simp only [List.nil_append, List.cons.injEq, Prod.mk.injEq] at hrest
        simpa using hrest.1.1.symm
    | cons call mid =>
        simp only [List.cons_append, List.cons.injEq] at hrest
        exact absurd (by rw [hmid, ← hrest.1]; simp) (hnew (some q))

/-- `Agrees history f entry`: `entry` is what the mapping must hold for `f` after
    the calls of `history`. -/
inductive Agrees (history : List (Option Nat × Nat)) (f : Nat) : Nat → Prop where
  | never (h : ∀ caller, (caller, f) ∉ history) : Agrees history f 0
  | root (h : (none, f) ∈ history) : Agrees history f f
  | called {p : Nat} (h : RecordedCall history p f) (hp : p ≠ 0) (hne : p ≠ f) :
      Agrees history f p

theorem Agrees.append_other {history : List (Option Nat × Nat)} {f g entry : Nat}
    {caller : Option Nat} (h : Agrees history f entry) (hne : f ≠ g) :
    Agrees (history ++ [(caller, g)]) f entry := by
  cases h with
  | never h => exact .never (by intro c; simp [h c, hne])
  | root h => exact .root (List.mem_append_left _ h)
  | called h hp hpf => exact .called ⟨by simp [h.1, hne], h.2.append _⟩ hp hpf

theorem Agrees.ne_zero_iff {history : List (Option Nat × Nat)} {f entry : Nat} (hf : f ≠ 0)
    (h : Agrees history f entry) : entry ≠ 0 ↔ ∃ caller, (caller, f) ∈ history := by
  cases h with
  | never h => simpa using h
  | root h => exact ⟨fun _ => ⟨none, h⟩, fun _ => hf⟩
  | called h hp _ => exact ⟨fun _ => ⟨_, h.2.mem⟩, fun _ => hp⟩

/-- An entry that is neither zero nor the function itself is the recorded caller. -/
theorem Agrees.recordedCall_iff {history : List (Option Nat × Nat)} {f entry p : Nat}
    (h : Agrees history f entry) (hp : p ≠ 0) :
    RecordedCall history p f ↔ entry = p ∧ entry ≠ f := by
  cases h with
  | never h =>
      refine ⟨fun hcall => absurd hcall.2.mem (h _), fun heq => absurd heq.1.symm hp⟩
  | root h => exact ⟨fun hcall => absurd h hcall.1, fun heq => absurd rfl heq.2⟩
  | called h _ hne =>
      constructor
      · intro hcall
        exact ⟨h.2.functional hcall.2, hne⟩
      · rintro ⟨rfl, -⟩
        exact h

theorem step_callstack {info info' : InstrumentationInfo} {event : Event}
    (h : step info event = some info') :
    info'.callstack = stackAfter info.callstack [event] := by
  rcases step_cases h with ⟨f, rfl, -, hstack, rfl⟩ | ⟨f, parent, stack, rfl, -, -, -, rfl⟩ |
    ⟨f, parent, stack, rfl, -, -, -, rfl⟩ | ⟨f, top, stack, rfl, -, hstack, rfl⟩
  · simp [stackAfter, hstack]
  · rfl
  · rfl
  · simp [stackAfter, hstack]

/-- One event keeps the agreement between the calls so far and the mapping. -/
theorem Recorded.agrees_step {n : Nat} {info info' : InstrumentationInfo} {order : List Nat}
    {event : Event} {history : List (Option Nat × Nat)} (hrec : Recorded n info order)
    (hagrees : ∀ f, f ≠ 0 → Agrees history f (info.callTreeMapping f))
    (h : step info event = some info') :
    ∀ f, f ≠ 0 → Agrees (history ++ calls info.callstack [event]) f (info'.callTreeMapping f) := by
  intro g hg
  have hold := hagrees g hg
  rcases step_cases h with ⟨f, rfl, hf, hstack, rfl⟩ |
    ⟨f, parent, stack, rfl, hf, hstack, hzero, rfl⟩ |
    ⟨f, parent, stack, rfl, hf, hstack, hne, rfl⟩ | ⟨f, top, stack, rfl, hf, hstack, rfl⟩
  · by_cases hgf : g = f
    · simp only [hgf, Function.update_self]
      exact .root (by simp [calls, hstack])
    · simp only [Function.update_of_ne hgf]
      exact hold.append_other hgf
  · by_cases hgf : g = f
    · subst hgf
      have hparent : info.callTreeMapping parent ≠ 0 :=
        (hrec.mem_iff parent).mp (hrec.stack parent (by simp [hstack]))
      have hnever : ∀ caller, (caller, g) ∉ history := by
        rw [hzero] at hold
        cases hold with
        | never h => exact h
        | root => exact absurd rfl hg
        | called _ hp _ => exact absurd rfl hp
      simp only [Function.update_self, calls, hstack, List.head?_cons]
      refine .called ⟨by simp [hnever none], history, [], rfl, hnever⟩ ?_ ?_
      · exact fun h0 => hparent (h0 ▸ hrec.zero)
      · rintro rfl
        exact hparent hzero
    · simp only [Function.update_of_ne hgf]
      exact hold.append_other hgf
  · by_cases hgf : g = f
    · subst hgf
      generalize info.callTreeMapping g = entry at hold hne
      cases hold with
      | never => exact absurd rfl hne
      | root h => exact .root (List.mem_append_left _ h)
      | called h hp hpg => exact .called ⟨by simp [h.1, calls, hstack], h.2.append _⟩ hp hpg
    · exact hold.append_other hgf
  · simpa [calls] using hold

/-- **The mapping agrees with the events.**  After any run the stack is the one
    the events leave, and the entry of every function is the one its calls
    prescribe. -/
theorem agrees_of_record {n : Nat} {events : List Event} {info : InstrumentationInfo}
    (hrange : InRange n events) (h : record .initial events = some info) :
    info.callstack = stackAfter [] events ∧
      ∀ f, f ≠ 0 → Agrees (calls [] events) f (info.callTreeMapping f) := by
  -- the last event sees the mapping of the run before it
  induction events using List.reverseRecOn generalizing info with
  | nil =>
      obtain rfl := Option.some.inj h
      exact ⟨rfl, fun f _ => .never (by simp [calls])⟩
  | append_singleton events event ih =>
      rw [record_append, Option.bind_eq_some_iff] at h
      obtain ⟨before, hbefore, hlast⟩ := h
      have hrange' : InRange n events := fun e he => hrange e (List.mem_append_left _ he)
      obtain ⟨hstack, hagrees⟩ := ih hrange' hbefore
      obtain ⟨order, hrec⟩ := recorded_of_record hrange' hbefore
      simp only [record, Option.bind_eq_some_iff] at hlast
      obtain ⟨after, hstep, hafter⟩ := hlast
      obtain rfl := Option.some.inj hafter
      rw [calls_append, stackAfter_append, ← hstack]
      exact ⟨step_callstack hstep, hrec.agrees_step hagrees hstep⟩

end Mull.DynamicCallTree
