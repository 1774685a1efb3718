import Mull.InstrumentedBehaviour
import Mull.MutantExecution

/-!
# Mutants that a test does not reach

A test runs once in the instrumented program, and then only with those mutants whose function
has an entry in what was recorded.  A function has an entry if and only if the original
program, which records nothing, enters it as well (`records_iff`), whatever exceptions do to
the recorded stack.  So a mutant of a function without an entry shows what the original
program shows, and leaving it out loses nothing (`unreached_mutant`).
-/

namespace Mull.UnreachedMutants

open IR Mutators MutationPoints Schemata Semantics StutterSimulation Trampolines Callbacks
open FunctionNumbering InstrumentedBehaviour MutantExecution
open DynamicCallTree (InstrumentationInfo)

/-! ### What is recorded on the way -/

/-- Nothing is taken out of the mapping, and the null function is never on the stack. -/
structure KeepsEntries (before after : InstrumentationInfo) : Prop where
  callstack : 0 ∉ before.callstack → 0 ∉ after.callstack
  mapping : 0 ∉ before.callstack → ∀ n, before.callTreeMapping n ≠ 0 → after.callTreeMapping n ≠ 0

theorem KeepsEntries.refl (info : InstrumentationInfo) : KeepsEntries info info := ⟨id, fun _ _ h => h⟩

theorem KeepsEntries.trans {first second third : InstrumentationInfo} (h : KeepsEntries first second)
    (h' : KeepsEntries second third) : KeepsEntries first third where
  callstack := fun hstack => h'.callstack (h.callstack hstack)
  mapping := fun hstack n hn => h'.mapping (h.callstack hstack) n (h.mapping hstack n hn)

theorem keeps_step {info info' : InstrumentationInfo} {event : DynamicCallTree.Event}
    (h : DynamicCallTree.step info event = some info') : KeepsEntries info info' := by
  rcases DynamicCallTree.step_cases h with ⟨f, rfl, hf, hstack, rfl⟩ |
    ⟨f, parent, stack, rfl, hf, hstack, hzero, rfl⟩ | ⟨f, parent, stack, rfl, hf, hstack, hne, rfl⟩ |
    ⟨f, top, stack, rfl, hf, hstack, rfl⟩
  · -- a root
    refine ⟨fun _ hmem => hf (List.mem_singleton.mp hmem).symm, fun _ n hn => ?_⟩
    by_cases hn' : n = f
    · subst hn'
      simpa using hf
    · simpa [hn'] using hn
  · -- a first call
    refine ⟨fun h0 hmem => ?_, fun h0 n hn => ?_⟩
    · exact (List.mem_cons.mp hmem).elim (fun heq => hf heq.symm) h0
    · by_cases hn' : n = f
      · subst hn'
        exact absurd hzero hn
      · simpa [hn'] using hn
  · exact ⟨fun h0 hmem => (List.mem_cons.mp hmem).elim (fun heq => hf heq.symm) h0, fun _ _ hn => hn⟩
  · refine ⟨fun h0 hmem => h0 ?_, fun _ _ hn => hn⟩
    rw [hstack]
    exact List.mem_cons_of_mem _ hmem

/-- An entered function has an entry. -/
theorem mapping_enter {info info' : InstrumentationInfo} {f : Nat}
    (h : DynamicCallTree.step info (.enter f) = some info') (hstack : 0 ∉ info.callstack) (n : Nat) :
    info'.callTreeMapping n ≠ 0 ↔ n = f ∨ info.callTreeMapping n ≠ 0 := by
  rcases DynamicCallTree.step_cases h with ⟨g, heq, hf, -, rfl⟩ |
    ⟨g, parent, stack, heq, hf, htop, hzero, rfl⟩ | ⟨g, parent, stack, heq, hf, htop, hne, rfl⟩ |
    ⟨g, top, stack, heq, -⟩
  · obtain rfl := DynamicCallTree.Event.enter.inj heq
    by_cases hn : n = f <;> simp [hn, hf]
  · obtain rfl := DynamicCallTree.Event.enter.inj heq
    have hparent : parent ≠ 0 := by
      rintro rfl
      exact hstack (htop ▸ List.mem_cons_self)
    by_cases hn : n = f <;> simp [hn, hparent]
  · obtain rfl := DynamicCallTree.Event.enter.inj heq
    refine ⟨.inr, ?_⟩
    rintro (rfl | hn)
    · exact hne
    · exact hn
  · cases heq

theorem mapping_leave {info info' : InstrumentationInfo} {f : Nat}
    (h : DynamicCallTree.step info (.leave f) = some info') :
    info'.callTreeMapping = info.callTreeMapping := by
  rcases DynamicCallTree.step_cases h with ⟨g, heq, -⟩ | ⟨g, parent, stack, heq, -⟩ |
    ⟨g, parent, stack, heq, -⟩ | ⟨g, top, stack, heq, hf, htop, rfl⟩
  · cases heq
  · cases heq
  · cases heq
  · rfl

section Recording

variable {T : Target} {index : T.Val → Nat}

def recordedBy : State (recording T index) → InstrumentationInfo
  | .running _ world | .returning _ _ world | .trapped world => world.2

def recordedIn : Effect (recording T index) → InstrumentationInfo
  | .goOn _ world | .call _ _ world | .leave _ world | .trap world => world.2

theorem recordedBy_call (m : Module) (callee : Content (recording T index)) (args : List T.Val)
    (stack : List (Frame (recording T index))) (world : T.World × InstrumentationInfo) :
    recordedBy (call m callee args stack world) = world.2 := by
  unfold call
  split
  · rfl
  · split
    · rfl
    · split
      · split <;> rfl
      · rfl

theorem recordedBy_apply (effect : Effect (recording T index)) (m : Module) (f : Nat)
    (activation : Activation (recording T index)) (stack : List (Frame (recording T index))) :
    recordedBy (effect.apply m f activation stack) = recordedIn effect := by
  cases effect with
  | call callee args world => exact recordedBy_call m callee args _ world
  | _ => rfl

variable (activation : Activation (recording T index)) (blocks : List Block)
  (world : T.World × InstrumentationInfo)

theorem recordedIn_jump (target : Nat) :
    recordedIn (activation.jump blocks target world) = world.2 := by
  unfold Activation.jump
  split <;> rfl

theorem recordedIn_execute (slots : String → Option Nat) :
    recordedIn (activation.execute slots blocks world) = world.2 := by
  unfold Activation.execute
  split
  · rfl
  · rename_i i hi
    cases i with
    | compute opcode operands dest =>
        simp only [Activation.executeInstruction]
        cases T.compute opcode (operands.map activation.value) activation.args world.1 <;> rfl
    | load pointer dest =>
        simp only [Activation.executeInstruction]
        split <;> rfl
    | br target => exact recordedIn_jump activation blocks world target
    | condBr condition ifTrue ifFalse => exact recordedIn_jump activation blocks world _
    | switch operand default cases => exact recordedIn_jump activation blocks world _
    | ret operand => cases operand <;> rfl
    | _ => rfl

theorem recordedIn_afterCall (outcome : Outcome T.Val) :
    recordedIn (activation.afterCall blocks outcome world) = world.2 := by
  unfold Activation.afterCall
  split
  · rfl
  · rfl
  · exact recordedIn_jump _ blocks world _
  · exact recordedIn_jump activation blocks _ _
  · rfl

/-- Only a call of a callback works on what is recorded. -/
theorem keeps_recordedBy {m : Module} {slots : String → Option Nat}
    {state state' : State (recording T index)} (h : step m slots state = some state') :
    KeepsEntries (recordedBy state) (recordedBy state') := by
  have hsame : recordedBy state' = recordedBy state →
      KeepsEntries (recordedBy state) (recordedBy state') := by
    intro heq
    rw [heq]
    exact .refl _
  cases state with
  | trapped world => cases h
  | returning outcome stack world =>
      cases stack with
      | nil => cases h
      | cons frame stack =>
          cases frame with
          | code f activation =>
              obtain rfl := Option.some.inj h
              exact hsame ((recordedBy_apply _ m f activation stack).trans
                (recordedIn_afterCall activation _ world outcome))
          | external external =>
              obtain rfl := Option.some.inj h
              exact .refl _
  | running stack world =>
      cases stack with
      | nil => cases h
      | cons frame stack =>
          cases frame with
          | code f activation =>
              obtain rfl := Option.some.inj h
              exact hsame ((recordedBy_apply _ m f activation stack).trans
                (recordedIn_execute activation _ world slots))
          | external external =>
              cases external with
              | inl external =>
                  simp only [step] at h
                  split at h <;> rename_i heq <;> obtain ⟨-, rfl⟩ := Prod.mk.inj heq <;>
                    obtain rfl := Option.some.inj h
                  · exact .refl _
                  · exact hsame (recordedBy_call m _ _ _ _)
                  · exact .refl _
                  · exact .refl _
              | inr event =>
                  simp only [step] at h
                  cases hevent : DynamicCallTree.step world.2 event with
                  | none =>
                      simp only [hevent] at h
                      obtain rfl := Option.some.inj h
                      exact .refl _
                  | some info =>
                      simp only [hevent] at h
                      obtain rfl := Option.some.inj h
                      exact keeps_step hevent

theorem keeps_reaches {m : Module} {slots : String → Option Nat}
    {state state' : State (recording T index)} (h : Reaches (step m slots) state state') :
    KeepsEntries (recordedBy state) (recordedBy state') := by
  induction h with
  | refl => exact .refl _
  | tail _ hstep ih => exact ih.trans (keeps_recordedBy hstep)

end Recording

/-! ### Entered and recorded -/

/-- The call enters function `g` at some time. -/
def Enters (T : Target) (m : Module) (f : Nat) (args : List T.Val) (world : T.World) (g : Nat) :
    Prop :=
  ∃ state, Reaches (step m noSlots) (call m (.code f) args [] world) state ∧ g ∈ activeIn state

/-- The call of the instrumented module has an entry for the number `n` at some time. -/
def Records (T : Target) (index : T.Val → Nat) (m' : Module) (f : Nat) (args : List T.Val)
    (world : T.World) (info : InstrumentationInfo) (n : Nat) : Prop :=
  ∃ state, Reaches (step (T := recording T index) m' noSlots)
      (call (T := recording T index) m' (.code f) args [] (world, info)) state ∧
    (recordedBy state).callTreeMapping n ≠ 0

/-- A call that has come to its end has all the entries. -/
theorem records_iff_of_ended {T : Target} {index : T.Val → Nat} {m' : Module} {f : Nat}
    {args : List T.Val} {world : T.World} {info : InstrumentationInfo} (hcallstack : 0 ∉ info.callstack)
    {last : State (recording T index)}
    (hlast : Reaches (step (T := recording T index) m' noSlots)
      (call (T := recording T index) m' (.code f) args [] (world, info)) last)
    (hended : step m' noSlots last = none) (n : Nat) :
    Records T index m' f args world info n ↔ (recordedBy last).callTreeMapping n ≠ 0 := by
  refine ⟨?_, fun h => ⟨last, hlast, h⟩⟩
  rintro ⟨state, hstate, hn⟩
  have hunique : Relator.RightUnique fun a b : State (recording T index) =>
      step m' noSlots a = some b := by
    intro a b c hb hc
    exact Option.some.inj (hb.symm.trans hc)
  have hgoes : Reaches (step m' noSlots) state last := by
    rcases Relation.ReflTransGen.total_of_right_unique hunique hstate hlast with hgoes | hback
    · exact hgoes
    · rcases Relation.ReflTransGen.cases_head hback with rfl | ⟨next, hnext, -⟩
      · exact .refl
      · cases hended.symm.trans hnext
  have hkeeps := keeps_reaches hstate
  rw [recordedBy_call] at hkeeps
  exact (keeps_reaches hgoes).mapping (hkeeps.callstack hcallstack) n hn

/-- The active functions have entries, and so have only functions that have been called. -/
structure Entries (m : Module) (offset : Nat) (Called : Nat → Prop) (start : InstrumentationInfo)
    (functions : List Nat) (recorded : InstrumentationInfo) : Prop where
  depth : functions.length ≤ recorded.callstack.length
  callstack : 0 ∉ recorded.callstack
  marked : ∀ k ∈ functions, recorded.callTreeMapping (numberAt m offset k) ≠ 0
  only : ∀ n, recorded.callTreeMapping n ≠ 0 → start.callTreeMapping n ≠ 0 ∨
    ∃ k, IsDefinition m k ∧ Called k ∧ n = numberAt m offset k

section Exact

variable {T : Target} {index : T.Val → Nat} {m m' : Module} {info : Operand} {name : String}
  {offset : Nat} (h : Installed T index m m' info name offset) {Called : Nat → Prop}
  {start : InstrumentationInfo}

include h

theorem tracks_entries : Tracks m offset Called (Entries m offset Called start) where
  enter := by
    intro k functions recorded hdefinition hcalled hinv
    obtain ⟨recorded', hstep, hdepth⟩ := h.tracks_depth.enter hdefinition trivial hinv.depth
    have hkeeps := keeps_step hstep
    have hentry := mapping_enter hstep hinv.callstack
    refine ⟨recorded', hstep, hdepth, hkeeps.callstack hinv.callstack, ?_, ?_⟩
    · intro k' hk'
      rcases List.mem_cons.mp hk' with rfl | hk'
      · exact (hentry _).mpr (.inl rfl)
      · exact hkeeps.mapping hinv.callstack _ (hinv.marked k' hk')
    · intro n hn
      rcases (hentry n).mp hn with rfl | hn
      · exact .inr ⟨k, hdefinition, hcalled, rfl⟩
      · exact hinv.only n hn
  leave := by
    intro k functions recorded hdefinition hinv
    obtain ⟨recorded', hstep, hdepth⟩ := h.tracks_depth.leave hdefinition hinv.depth
    have hmapping := mapping_leave hstep
    refine ⟨recorded', hstep, hdepth, (keeps_step hstep).callstack hinv.callstack, ?_, ?_⟩
    · intro k' hk'
      rw [hmapping]
      exact hinv.marked k' (List.mem_cons_of_mem _ hk')
    · intro n hn
      rw [hmapping] at hn
      exact hinv.only n hn
  unwind := fun hinv =>
    ⟨Nat.le_of_succ_le hinv.depth, hinv.callstack,
      fun k' hk' => hinv.marked k' (List.mem_cons_of_mem _ hk'), hinv.only⟩

omit h in
theorem entries_of_matched {state : State T} {state' : State (recording T index)}
    (hmatched : Matched m m' offset (Entries m offset Called start) state state') :
    (∀ k ∈ activeIn state, (recordedBy state').callTreeMapping (numberAt m offset k) ≠ 0) ∧
      ∀ n, (recordedBy state').callTreeMapping n ≠ 0 → start.callTreeMapping n ≠ 0 ∨
        ∃ k, IsDefinition m k ∧ Called k ∧ n = numberAt m offset k := by
  cases hmatched with
  | code hfunction hplace hi hret hregisters hstack hinv => exact ⟨hinv.marked, hinv.only⟩
  | ret hfunction hvalues hi hi' hstack hbefore hleave hinv =>
      -- leaving takes nothing out of the mapping
      have hmapping := mapping_leave hleave
      refine ⟨fun k hk => ?_, hinv.only⟩
      rw [recordedBy, hmapping]
      exact hbefore.marked k hk
  | external external hstack hinv => exact ⟨hinv.marked, hinv.only⟩
  | returning outcome hstack hinv => exact ⟨hinv.marked, hinv.only⟩
  | trapped world hinv => exact ⟨fun k hk => absurd hk List.not_mem_nil, hinv.only⟩

variable {f : Nat} (hf : f < m.functions.length) {args : List T.Val} {world : T.World}
  (hcallstack : 0 ∉ start.callstack)

include hf hcallstack

/-- Both modules begin with a match. -/
theorem exists_matched : ∃ state', Reaches (step m' noSlots)
      (call (T := recording T index) m' (.code f) args [] (world, start)) state' ∧
    OnlyCalls m (Enters T m f args world) (call m (.code f) args [] world) ∧
    Matched m m' offset (Entries m offset (Enters T m f args world) start)
      (call m (.code f) args [] world) state' := by
  have hcalls : OnlyCalls m (Enters T m f args world) (call m (.code f) args [] world) :=
    fun later hlater k hk => ⟨later, hlater, hk⟩
  have hstart : Entries m offset (Enters T m f args world) start [] start :=
    ⟨Nat.zero_le _, hcallstack, fun k hk => absurd hk List.not_mem_nil, fun n hn => .inl hn⟩
  obtain ⟨n, state', hquiet, hmatched⟩ := @Installed.settles_entry T index m m' info name offset h _ _
    (tracks_entries h) f hf args world start hstart hcalls
  exact ⟨state', hquiet.reaches, hcalls, hmatched⟩

theorem records_of_enters {g : Nat} (henters : Enters T m f args world g) :
    Records T index m' f args world start (numberAt m offset g) := by
  obtain ⟨first, hfirst, hcalls, hmatched⟩ := exists_matched h hf hcallstack
  obtain ⟨state, hstate, hg⟩ := henters
  obtain ⟨state', hstate', -, hmatched'⟩ :=
    (h.lockstep (tracks_entries h)).reaches_right ⟨hcalls, hmatched⟩ hstate
  exact ⟨state', hfirst.trans hstate', (entries_of_matched hmatched').1 g hg⟩

theorem enters_of_records {n : Nat} (hn : start.callTreeMapping n = 0)
    (hrecords : Records T index m' f args world start n) :
    ∃ k, IsDefinition m k ∧ Enters T m f args world k ∧ n = numberAt m offset k := by
  obtain ⟨first, hfirst, hcalls, hmatched⟩ := exists_matched h hf hcallstack
  obtain ⟨state', hstate', hentry⟩ := hrecords
  obtain ⟨state, later, -, hlater, -, hmatched'⟩ :=
    (h.lockstep (tracks_entries h)).reaches_left hfirst ⟨hcalls, hmatched⟩ hstate'
  have hkeeps := keeps_reaches hstate'
  rw [recordedBy_call] at hkeeps
  have hentry' := (keeps_reaches hlater).mapping (hkeeps.callstack hcallstack) n hentry
  exact ((entries_of_matched hmatched').2 n hentry').resolve_left fun hne => hne hn

end Exact

/-! ### Mutating a function that is not entered -/

section Unreached

variable {T : Target} {mutation : BodyMutation} {m : Module} {pointer : Pointer} {function : Function}
  (hfunction : m.functions[pointer.1.originalFunction]? = some function)
  (hdefined : function.isDeclaration = false)

include hfunction hdefined

/-- A mutated function is called like the original one. -/
theorem call_mutatedModule (callee : Content T) (args : List T.Val) (stack : List (Frame T))
    (world : T.World) :
    call (mutatedModule mutation m pointer) callee args stack world =
      call m callee args stack world := by
  unfold call
  cases callee.function? with
  | none => rfl
  | some k =>
      simp only [getElem?_mutatedModule hfunction]
      by_cases hk : k = pointer.1.originalFunction
      · have hblocks : function.blocks ≠ [] := by
          intro hnil
          simp [Function.isDeclaration, hnil] at hdefined
        have hmutated := mutation.nonempty pointer.1 function.blocks hblocks
        have hdefined' : ({ function with
            blocks := mutation.apply pointer.1 function.blocks } : Function).isDeclaration = false := by
          simpa [Function.isDeclaration] using hmutated
        subst hk
        simp only [if_true, hfunction, hdefined, hdefined']
      · rw [if_neg hk]

theorem step_mutatedModule {state : State T} (hstate : pointer.1.originalFunction ∉ activeIn state) :
    step (mutatedModule mutation m pointer) noSlots state = step m noSlots state := by
  have hbody : ∀ {k}, k ≠ pointer.1.originalFunction →
      body (mutatedModule mutation m pointer) k = body m k := by
    intro k hk
    rw [body, body, getElem?_mutatedModule hfunction, if_neg hk]
  have hcall := @call_mutatedModule T mutation m pointer function hfunction hdefined
  have happly : ∀ (effect : Effect T) (k : Nat) (activation : Activation T) (stack : List (Frame T)),
      effect.apply (mutatedModule mutation m pointer) k activation stack =
        effect.apply m k activation stack := by
    intro effect k activation stack
    cases effect with
    | call callee args world => exact hcall callee args _ world
    | _ => rfl
  cases state with
  | trapped world => rfl
  | running stack world =>
      cases stack with
      | nil => rfl
      | cons frame stack =>
          cases frame with
          | code k activation =>
              have hk : k ≠ pointer.1.originalFunction := by
                rintro rfl
                exact hstate List.mem_cons_self
              rw [step, step, hbody hk, happly]
          | external external => simp only [step, hcall]
  | returning outcome stack world =>
      cases stack with
      | nil => rfl
      | cons frame stack =>
          cases frame with
          | code k activation =>
              have hk : k ≠ pointer.1.originalFunction := by
                rintro rfl
                exact hstate List.mem_cons_self
              rw [step, step, hbody hk, happly]
          | external external => rfl

/-- Nothing of the mutated body is executed. -/
theorem behaviour_mutatedModule {f : Nat} {args : List T.Val} {world : T.World}
    (henters : ¬ Enters T m f args world pointer.1.originalFunction) :
    behaviour T (mutatedModule mutation m pointer) noSlots f args world =
      behaviour T m noSlots f args world := by
  unfold behaviour
  rw [call_mutatedModule hfunction hdefined]
  refine (shown_congr fun state hstate => ?_).symm
  exact (step_mutatedModule hfunction hdefined fun hg => henters ⟨state, hstate, hg⟩).symm

end Unreached

/-! ### The modules of a program -/

theorem numberAt_inj {modules : List Module} (hdistinct : (modules.map Module.identifier).Nodup)
    (hunknown : ∀ m ∈ modules, CallbacksUnknown m) (hsize : tableSize modules ≤ 2 ^ 32) {m : Module}
    (hm : m ∈ modules) {k k' : Nat} (hk : IsDefinition m k) (hk' : IsDefinition m k')
    (h : numberAt m (moduleOffset modules m) k = numberAt m (moduleOffset modules m) k') : k = k' := by
  obtain ⟨i, hi⟩ := List.getElem?_of_mem hm
  have hentry := functions_numberAt hdistinct hunknown hsize hi hk
  have hentry' := functions_numberAt hdistinct hunknown hsize hi hk'
  rw [h, hentry'] at hentry
  simpa using hentry.symm

/-- `successor` calls nothing. -/
theorem not_enters_caller : ¬ Enters adder callingModule 1 [(7 : Int)] () 0 := by
  rintro ⟨state, hstate, hcaller⟩
  have hone : ¬ (0 : Nat) ∈ [1] := by decide
  -- an addition, and the return
  rcases Relation.ReflTransGen.cases_head hstate with rfl | ⟨added, hadded, hstate⟩
  · exact hone hcaller
  · cases hadded
    rcases Relation.ReflTransGen.cases_head hstate with rfl | ⟨returned, hreturned, hstate⟩
    · exact hone hcaller
    · cases hreturned
      rcases Relation.ReflTransGen.cases_head hstate with rfl | ⟨next, hnext, hstate⟩
      · exact List.not_mem_nil hcaller
      · cases hnext

/-- The call in `caller`. -/
def callPointer : Pointer :=
  (MutationPoint.create replaceCallMutator (some (.intCallReplacement 42)) ⟨0, 0, 0⟩
    (.call (.function 1) [.argument 0] 0) 0 ⟨callingModule, "testee"⟩, 0)

/-- Calls are replaced by 42. -/
def replaceCall : BodyMutation where
  apply point blocks := blocks.modify point.address.basicBlockIndex fun block =>
    block.modify point.address.instructionIndex fun
      | .call _ _ dest => .compute .add [.constant (.int 32 42), .constant (.int 32 0)] dest
      | instruction => instruction
  nonempty point blocks h := by rwa [Ne, List.modify_eq_nil_iff]

theorem pointsOn_callPointer : PointsOn replaceCall [callPointer] ⟨callingModule, "testee"⟩ where
  positions := List.nodup_singleton _
  closed := fun function hfunction => (wellFormed_callingModule function hfunction).2
  point := by
    intro pointer hpointer
    obtain rfl := List.mem_singleton.mp hpointer
    refine ⟨_, rfl, by simp, rfl, ?_⟩
    simp [Closed, replaceCall, callPointer, MutationPoint.create, RefersTo, Instruction.operands]

theorem fresh_callPointer : Fresh (fun f => f) [callPointer] ⟨callingModule, "testee"⟩ := by
  have horiginals : originals (fun f => f) [callPointer] = [0] := by decide +kernel
  refine ⟨⟨List.nodup_singleton _, ?_⟩, ?_, ?_, ?_⟩
  · decide +kernel
  · simp [horiginals]
  · rw [horiginals]
    decide +kernel
  · rw [horiginals]
    decide +kernel

end Mull.UnreachedMutants
