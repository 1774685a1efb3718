import Mull.FunctionNumbering
import Mull.Trampolines

/-!
# Running an instrumented module

The tests are run in a program whose functions have been changed by `insertCallbacks`.  What
they show must be what the program under test shows.  The machine that runs the instrumented
module is the one of the program with the data of the callbacks beside its memory: a call of
`mull_enterFunction` or `mull_leaveFunction` works on that data and returns, or traps where one
of their assertions fails.

An instrumented module behaves like the original (`behaviour_insertCallbacks`), also where
exceptions leave functions: a call of a callback is made of steps that show nothing, and the
recorded stack has an entry for every function that will still be left by a return.
-/

namespace Mull.InstrumentedBehaviour

open IR Callbacks FunctionNumbering Semantics Trampolines StutterSimulation
open DynamicCallTree (InstrumentationInfo)

/-! ### The machine with the callbacks -/

/-- What code outside of the module does next, in the machine with the callbacks. -/
def liftAction {Val External : Type} :
    ExternalAction Val External → ExternalAction Val (External ⊕ DynamicCallTree.Event)
  | .goOn external => .goOn (.inl external)
  | .call callee args external => .call callee args (.inl external)
  | .leave outcome => .leave outcome
  | .trap => .trap

/-- What a call of a function with this name records. -/
def callbackEvent (name : String) (functionIndex : Nat) : Option DynamicCallTree.Event :=
  if name = enterFunctionName then some (.enter functionIndex)
  else if name = leaveFunctionName then some (.leave functionIndex)
  else none

/-- The machine that runs instrumented code.  `index` reads a `uint32_t`. -/
abbrev recording (T : Target) (index : T.Val → Nat) : Target where
  Val := T.Val
  World := T.World × InstrumentationInfo
  External := T.External ⊕ DynamicCallTree.Event
  constant := T.constant
  functionAddress := T.functionAddress
  globalAddress := T.globalAddress
  noValue := T.noValue
  compute opcode operands args world :=
    (T.compute opcode operands args world.1).map fun (value, world') => (value, world', world.2)
  load address world := T.load address world.1
  isTrue := T.isTrue
  isCase := T.isCase
  asFunction := T.asFunction
  catchException exception world := (T.catchException exception world.1, world.2)
  enter name args :=
    match callbackEvent name (index (args.getD 1 T.noValue)) with
    | some event => .inr event
    | none => .inl (T.enter name args)
  enterAddress address args := .inl (T.enterAddress address args)
  externalStep external world :=
    match external with
    | .inl external =>
        let (action, world') := T.externalStep external world.1
        (liftAction action, world', world.2)
    | .inr event =>
        match DynamicCallTree.step world.2 event with
        | none => (.trap, world)
        | some info => (.leave (.returned T.noValue), world.1, info)
  resume external outcome :=
    match external with
    | .inl external => .inl (T.resume external outcome)
    | .inr event => .inr event

/-- What can be observed of the program under test. -/
def ofProgram {T : Target} {index : T.Val → Nat} :
    Observation (recording T index) → Observation T
  | .running world => .running world.1
  | .finished outcome world => .finished outcome world.1
  | .trapped world => .trapped world.1

/-- What a call of function `f` of an instrumented module shows of the program. -/
def instrumentedBehaviour (T : Target) (index : T.Val → Nat) (m : Module) (f : Nat)
    (args : List T.Val) (world : T.World) (info : InstrumentationInfo) :
    Set (List (Observation T)) :=
  shown (step (T := recording T index) m noSlots) (fun state => ofProgram (observe state))
    (call (T := recording T index) m (.code f) args [] (world, info))

/-! ### Where the original code is -/

/-- The number of instructions before those of the original block. -/
def shift (b : Nat) : Nat := if b = 0 then 3 else 0

section Layout

variable {function : Function} {index enterFunction leaveFunction : Nat} {info offset : Operand}
  {b : Nat} {block : Block}

/-- A block of an instrumented function. -/
def instrumentedBlock (function : Function) (index : Nat) (info offset : Operand)
    (enterFunction leaveFunction b : Nat) (block : Block) : Block :=
  (if b = 0 then callbackCode enterFunction index info offset (freshRegister function) else []) ++
    insertBeforeReturn (callbackCode leaveFunction index info offset
      (freshRegister function + 3 * (b + 1))) block

theorem getElem?_injectCallbacks :
    (injectCallbacks function index info offset enterFunction leaveFunction).blocks[b]? =
      function.blocks[b]?.map
        (instrumentedBlock function index info offset enterFunction leaveFunction b) := by
  simp only [injectCallbacks, List.getElem?_mapIdx]
  rfl

/-- The instructions before a return keep their order. -/
theorem getElem?_instrumentedBlock (hblock : WellFormedBlock block) {p : Nat} {i : Instruction}
    (hi : block[p]? = some i) (hret : i.isReturn = false) :
    (instrumentedBlock function index info offset enterFunction leaveFunction b block)[p + shift b]? =
      some i := by
  have hprologue : (if b = 0 then callbackCode enterFunction index info offset
      (freshRegister function) else []).length = shift b := by
    unfold shift
    split <;> rfl
  rw [instrumentedBlock, List.getElem?_append_right (by omega), hprologue, Nat.add_sub_cancel]
  rcases insertBeforeReturn_cases hblock (callbackCode leaveFunction index info offset
      (freshRegister function + 3 * (b + 1))) with ⟨heq, -⟩ | ⟨body, v, rfl, -, heq⟩
  · rw [heq, hi]
  · rw [heq, List.append_assoc]
    rcases getElem?_append_cases hi with hbody | ⟨-, hlast⟩
    · rw [List.getElem?_append_left (List.getElem?_eq_some_iff.mp hbody).1, hbody]
    · have hmem := List.mem_singleton.mp (List.mem_of_getElem? hlast)
      rw [hmem] at hret
      cases hret

/-- A return is preceded by the call of `mull_leaveFunction`. -/
theorem getElem?_instrumentedBlock_return (hblock : WellFormedBlock block) {p : Nat}
    {v : Option Operand} (hi : block[p]? = some (.ret v)) {k : Nat} (hk : k ≤ 3) :
    (instrumentedBlock function index info offset enterFunction leaveFunction b
        block)[p + shift b + k]? =
      (callbackCode leaveFunction index info offset (freshRegister function + 3 * (b + 1)) ++
        [.ret v])[k]? := by
  have hprologue : (if b = 0 then callbackCode enterFunction index info offset
      (freshRegister function) else []).length = shift b := by
    unfold shift
    split <;> rfl
  rw [instrumentedBlock, List.getElem?_append_right (by omega), hprologue]
  rcases insertBeforeReturn_cases hblock (callbackCode leaveFunction index info offset
      (freshRegister function + 3 * (b + 1))) with ⟨-, hnone⟩ | ⟨body, v', rfl, hplain, heq⟩
  · have hret := hnone _ (List.mem_of_getElem? hi)
    cases hret
  · rw [heq]
    rcases getElem?_append_cases hi with hbody | ⟨hle, hlast⟩
    · have hret := hplain _ (List.mem_of_getElem? hbody)
      cases hret
    · have hp : p = body.length := by
        have hlt := (List.getElem?_eq_some_iff.mp hlast).1
        rw [List.length_singleton] at hlt
        omega
      have hv := List.mem_singleton.mp (List.mem_of_getElem? hlast)
      rw [hv, List.append_assoc, List.getElem?_append_right (by omega)]
      congr 1
      omega

/-- The call of `mull_enterFunction` comes first. -/
theorem getElem?_prologue {k : Nat} (hk : k < 3) :
    (instrumentedBlock function index info offset enterFunction leaveFunction 0 block)[k]? =
      (callbackCode enterFunction index info offset (freshRegister function))[k]? := by
  rw [instrumentedBlock, if_pos rfl, List.getElem?_append_left hk]

end Layout

/-! ### Where the functions are -/

def callbackDeclarations : List Function :=
  [⟨enterFunctionName, callbackType, []⟩, ⟨leaveFunctionName, callbackType, []⟩]

section Modules

variable {m : Module} {info offset : Operand}

/-- What becomes of function `k`. -/
def instrument (m : Module) (info offset : Operand) (k : Nat) (function : Function) : Function :=
  if function.isDeclaration then function
  else
    injectCallbacks function ((definitionsBelow m k).length % 2 ^ 32) info offset
      m.functions.length (m.functions.length + 1)

theorem name_instrument (k : Nat) (function : Function) :
    (instrument m info offset k function).name = function.name := by
  unfold instrument
  split <;> rfl

/-- The loop of `insertCallbacks` before function `j`.  The first definition has added the
    declarations of the callbacks. -/
structure Located (m : Module) (info offset : Operand) (j : Nat) (state : Module × Nat)
    (first : List Function) : Prop where
  index : state.2 = (definitionsBelow m j).length % 2 ^ 32
  functions : state.1.functions =
    first ++ if definitionsBelow m j = [] then [] else callbackDeclarations
  length : first.length = m.functions.length
  names : first.map Function.name = m.functions.map Function.name
  get : ∀ k, first[k]? =
    m.functions[k]?.map fun function => if k < j then instrument m info offset k function else function

/-- The callbacks are known to the module under their names only if the tool has declared them. -/
def CallbacksUnknown (m : Module) : Prop :=
  enterFunctionName ∉ functionNames m ∧ leaveFunctionName ∉ functionNames m

theorem findIdx?_append_of_not_mem {first rest : List Function} {name : String}
    (h : name ∉ first.map Function.name) :
    (first ++ rest).findIdx? (fun function => function.name = name) =
      (rest.findIdx? fun function => function.name = name).map (· + first.length) := by
  have hnone : first.findIdx? (fun function => function.name = name) = none := by
    rw [List.findIdx?_eq_none_iff]
    intro function hfunction
    have hne : function.name ≠ name := by
      rintro rfl
      exact h (List.mem_map_of_mem hfunction)
    simpa using hne
  rw [List.findIdx?_append, hnone, Option.none_or]

variable {j : Nat} {state : Module × Nat} {first : List Function}

/-- The callbacks are the two functions behind those of the module. -/
theorem Located.declareCallbacks (h : Located m info offset j state first)
    (hunknown : CallbacksUnknown m) :
    ∃ m', declareCallbacks state.1 = some (m', m.functions.length, m.functions.length + 1) ∧
      m'.functions = first ++ callbackDeclarations := by
  have henter : enterFunctionName ∉ first.map Function.name := h.names ▸ hunknown.1
  have hleave : leaveFunctionName ∉ first.map Function.name := h.names ▸ hunknown.2
  by_cases hnil : definitionsBelow m j = []
  · -- neither is there yet
    have hfunctions : state.1.functions = first ++ [] := by simpa [hnil] using h.functions
    have hfind : ∀ name ∉ first.map Function.name, state.1.getFunction name = none := by
      intro name hname
      rw [Module.getFunction, hfunctions, findIdx?_append_of_not_mem hname]
      rfl
    refine ⟨{ state.1 with functions := first ++ callbackDeclarations }, ?_, rfl⟩
    simp [FunctionNumbering.declareCallbacks, hfind _ henter, hfind _ hleave, hfunctions, h.length,
      callbackDeclarations]
  · have hfunctions : state.1.functions = first ++ callbackDeclarations := by
      simpa [hnil] using h.functions
    have hfindEnter : state.1.getFunction enterFunctionName = some m.functions.length := by
      rw [Module.getFunction, hfunctions, findIdx?_append_of_not_mem henter, h.length]
      simp [callbackDeclarations, List.findIdx?_cons]
    have hfindLeave : state.1.getFunction leaveFunctionName = some (m.functions.length + 1) := by
      have hne : enterFunctionName ≠ leaveFunctionName := by decide
      rw [Module.getFunction, hfunctions, findIdx?_append_of_not_mem hleave, h.length]
      simp [callbackDeclarations, List.findIdx?_cons, hne, Nat.add_comm]
    refine ⟨state.1, ?_, hfunctions⟩
    simp [FunctionNumbering.declareCallbacks, hfindEnter, hfindLeave]

theorem Located.next (h : Located m info offset j state first) (hunknown : CallbacksUnknown m)
    (hj : j < m.functions.length) :
    ∃ state' first', insertCallback info offset state j = some state' ∧
      Located m info offset (j + 1) state' first' := by
  classical
  have hget := List.getElem?_eq_getElem hj
  have hfirst : first[j]? = some m.functions[j] := by simp [h.get, hget]
  have hlt : j < first.length := h.length ▸ hj
  have hstate : state.1.functions[j]? = some m.functions[j] := by
    rw [h.functions, List.getElem?_append_left hlt, hfirst]
  cases hdecl : m.functions[j].isDeclaration with
  | true =>
      have hsame : definitionsBelow m (j + 1) = definitionsBelow m j := by
        rw [definitionsBelow_succ, if_neg, List.append_nil]
        rw [isDefinition_of_getElem? hget, hdecl]
        simp
      refine ⟨state, first, by simp only [insertCallback, hstate, hdecl, if_true], ?_⟩
      refine ⟨by rw [hsame, h.index], by rw [hsame, h.functions], h.length, h.names, ?_⟩
      intro k
      rw [h.get]
      by_cases hk : k = j
      · subst hk
        simp [hget, instrument, hdecl]
      · have hiff : k < j + 1 ↔ k < j := by omega
        simp only [hiff]
  | false =>
      obtain ⟨m', hdeclare, hfunctions⟩ := h.declareCallbacks hunknown
      have hnew : definitionsBelow m (j + 1) = definitionsBelow m j ++ [j] := by
        rw [definitionsBelow_succ, if_pos ⟨_, hget, hdecl⟩]
      have hinstrument : instrument m info offset j m.functions[j] =
          injectCallbacks m.functions[j] state.2 info offset m.functions.length
            (m.functions.length + 1) := by
        simp [instrument, hdecl, h.index]
      refine ⟨(m'.setFunction j (instrument m info offset j m.functions[j]), (state.2 + 1) % 2 ^ 32),
        first.set j (instrument m info offset j m.functions[j]), ?_, ?_, ?_, ?_, ?_, ?_⟩
      · rw [hinstrument]
        simp only [insertCallback, hstate, hdecl, hdeclare, Bool.false_eq_true, if_false,
          Option.map_some]
      · simp [hnew, h.index]
      · simp [hnew, Module.setFunction, hfunctions, List.set_append_left _ _ hlt]
      · rw [List.length_set, h.length]
      · rw [List.map_set, name_instrument, ← h.names]
        have hname : (first.map Function.name)[j]? = some m.functions[j].name := by simp [hfirst]
        obtain ⟨hbound, heq⟩ := List.getElem?_eq_some_iff.mp hname
        rw [← heq, List.set_getElem_self]
      · intro k
        by_cases hk : k = j
        · subst hk
          rw [List.getElem?_set_self hlt]
          simp [hget]
        · have hiff : k < j + 1 ↔ k < j := by omega
          rw [List.getElem?_set_ne (Ne.symm hk), h.get]
          simp only [hiff]

theorem Located.loop (hunknown : CallbacksUnknown m) {j : Nat} (hj : j ≤ m.functions.length) :
    ∃ state first, (List.range j).foldlM (insertCallback info offset) (m, 0) = some state ∧
      Located m info offset j state first := by
  induction j with
  | zero =>
      refine ⟨(m, 0), m.functions, rfl, rfl, ?_, rfl, rfl, ?_⟩
      · simp [definitionsBelow]
      · simp
  | succ j ih =>
      obtain ⟨state, first, hfold, hlocated⟩ := ih (by omega)
      obtain ⟨state', first', hstep, hlocated'⟩ := hlocated.next hunknown hj
      refine ⟨state', first', ?_, hlocated'⟩
      rw [List.range_succ, List.foldlM_append, hfold]
      simpa using hstep

/-- The definitions of `m` are instrumented in `m'`, which knows the callbacks if there are any. -/
structure Instrumented (m m' : Module) (info offset : Operand) : Prop where
  functions : ∀ k function, m.functions[k]? = some function →
    m'.functions[k]? = some (instrument m info offset k function)
  callbacks : ∀ k, IsDefinition m k →
    m'.functions[m.functions.length]? = some ⟨enterFunctionName, callbackType, []⟩ ∧
      m'.functions[m.functions.length + 1]? = some ⟨leaveFunctionName, callbackType, []⟩

theorem instrumented_insertCallbacks {m' : Module} (hunknown : CallbacksUnknown m)
    (hreserved : functionIndexOffsetPrefix ++ m.identifier ∉ m.names)
    (h : insertCallbacks m = some m') :
    ∃ info, Instrumented m m' info (.global (functionIndexOffsetPrefix ++ m.identifier)) := by
  obtain ⟨m₁, hm₁⟩ : ∃ m₁, (m.getOrInsertGlobal instrumentationInfoVariableName).1 = m₁ := ⟨_, rfl⟩
  obtain ⟨hfunctions₁, hidentifier₁⟩ := Module.getOrInsertGlobal_functions m instrumentationInfoVariableName
  have hnot := offset_not_mem hreserved
  rw [hm₁] at hfunctions₁ hidentifier₁ hnot
  obtain ⟨hfunctions₂, -⟩ :=
    Module.getOrInsertGlobal_functions m₁ (functionIndexOffsetPrefix ++ m.identifier)
  rw [hfunctions₁] at hfunctions₂
  have hoffset := Module.getOrInsertGlobal_of_not_mem hnot
  obtain ⟨m₂, hm₂⟩ :
    ∃ m₂, (m₁.getOrInsertGlobal (functionIndexOffsetPrefix ++ m.identifier)).1 = m₂ := ⟨_, rfl⟩
  rw [hm₂] at hfunctions₂
  have hunknown₂ : CallbacksUnknown m₂ := by
    unfold CallbacksUnknown functionNames at hunknown ⊢
    rwa [hfunctions₂]
  obtain ⟨state, first, hfold, hlocated⟩ := @Located.loop m₂
    (.global (m.getOrInsertGlobal instrumentationInfoVariableName).2)
    (.global (functionIndexOffsetPrefix ++ m.identifier)) hunknown₂ _ (Nat.le_refl _)
  simp only [insertCallbacks, hm₁, hidentifier₁, hm₂, hoffset, hfold, Option.map_some,
    Option.some.injEq] at h
  subst h
  have hlength : first.length = m.functions.length := by rw [hlocated.length, hfunctions₂]
  refine ⟨.global (m.getOrInsertGlobal instrumentationInfoVariableName).2, ?_, ?_⟩
  · intro k function hget
    have hk := (List.getElem?_eq_some_iff.mp hget).1
    rw [hlocated.functions, List.getElem?_append_left (by omega), hlocated.get, hfunctions₂, hget,
      Option.map_some, if_pos hk]
    simp only [instrument, definitionsBelow, hfunctions₂]
  · rintro k ⟨function, hget, hbody⟩
    have hsome : k ∈ definitionsBelow m₂ m₂.functions.length :=
      mem_definitions_iff.mpr ⟨function, hfunctions₂ ▸ hget, hbody⟩
    rw [hlocated.functions, if_neg (List.ne_nil_of_mem hsome), ← hlength]
    constructor
    · rw [List.getElem?_append_right (Nat.le_refl _), Nat.sub_self]
      rfl
    · rw [List.getElem?_append_right (Nat.le_succ _), Nat.succ_sub (Nat.le_refl _), Nat.sub_self]
      rfl

end Modules

/-! ### The same instruction in both functions -/

/-- Blocks as LLVM's verifier wants them: the entry block is no target, and every register that
    is read is written somewhere. -/
structure WellFormedFunction (function : Function) : Prop where
  blocks : ∀ block ∈ function.blocks, WellFormedBlock block
  entry : ∀ block ∈ function.blocks, ∀ i ∈ block, 0 ∉ i.targets
  written : ∀ block ∈ function.blocks, ∀ i ∈ block, ∀ r, Operand.register r ∈ i.operands →
    ∃ block' ∈ function.blocks, ∃ i' ∈ block', i'.dest? = some r

section Instructions

variable {T : Target} {index : T.Val → Nat} {function : Function} {activation : Activation T}
  {activation' : Activation (recording T index)}

def liftContent (content : Content T) : Content (recording T index) :=
  match content with
  | .value v => .value v
  | .code f => .code f

theorem toVal_liftContent (content : Content T) :
    (liftContent content : Content (recording T index)).toVal = content.toVal := by
  cases content <;> rfl

theorem function?_liftContent (content : Content T) :
    (liftContent content : Content (recording T index)).function? = content.function? := by
  cases content <;> rfl

theorem lt_freshRegister {block : Block} (hblock : block ∈ function.blocks) {i : Instruction}
    (hi : i ∈ block) {r : Nat} (hr : i.dest? = some r) : r < freshRegister function := by
  have hmem : r ∈ function.blocks.flatten.filterMap Instruction.dest? :=
    List.mem_filterMap.mpr ⟨i, List.mem_flatten.mpr ⟨block, hblock, hi⟩, hr⟩
  have hle : ∀ values : List Nat, r ∈ values → r ≤ values.foldr max 0 := by
    intro values
    induction values with
    | nil => exact fun h => absurd h List.not_mem_nil
    | cons value values ih =>
        intro h
        rw [List.foldr_cons]
        rcases List.mem_cons.mp h with rfl | h
        · exact Nat.le_max_left _ _
        · exact Nat.le_trans (ih h) (Nat.le_max_right _ _)
  exact Nat.lt_succ_of_le (hle _ hmem)

/-- The registers of the original code are the same. -/
structure SameValues (function : Function) (activation : Activation T)
    (activation' : Activation (recording T index)) : Prop where
  args : activation'.args = activation.args
  registers : ∀ r < freshRegister function,
    activation'.registers r = liftContent (activation.registers r)

namespace SameValues

variable (h : SameValues function activation activation')

include h

theorem eval {operand : Operand} (hoperand : ∀ r, operand = .register r → r < freshRegister function) :
    activation'.eval operand = liftContent (activation.eval operand) := by
  cases operand with
  | argument k =>
      simp only [Activation.eval, h.args]
      rfl
  | register r => exact h.registers r (hoperand r rfl)
  | _ => rfl

theorem value {operand : Operand}
    (hoperand : ∀ r, operand = .register r → r < freshRegister function) :
    activation'.value operand = activation.value operand := by
  rw [Activation.value, h.eval hoperand]
  exact toVal_liftContent _

theorem map_value {operands : List Operand}
    (hoperands : ∀ r, Operand.register r ∈ operands → r < freshRegister function) :
    operands.map activation'.value = operands.map activation.value := by
  apply List.map_congr_left
  intro operand hmem
  exact h.value fun r heq => hoperands r (heq ▸ hmem)

theorem write (dest : Nat) (content : Content T) :
    SameValues function (activation.write dest content)
      (activation'.write dest (liftContent content)) where
  args := h.args
  registers := by
    intro r hr
    by_cases hdest : r = dest
    · subst hdest
      simp [Activation.write]
    · simpa [Activation.write, Function.update_of_ne hdest] using h.registers r hr

/-- The code of the callbacks has registers of its own. -/
theorem write_fresh {r : Nat} (hr : freshRegister function ≤ r)
    (content : Content (recording T index)) :
    SameValues function activation (activation'.write r content) where
  args := h.args
  registers := by
    intro r' hr'
    have hne : r' ≠ r := by omega
    simpa [Activation.write, Function.update_of_ne hne] using h.registers r' hr'

theorem foldl_write (values : List (Nat × Content T)) :
    SameValues function
      (values.foldl (fun activation value => activation.write value.1 value.2) activation)
      ((values.map fun value => (value.1, liftContent value.2)).foldl
        (fun activation value => activation.write value.1 value.2) activation') := by
  induction values generalizing activation activation' with
  | nil => exact h
  | cons value values ih => exact ih (h.write value.1 value.2)

end SameValues

/-! A PHI node is no terminator, so that what comes before a return does not change their values. -/

theorem phiValues_append (h : SameValues function activation activation') (source : Nat)
    {body code : List Instruction} {terminator : Instruction}
    (hterminator : terminator.isTerminator = true)
    (hcode : ∀ i ∈ code.head?, ∀ incoming dest, i ≠ .phi incoming dest)
    (hbody : ∀ i ∈ body, ∀ r, Operand.register r ∈ i.operands → r < freshRegister function) :
    activation'.phiValues source (body ++ code ++ [terminator]) =
      (activation.phiValues source (body ++ [terminator])).map
        (List.map fun value => (value.1, liftContent value.2)) := by
  induction body with
  | nil =>
      have hnone : activation.phiValues source [terminator] = some [] := by
        cases terminator <;> first | rfl | cases hterminator
      rw [List.nil_append, List.nil_append, hnone]
      cases code with
      | nil => cases terminator <;> first | rfl | cases hterminator
      | cons i code =>
          have hphi := hcode i rfl
          cases i with
          | phi incoming dest => exact absurd rfl (hphi incoming dest)
          | _ => rfl
  | cons i body ih =>
      obtain ⟨hi, hrest⟩ := List.forall_mem_cons.mp hbody
      cases i with
      | phi incoming dest =>
          simp only [List.cons_append, Activation.phiValues, ih hrest]
          cases hfind : incoming.find? fun entry => entry.2 = source with
          | none => rfl
          | some entry =>
              have heval : activation'.eval entry.1 = liftContent (activation.eval entry.1) := by
                apply h.eval
                intro r heq
                exact hi r (heq ▸ List.mem_map_of_mem (List.mem_of_find?_eq_some hfind))
              cases activation.phiValues source (body ++ [terminator]) with
              | none => rfl
              | some values => simp [heval]
      | _ => rfl

theorem length_phiValues_lt {source : Nat} {body : List Instruction} {terminator : Instruction}
    (hterminator : terminator.isTerminator = true) {values : List (Nat × Content T)}
    (h : activation.phiValues source (body ++ [terminator]) = some values) :
    values.length < (body ++ [terminator]).length := by
  induction body generalizing values with
  | nil =>
      have hnone : activation.phiValues source [terminator] = some [] := by
        cases terminator <;> first | rfl | cases hterminator
      rcases Option.some.inj (hnone.symm.trans h) with rfl
      exact Nat.zero_lt_succ _
  | cons i body ih =>
      cases i with
      | phi incoming dest =>
          simp only [List.cons_append, Activation.phiValues, Option.bind_eq_bind,
            Option.bind_eq_some_iff, Option.some.injEq] at h
          obtain ⟨entry, -, values, hvalues, rfl⟩ := h
          exact Nat.succ_lt_succ (ih hvalues)
      | _ =>
          rcases Option.some.inj h with rfl
          exact Nat.zero_lt_succ _

end Instructions

/-! ### The same effect -/

section Effects

variable {T : Target} {index : T.Val → Nat} {function : Function} {rank enterFunction leaveFunction : Nat}
  {info offset : Operand} {activation : Activation T} {activation' : Activation (recording T index)}
  {recorded : InstrumentationInfo} {world : T.World}

/-- Both activations go on at the same instruction of the program. -/
structure SamePlace (function : Function) (activation : Activation T)
    (activation' : Activation (recording T index)) : Prop
    extends SameValues function activation activation' where
  block : activation'.block = activation.block
  position : activation'.position = activation.position + shift activation.block
  instruction : ∃ i, activation.instruction? function.blocks = some i

/-- The effects are the same, and nothing is recorded. -/
inductive SameEffect (function : Function) (recorded : InstrumentationInfo) :
    Effect T → Effect (recording T index) → Prop where
  | goOn {activation : Activation T} {activation' : Activation (recording T index)}
      (world : T.World) (h : SamePlace function activation activation') :
      SameEffect function recorded (.goOn activation world) (.goOn activation' (world, recorded))
  | call (callee : Content T) (args : List T.Val) (world : T.World) :
      SameEffect function recorded (.call callee args world)
        (.call (liftContent callee) args (world, recorded))
  | leave (outcome : Outcome T.Val) (world : T.World) :
      SameEffect function recorded (.leave outcome world) (.leave outcome (world, recorded))
  | trap (world : T.World) : SameEffect function recorded (.trap world) (.trap (world, recorded))

theorem instruction?_eq_some_iff {T : Target} {activation : Activation T} {blocks : List Block}
    {i : Instruction} :
    activation.instruction? blocks = some i ↔
      ∃ block, blocks[activation.block]? = some block ∧ block[activation.position]? = some i :=
  Option.bind_eq_some_iff

/-- After an instruction that is no terminator there is another one. -/
theorem exists_next (hwf : WellFormedFunction function) {i : Instruction}
    (hi : activation.instruction? function.blocks = some i) (hplain : i.isTerminator = false)
    (dest : Nat) (content : Content T) :
    ∃ i', ((activation.write dest content).next).instruction? function.blocks = some i' := by
  obtain ⟨block, hblock, hget⟩ := instruction?_eq_some_iff.mp hi
  obtain ⟨body, terminator, rfl, hterminator, -⟩ := hwf.blocks block (List.mem_of_getElem? hblock)
  have hlt : activation.position + 1 < (body ++ [terminator]).length := by
    rcases getElem?_append_cases hget with hbody | ⟨hle, hlast⟩
    · have hbound := (List.getElem?_eq_some_iff.mp hbody).1
      rw [List.length_append, List.length_singleton]
      omega
    · have hmem := List.mem_singleton.mp (List.mem_of_getElem? hlast)
      rw [hmem, hterminator] at hplain
      cases hplain
  exact ⟨_, instruction?_eq_some_iff.mpr ⟨_, hblock, List.getElem?_eq_getElem hlt⟩⟩

theorem SamePlace.next (h : SamePlace function activation activation')
    (hwf : WellFormedFunction function) {i : Instruction}
    (hi : activation.instruction? function.blocks = some i) (hplain : i.isTerminator = false)
    (dest : Nat) (content : Content T) :
    SamePlace function (activation.write dest content).next
      (activation'.write dest (liftContent content)).next where
  toSameValues := ⟨(h.write dest content).args, (h.write dest content).registers⟩
  block := h.block
  position := by
    have hposition := h.position
    simp only [Activation.next, Activation.write]
    omega
  instruction := exists_next hwf hi hplain dest content

/-- A jump to any block but the first. -/
theorem sameEffect_jump (hwf : WellFormedFunction function)
    (h : SameValues function activation activation') (hblock : activation'.block = activation.block)
    {target : Nat} (htarget : target ≠ 0) :
    SameEffect function recorded (activation.jump function.blocks target world)
      (activation'.jump (injectCallbacks function rank info offset enterFunction leaveFunction).blocks
        target (world, recorded)) := by
  unfold Activation.jump
  rw [getElem?_injectCallbacks, hblock]
  cases hget : function.blocks[target]? with
  | none => exact .trap world
  | some block =>
      have hmem := List.mem_of_getElem? hget
      obtain ⟨body, terminator, rfl, hterminator, hplain⟩ := hwf.blocks block hmem
      have hdefined : ∀ i ∈ body, ∀ r, Operand.register r ∈ i.operands →
          r < freshRegister function := by
        intro i hi r hr
        obtain ⟨block', hblock', i', hi', hdest⟩ :=
          hwf.written _ hmem i (List.mem_append_left _ hi) r hr
        exact lt_freshRegister hblock' hi' hdest
      -- the code before a return does not begin with a PHI node
      obtain ⟨code, hcode, hinsert⟩ : ∃ code : List Instruction,
          (∀ i ∈ code.head?, ∀ incoming dest, i ≠ .phi incoming dest) ∧
          instrumentedBlock function rank info offset enterFunction leaveFunction target
            (body ++ [terminator]) = body ++ code ++ [terminator] := by
        unfold instrumentedBlock
        rw [if_neg htarget, List.nil_append]
        rcases insertBeforeReturn_cases (hwf.blocks _ hmem) (callbackCode leaveFunction rank info offset
            (freshRegister function + 3 * (target + 1))) with ⟨heq, -⟩ | ⟨body', v, heq', -, heq⟩
        · exact ⟨[], by simp, by simpa using heq⟩
        · obtain ⟨rfl, hlast⟩ := List.append_inj' heq' rfl
          refine ⟨_, ?_, by rw [heq, hlast]⟩
          simp [callbackCode]
      simp only [Option.map_some, Option.bind_some, hinsert,
        phiValues_append h activation.block hterminator hcode hdefined]
      cases hvalues : activation.phiValues activation.block (body ++ [terminator]) with
      | none => exact .trap world
      | some values =>
          have hwritten := h.foldl_write values
          have hlt := length_phiValues_lt hterminator hvalues
          refine .goOn world ⟨⟨hwritten.args, hwritten.registers⟩, rfl, ?_, ?_⟩
          · simp [shift, htarget]
          · exact ⟨_, instruction?_eq_some_iff.mpr ⟨_, hget, List.getElem?_eq_getElem hlt⟩⟩

theorem SamePlace.operands (hwf : WellFormedFunction function) {i : Instruction}
    (hi : activation.instruction? function.blocks = some i) :
    (∀ r, Operand.register r ∈ i.operands → r < freshRegister function) ∧
      ∀ target ∈ i.targets, target ≠ 0 := by
  obtain ⟨block, hblock, hget⟩ := instruction?_eq_some_iff.mp hi
  have hblock := List.mem_of_getElem? hblock
  have hmem := List.mem_of_getElem? hget
  constructor
  · intro r hr
    obtain ⟨block', hblock', i', hi', hdest⟩ := hwf.written block hblock i hmem r hr
    exact lt_freshRegister hblock' hi' hdest
  · rintro target htarget rfl
    exact hwf.entry block hblock i hmem htarget

/-- An instruction of the program that is no return. -/
theorem sameEffect_executeInstruction (hwf : WellFormedFunction function)
    (h : SamePlace function activation activation') {i : Instruction}
    (hi : activation.instruction? function.blocks = some i) (hret : i.isReturn = false) :
    SameEffect function recorded (activation.executeInstruction noSlots function.blocks world i)
      (activation'.executeInstruction noSlots
        (injectCallbacks function rank info offset enterFunction leaveFunction).blocks
        (world, recorded) i) := by
  obtain ⟨hregisters, htargets⟩ := SamePlace.operands hwf hi
  have hjump : ∀ target ∈ i.targets,
      SameEffect function recorded (activation.jump function.blocks target world)
        (activation'.jump (injectCallbacks function rank info offset enterFunction
          leaveFunction).blocks target (world, recorded)) :=
    fun target htarget => sameEffect_jump hwf h.toSameValues h.block (htargets target htarget)
  have hvalue : ∀ operand ∈ i.operands, activation'.value operand = activation.value operand :=
    fun operand hmem => h.value fun r heq => hregisters r (heq ▸ hmem)
  cases i with
  | compute opcode operands dest =>
      have hargs : operands.map activation'.value = operands.map activation.value :=
        h.map_value hregisters
      simp only [Activation.executeInstruction, h.args]
      rw [hargs]
      cases T.compute opcode (operands.map activation.value) activation.args world with
      | none => exact .trap world
      | some result => exact .goOn _ (h.next hwf hi rfl dest (.value result.1))
  | load pointer dest =>
      have hload : ∀ {T : Target} (activation : Activation T) (world : T.World),
          activation.loadFrom noSlots pointer world =
            (T.load (activation.value pointer) world).map .value := by
        intro T activation world
        cases pointer <;> rfl
      simp only [Activation.executeInstruction, hload, hvalue pointer (List.mem_singleton_self _)]
      cases T.load (activation.value pointer) world with
      | none => exact .trap world
      | some value => exact .goOn _ (h.next hwf hi rfl dest (.value value))
  | call callee args dest =>
      have hcallee : activation'.eval callee = liftContent (activation.eval callee) := by
        apply h.eval
        rintro r rfl
        exact hregisters r (by simp [Instruction.operands])
      have hargs := h.map_value fun r hr => hregisters r (List.mem_append_left _ hr)
      simp only [Activation.executeInstruction, hcallee, hargs]
      exact .call _ _ world
  | invoke callee args normal unwind dest =>
      have hcallee : activation'.eval callee = liftContent (activation.eval callee) := by
        apply h.eval
        rintro r rfl
        exact hregisters r (by simp [Instruction.operands])
      have hargs := h.map_value fun r hr => hregisters r (List.mem_append_left _ hr)
      simp only [Activation.executeInstruction, hcallee, hargs]
      exact .call _ _ world
  | br target => exact hjump target (List.mem_singleton_self _)
  | condBr condition ifTrue ifFalse =>
      simp only [Activation.executeInstruction,
        hvalue condition (by simp [Instruction.operands])]
      apply hjump
      cases T.isTrue (activation.value condition) <;> simp [Instruction.targets]
  | switch value default cases =>
      simp only [Activation.executeInstruction, hvalue value (by simp [Instruction.operands])]
      apply hjump
      cases hfind : cases.find? fun entry => T.isCase (activation.value value) entry.1 with
      | none => exact List.mem_cons_self
      | some entry =>
          exact List.mem_cons_of_mem _ (List.mem_map_of_mem (List.mem_of_find?_eq_some hfind))
  | ret value => cases hret
  | resume value =>
      simp only [Activation.executeInstruction, hvalue value (List.mem_singleton_self _)]
      exact .leave _ world
  | phi incoming dest => exact .trap world
  | unreachable => exact .trap world

/-- A call or an invoke has ended. -/
theorem sameEffect_afterCall (hwf : WellFormedFunction function)
    (h : SamePlace function activation activation') {i : Instruction}
    (hi : activation.instruction? function.blocks = some i)
    (hi' : activation'.instruction?
      (injectCallbacks function rank info offset enterFunction leaveFunction).blocks = some i)
    (outcome : Outcome T.Val) :
    SameEffect function recorded (activation.afterCall function.blocks outcome world)
      (activation'.afterCall
        (injectCallbacks function rank info offset enterFunction leaveFunction).blocks outcome
        (world, recorded)) := by
  obtain ⟨-, htargets⟩ := SamePlace.operands hwf hi
  unfold Activation.afterCall
  rw [hi, hi']
  cases i with
  | call callee args dest =>
      cases outcome with
      | returned value => exact .goOn world (h.next hwf hi rfl dest (.value value))
      | unwound exception => exact .leave _ world
  | invoke callee args normal unwind dest =>
      cases outcome with
      | returned value =>
          exact sameEffect_jump hwf (h.write dest (.value value)) h.block
            (htargets normal (by simp [Instruction.targets]))
      | unwound exception =>
          exact sameEffect_jump hwf h.toSameValues h.block
            (htargets unwind (by simp [Instruction.targets]))
  | _ => cases outcome <;> exact .trap world

end Effects

/-! ### A call of a callback -/

section Callback

variable {T : Target} {index : T.Val → Nat} {m' : Module}

/-- The offset variable is no part of the program's memory: it always holds the offset of the
    module, which is added in 32 bits. -/
def HoldsOffset (T : Target) (index : T.Val → Nat) (name : String) (offset : Nat) : Prop :=
  ∀ (k : Nat) (args : List T.Val) (world : T.World), ∃ value sum,
    T.load (T.globalAddress name) world = some value ∧
    T.compute .add [T.constant (.int 32 k), value] args world = some (sum, world) ∧
    index sum = (k + offset) % 2 ^ 32

/-- The steps of the instrumented module, and what they show of the program. -/
abbrev Quiet (T : Target) (index : T.Val → Nat) (m' : Module) (world : T.World) (n : Nat)
    (state state' : State (recording T index)) : Prop :=
  Quietly (step m' noSlots) (fun state => ofProgram (observe state)) (.running world) n state state'

theorem execute_of_instruction? {T : Target} {activation : Activation T} {blocks : List Block}
    {i : Instruction} (hi : activation.instruction? blocks = some i) (world : T.World) :
    activation.execute noSlots blocks world = activation.executeInstruction noSlots blocks world i := by
  rw [Activation.execute, hi]

/-- The three instructions call the callback, which works on what is recorded and returns. -/
theorem quiet_callback {name : String} {offset : Nat} (hoffset : HoldsOffset T index name offset)
    {f callback rank r number : Nat} (hnumber : (rank + offset) % 2 ^ 32 = number)
    {callbackName : String} {event : DynamicCallTree.Event}
    (hcallback : m'.functions[callback]? = some ⟨callbackName, callbackType, []⟩)
    (hevent : callbackEvent callbackName number = some event)
    {activation : Activation (recording T index)} {block : Block} {info : Operand}
    (hblock : (body m' f)[activation.block]? = some block)
    (hcode : ∀ k < 3, block[activation.position + k]? =
      (callbackCode callback rank info (.global name) r)[k]?)
    {recorded recorded' : InstrumentationInfo}
    (hrecorded : DynamicCallTree.step recorded event = some recorded')
    (stack : List (Frame (recording T index))) (world : T.World) :
    ∃ activation' : Activation (recording T index),
      Quiet T index m' world 5 (.running (.code f activation :: stack) (world, recorded))
        (.running (.code f activation' :: stack) (world, recorded')) ∧
      activation'.args = activation.args ∧ activation'.block = activation.block ∧
      activation'.position = activation.position + 3 ∧
      ∀ r' < r, activation'.registers r' = activation.registers r' := by
  obtain ⟨value, sum, hload, hadd, hsum⟩ := hoffset rank activation.args world
  rw [hnumber] at hsum
  let loaded : Activation (recording T index) := (activation.write r (.value value)).next
  let added : Activation (recording T index) := (loaded.write (r + 1) (.value sum)).next
  let after : Activation (recording T index) := (added.write (r + 2) (.value T.noValue)).next
  have hinstruction : ∀ (a : Activation (recording T index)) (k : Nat) (i : Instruction),
      a.block = activation.block → a.position = activation.position + k → k < 3 →
      (callbackCode callback rank info (.global name) r)[k]? = some i →
      a.instruction? (body m' f) = some i := by
    intro a k i hsame hposition hk hi
    rw [instruction?_eq_some_iff, hsame, hposition]
    exact ⟨block, hblock, (hcode k hk).trans hi⟩
  have hfirst := hinstruction activation 0 _ rfl rfl (by decide) rfl
  have hsecond := hinstruction loaded 1 _ rfl rfl (by decide) rfl
  have hthird := hinstruction added 2 _ rfl rfl (by decide) rfl
  -- the load, the addition and the call; the callback; the return from it
  have hstep₁ : step (T := recording T index) m' noSlots
      (.running (.code f activation :: stack) (world, recorded)) =
      some (.running (.code f loaded :: stack) (world, recorded)) := by
    rw [step, execute_of_instruction? hfirst]
    simp [Activation.executeInstruction, Activation.loadFrom, noSlots, Activation.value,
      Activation.eval, Content.toVal, hload, Effect.apply, loaded]
  have hstep₂ : step (T := recording T index) m' noSlots
      (.running (.code f loaded :: stack) (world, recorded)) =
      some (.running (.code f added :: stack) (world, recorded)) := by
    rw [step, execute_of_instruction? hsecond]
    simp [Activation.executeInstruction, Activation.value, Activation.eval, Content.toVal, loaded,
      Activation.write, Activation.next, hadd, Effect.apply, added]
  have hstep₃ : step (T := recording T index) m' noSlots
      (.running (.code f added :: stack) (world, recorded)) =
      some (.running (.external (.inr event) ::
        .code f added :: stack) (world, recorded)) := by
    rw [step, execute_of_instruction? hthird]
    simp [Activation.executeInstruction, Effect.apply, Semantics.call, Activation.eval,
      Content.function?, hcallback, accepts, callbackType, Function.isDeclaration, hevent,
      Activation.value, Content.toVal, added, Activation.write, Activation.next, hsum]
  have hstep₄ : step (T := recording T index) m' noSlots
        (.running (.external (.inr event) ::
        .code f added :: stack) (world, recorded)) =
      some (.returning (.returned T.noValue) (.code f added :: stack) (world, recorded')) := by
    simp [step, hrecorded]
  have hstep₅ : step (T := recording T index) m' noSlots
        (.returning (.returned T.noValue) (.code f added :: stack) (world, recorded')) =
      some (.running (.code f after :: stack) (world, recorded')) := by
    simp only [step, Activation.afterCall, hthird, Effect.apply]
    rfl
  refine ⟨after, ?_, rfl, rfl, rfl, ?_⟩
  · exact .next rfl hstep₁ (.next rfl hstep₂ (.next rfl hstep₃ (.next rfl hstep₄
      (.next rfl hstep₅ (.refl rfl)))))
  · intro r' hr'
    simp [after, added, loaded, Activation.write, Activation.next,
      Function.update_of_ne (show r' ≠ r by omega), Function.update_of_ne (show r' ≠ r + 1 by omega),
      Function.update_of_ne (show r' ≠ r + 2 by omega)]

end Callback

/-! ### States that belong together -/

section Matching

variable {T : Target} {index : T.Val → Nat}

/-- The functions of the module that are active, the last called one first. -/
def active : List (Frame T) → List Nat
  | [] => []
  | .code k _ :: stack => k :: active stack
  | .external _ :: stack => active stack

def activeIn : State T → List Nat
  | .running stack _ | .returning _ stack _ => active stack
  | .trapped _ => []

/-- From now on, functions of the module are called only if they are among these. -/
def OnlyCalls (m : Module) (Called : Nat → Prop) (state : State T) : Prop :=
  ∀ later, Reaches (step m noSlots) state later → ∀ k ∈ activeIn later, Called k

theorem OnlyCalls.next {m : Module} {Called : Nat → Prop} {state next : State T}
    (h : OnlyCalls m Called state) (hstep : step m noSlots state = some next) :
    OnlyCalls m Called next :=
  fun later hlater => h later (.head hstep hlater)

theorem OnlyCalls.now {m : Module} {Called : Nat → Prop} {state : State T}
    (h : OnlyCalls m Called state) {k : Nat} (hk : k ∈ activeIn state) : Called k :=
  h state .refl k hk

/-- What function `k` passes to the callbacks. -/
def numberAt (m : Module) (offset k : Nat) : Nat := ((definitionsBelow m k).length + offset) % 2 ^ 32

/-- The callbacks keep a property of the active functions and of what is recorded.  An
    exception ends an activation without a callback. -/
structure Tracks (m : Module) (offset : Nat) (Called : Nat → Prop)
    (Inv : List Nat → InstrumentationInfo → Prop) : Prop where
  enter : ∀ {k functions recorded}, IsDefinition m k → Called k → Inv functions recorded →
    ∃ recorded', DynamicCallTree.step recorded (.enter (numberAt m offset k)) = some recorded' ∧
      Inv (k :: functions) recorded'
  leave : ∀ {k functions recorded}, IsDefinition m k → Inv (k :: functions) recorded →
    ∃ recorded', DynamicCallTree.step recorded (.leave (numberAt m offset k)) = some recorded' ∧
      Inv functions recorded'
  unwind : ∀ {k functions recorded}, Inv (k :: functions) recorded → Inv functions recorded

/-- The activations below the top wait for the same calls. -/
inductive SameStack (m : Module) : List (Frame T) → List (Frame (recording T index)) → Prop where
  | nil : SameStack m [] []
  | code {k : Nat} {function : Function} {activation : Activation T}
      {activation' : Activation (recording T index)} {i : Instruction} {stack : List (Frame T)}
      {stack' : List (Frame (recording T index))} (hfunction : m.functions[k]? = some function)
      (hplace : SamePlace function activation activation')
      (hi : activation.instruction? function.blocks = some i) (hret : i.isReturn = false)
      (hregisters : RegistersInModule m.functions.length activation)
      (hrest : SameStack m stack stack') :
      SameStack m (.code k activation :: stack) (.code k activation' :: stack')
  | external (external : T.External) {stack : List (Frame T)}
      {stack' : List (Frame (recording T index))} (hrest : SameStack m stack stack') :
      SameStack m (.external external :: stack) (.external (.inl external) :: stack')

/-- Before a step.  A function that is about to return has left already. -/
inductive Matched (m m' : Module) (offset : Nat) (Inv : List Nat → InstrumentationInfo → Prop) :
    State T → State (recording T index) → Prop where
  | code {k : Nat} {function : Function} {activation : Activation T}
      {activation' : Activation (recording T index)} {i : Instruction} {stack : List (Frame T)}
      {stack' : List (Frame (recording T index))} {world : T.World} {recorded : InstrumentationInfo}
      (hfunction : m.functions[k]? = some function)
      (hplace : SamePlace function activation activation')
      (hi : activation.instruction? function.blocks = some i) (hret : i.isReturn = false)
      (hregisters : RegistersInModule m.functions.length activation)
      (hstack : SameStack m stack stack') (hinv : Inv (k :: active stack) recorded) :
      Matched m m' offset Inv (.running (.code k activation :: stack) world)
        (.running (.code k activation' :: stack') (world, recorded))
  | ret {k : Nat} {function : Function} {activation : Activation T}
      {activation' : Activation (recording T index)} {v : Option Operand} {stack : List (Frame T)}
      {stack' : List (Frame (recording T index))} {world : T.World}
      {before recorded : InstrumentationInfo} (hfunction : m.functions[k]? = some function)
      (hvalues : SameValues function activation activation')
      (hi : activation.instruction? function.blocks = some (.ret v))
      (hi' : activation'.instruction? (body m' k) = some (.ret v))
      (hstack : SameStack m stack stack') (hbefore : Inv (k :: active stack) before)
      (hleave : DynamicCallTree.step before (.leave (numberAt m offset k)) = some recorded)
      (hinv : Inv (active stack) recorded) :
      Matched m m' offset Inv (.running (.code k activation :: stack) world)
        (.running (.code k activation' :: stack') (world, recorded))
  | external (external : T.External) {stack : List (Frame T)}
      {stack' : List (Frame (recording T index))} {world : T.World} {recorded : InstrumentationInfo}
      (hstack : SameStack m stack stack') (hinv : Inv (active stack) recorded) :
      Matched m m' offset Inv (.running (.external external :: stack) world)
        (.running (.external (.inl external) :: stack') (world, recorded))
  | returning (outcome : Outcome T.Val) {stack : List (Frame T)}
      {stack' : List (Frame (recording T index))} {world : T.World} {recorded : InstrumentationInfo}
      (hstack : SameStack m stack stack') (hinv : Inv (active stack) recorded) :
      Matched m m' offset Inv (.returning outcome stack world)
        (.returning outcome stack' (world, recorded))
  | trapped (world : T.World) {functions : List Nat} {recorded : InstrumentationInfo}
      (hinv : Inv functions recorded) :
      Matched m m' offset Inv (.trapped world) (.trapped (world, recorded))

/-- The instrumented module gets to a state that belongs to the given one, and shows the same
    until then. -/
def Settles (m m' : Module) (offset : Nat) (Inv : List Nat → InstrumentationInfo → Prop)
    (state : State T) (state' : State (recording T index)) : Prop :=
  ∃ n state'', Quietly (step m' noSlots) (fun state => ofProgram (observe state)) (observe state) n
    state' state'' ∧ Matched m m' offset Inv state state''

variable {m m' : Module} {offset : Nat} {Inv : List Nat → InstrumentationInfo → Prop}
  {state : State T} {state' : State (recording T index)}

theorem Matched.label (h : Matched m m' offset Inv state state') :
    ofProgram (observe state') = observe state := by
  cases h with
  | returning outcome hstack hinv => cases hstack <;> rfl
  | _ => rfl

theorem Matched.settles (h : Matched m m' offset Inv state state') :
    Settles m m' offset Inv state state' :=
  ⟨0, state', .refl h.label, h⟩

end Matching

/-! ### Running both modules -/

/-- `m'` is `m` with callbacks, on a machine that holds the offset of the module and on which no
    function has the number zero. -/
structure Installed (T : Target) (index : T.Val → Nat) (m m' : Module) (info : Operand)
    (name : String) (offset : Nat) : Prop where
  instrumented : Instrumented m m' info (.global name)
  wellFormed : ∀ function ∈ m.functions, WellFormedFunction function
  closed : ∀ function ∈ m.functions, Closed m function.blocks
  unknown : CallbacksUnknown m
  address : ∀ value f, T.asFunction value = some f → f < m.functions.length
  holdsOffset : HoldsOffset T index name offset
  nonzero : ∀ k, IsDefinition m k → numberAt m offset k ≠ 0

theorem isDefinition_of_instruction {T : Target} {m : Module} {k : Nat} {function : Function}
    {activation : Activation T} {i : Instruction} (hfunction : m.functions[k]? = some function)
    (hi : activation.instruction? function.blocks = some i) :
    function.isDeclaration = false ∧ IsDefinition m k ∧ body m k = function.blocks := by
  obtain ⟨block, hblock, -⟩ := instruction?_eq_some_iff.mp hi
  have hdefined : function.isDeclaration = false := by
    cases hblocks : function.blocks with
    | nil =>
        rw [hblocks] at hblock
        cases hblock
    | cons first blocks => simp [Function.isDeclaration, hblocks]
  exact ⟨hdefined, ⟨function, hfunction, hdefined⟩, by simp [body, hfunction]⟩

namespace Installed

variable {T : Target} {index : T.Val → Nat} {m m' : Module} {info : Operand} {name : String}
  {offset : Nat} (h : Installed T index m m' info name offset)

include h

/-- The code of a definition in the instrumented module. -/
theorem body_eq {k : Nat} {function : Function} (hfunction : m.functions[k]? = some function)
    (hdefined : function.isDeclaration = false) :
    body m' k = (injectCallbacks function ((definitionsBelow m k).length % 2 ^ 32) info
      (.global name) m.functions.length (m.functions.length + 1)).blocks := by
  simp [body, h.instrumented.functions k function hfunction, instrument, hdefined]

/-- At an instruction that is no return, both modules have the same one. -/
theorem instruction? {k : Nat} {function : Function} {activation : Activation T}
    {activation' : Activation (recording T index)} {i : Instruction}
    (hfunction : m.functions[k]? = some function) (hplace : SamePlace function activation activation')
    (hi : activation.instruction? function.blocks = some i) (hret : i.isReturn = false) :
    activation'.instruction? (body m' k) = some i := by
  obtain ⟨hdefined, -, -⟩ := isDefinition_of_instruction hfunction hi
  obtain ⟨block, hblock, hget⟩ := instruction?_eq_some_iff.mp hi
  have hwf := (h.wellFormed function (List.mem_of_getElem? hfunction)).blocks block
    (List.mem_of_getElem? hblock)
  rw [h.body_eq hfunction hdefined, instruction?_eq_some_iff, getElem?_injectCallbacks, hplace.block,
    hplace.position, hblock]
  exact ⟨_, rfl, getElem?_instrumentedBlock hwf hget hret⟩

variable {Called : Nat → Prop} {Inv : List Nat → InstrumentationInfo → Prop}
  (htracks : Tracks m offset Called Inv)

include htracks

/-- An activation of the module settles at its next instruction. -/
theorem settles_place {k : Nat} {function : Function} {activation : Activation T}
    {activation' : Activation (recording T index)} (hfunction : m.functions[k]? = some function)
    (hplace : SamePlace function activation activation')
    (hregisters : RegistersInModule m.functions.length activation) {stack : List (Frame T)}
    {stack' : List (Frame (recording T index))} (hstack : SameStack m stack stack')
    {recorded : InstrumentationInfo} (hinv : Inv (k :: active stack) recorded) (world : T.World) :
    Settles m m' offset Inv (.running (.code k activation :: stack) world)
      (.running (.code k activation' :: stack') (world, recorded)) := by
  obtain ⟨i, hi⟩ := hplace.instruction
  cases hret : i.isReturn with
  | false => exact (Matched.code hfunction hplace hi hret hregisters hstack hinv).settles
  | true =>
      cases i with
      | ret v =>
          obtain ⟨hdefined, hdefinition, -⟩ := isDefinition_of_instruction hfunction hi
          obtain ⟨block, hblock, hget⟩ := instruction?_eq_some_iff.mp hi
          have hwf := (h.wellFormed function (List.mem_of_getElem? hfunction)).blocks block
            (List.mem_of_getElem? hblock)
          have hbody : (body m' k)[activation'.block]? = some (instrumentedBlock function
              ((definitionsBelow m k).length % 2 ^ 32) info (.global name) m.functions.length
              (m.functions.length + 1) activation.block block) := by
            rw [h.body_eq hfunction hdefined, getElem?_injectCallbacks, hplace.block, hblock]
            rfl
          obtain ⟨recorded', hleave, hinv'⟩ := htracks.leave hdefinition hinv
          have hcode : ∀ l < 3, (instrumentedBlock function ((definitionsBelow m k).length % 2 ^ 32) info
              (.global name) m.functions.length (m.functions.length + 1) activation.block
              block)[activation'.position + l]? =
              (callbackCode (m.functions.length + 1) ((definitionsBelow m k).length % 2 ^ 32) info
                (.global name) (freshRegister function + 3 * (activation.block + 1)))[l]? := by
            intro l hl
            rw [hplace.position, getElem?_instrumentedBlock_return hwf hget (by omega),
              List.getElem?_append_left hl]
          obtain ⟨last, hquiet, hargs, hlast, hposition, hsame⟩ := quiet_callback h.holdsOffset
            (Nat.mod_add_mod _ _ _) (h.instrumented.callbacks k hdefinition).2
            (by rfl) hbody hcode hleave stack' world
          refine ⟨5, _, hquiet,
            .ret hfunction ⟨hargs.trans hplace.args, ?_⟩ hi ?_ hstack hinv hleave hinv'⟩
          · intro r hr
            rw [hsame r (by omega), hplace.registers r hr]
          · rw [instruction?_eq_some_iff, hlast, hposition, hplace.position]
            refine ⟨_, hbody, ?_⟩
            rw [getElem?_instrumentedBlock_return hwf hget (Nat.le_refl 3)]
            rfl
      | _ => cases hret

/-- A called function first calls `mull_enterFunction`. -/
theorem settles_start {k : Nat} {function : Function} (hfunction : m.functions[k]? = some function)
    (hdefined : function.isDeclaration = false) (args : List T.Val) {stack : List (Frame T)}
    {stack' : List (Frame (recording T index))} (hstack : SameStack m stack stack')
    {recorded : InstrumentationInfo} (hinv : Inv (active stack) recorded) (hcalled : Called k)
    (world : T.World) :
    Settles m m' offset Inv (.running (.code k (.start args) :: stack) world)
      (.running (.code k (.start args) :: stack') (world, recorded)) := by
  have hdefinition : IsDefinition m k := ⟨function, hfunction, hdefined⟩
  obtain ⟨block, blocks, hblocks⟩ : ∃ block blocks, function.blocks = block :: blocks := by
    cases hblocks : function.blocks with
    | nil => simp [Function.isDeclaration, hblocks] at hdefined
    | cons block blocks => exact ⟨block, blocks, rfl⟩
  have hblock : function.blocks[0]? = some block := by rw [hblocks]; rfl
  have hbody : (body m' k)[0]? = some (instrumentedBlock function
      ((definitionsBelow m k).length % 2 ^ 32) info (.global name) m.functions.length
      (m.functions.length + 1) 0 block) := by
    rw [h.body_eq hfunction hdefined, getElem?_injectCallbacks, hblock]
    rfl
  obtain ⟨recorded', hrecorded, hinv'⟩ := htracks.enter hdefinition hcalled hinv
  have hcode : ∀ l < 3, (instrumentedBlock function ((definitionsBelow m k).length % 2 ^ 32) info
      (.global name) m.functions.length (m.functions.length + 1) 0 block)[0 + l]? =
      (callbackCode m.functions.length ((definitionsBelow m k).length % 2 ^ 32) info (.global name)
        (freshRegister function))[l]? := by
    intro l hl
    rw [Nat.zero_add, getElem?_prologue hl]
  obtain ⟨first, hquiet, hargs, hfirst, hposition, hsame⟩ :=
    @quiet_callback T index m' name offset h.holdsOffset k _ _ _ _ (Nat.mod_add_mod _ _ _) _ _
      (h.instrumented.callbacks k hdefinition).1 rfl (.start args) _ info hbody hcode recorded recorded'
      hrecorded stack' world
  have hplace : SamePlace function (.start args) first := by
    refine ⟨⟨hargs, ?_⟩, hfirst, hposition, ?_⟩
    · intro r hr
      rw [hsame r hr]
      rfl
    · obtain ⟨body, terminator, rfl, -⟩ := (h.wellFormed function
        (List.mem_of_getElem? hfunction)).blocks block (List.mem_of_getElem? hblock)
      have hlt : 0 < (body ++ [terminator]).length := by simp
      exact ⟨_, instruction?_eq_some_iff.mpr ⟨_, hblock, List.getElem?_eq_getElem hlt⟩⟩
  obtain ⟨n, last, hrest, hmatched⟩ := h.settles_place htracks hfunction hplace
    (registersInModule_start _ args) hstack hinv' world
  exact ⟨n + 5, last, hquiet.trans hrest, hmatched⟩

theorem settles_call {callee : Content T} (hcallee : InModule m.functions.length callee)
    (args : List T.Val) {stack : List (Frame T)} {stack' : List (Frame (recording T index))}
    (hstack : SameStack m stack stack') {recorded : InstrumentationInfo}
    (hinv : Inv (active stack) recorded) {world : T.World}
    (hcalls : OnlyCalls m Called (Semantics.call m callee args stack world)) :
    Settles m m' offset Inv (Semantics.call m callee args stack world)
      (Semantics.call m' (liftContent callee) args stack' (world, recorded)) := by
  replace hcalls := fun k => hcalls.now (k := k)
  unfold Semantics.call at hcalls ⊢
  rw [function?_liftContent]
  cases hcallee? : callee.function? with
  | none =>
      simp only [toVal_liftContent]
      exact (Matched.external _ hstack hinv).settles
  | some f =>
      have hf : f < m.functions.length := by
        cases callee with
        | code f' =>
            cases hcallee?
            exact hcallee f rfl
        | value v => exact h.address v f hcallee?
      have hfunction := List.getElem?_eq_getElem hf
      have htype : (instrument m info (.global name) f m.functions[f]).type = m.functions[f].type := by
        unfold instrument
        split <;> rfl
      have hdeclaration : (instrument m info (.global name) f m.functions[f]).isDeclaration =
          m.functions[f].isDeclaration := by
        unfold instrument
        split
        · rfl
        · cases hblocks : m.functions[f].blocks <;>
            simp [Function.isDeclaration, injectCallbacks, hblocks]
      simp only [hcallee?, hfunction] at hcalls
      simp only [hfunction, h.instrumented.functions f _ hfunction, htype, hdeclaration, name_instrument]
      cases haccepts : accepts m.functions[f].type args.length with
      | false => exact (Matched.trapped world hinv).settles
      | true =>
          cases hdefined : m.functions[f].isDeclaration with
          | true =>
              -- the name of a declaration is not that of a callback
              have hmem : m.functions[f].name ∈ functionNames m :=
                List.mem_map_of_mem (List.getElem_mem hf)
              have hevent : ∀ n, callbackEvent m.functions[f].name n = none := by
                intro n
                have henter : m.functions[f].name ≠ enterFunctionName := fun heq =>
                  h.unknown.1 (heq ▸ hmem)
                have hleave : m.functions[f].name ≠ leaveFunctionName := fun heq =>
                  h.unknown.2 (heq ▸ hmem)
                simp [callbackEvent, henter, hleave]
              simp only [if_true, hevent]
              exact (Matched.external _ hstack hinv).settles
          | false =>
              simp only [haccepts, hdefined, if_true, Bool.false_eq_true, if_false] at hcalls ⊢
              exact h.settles_start htracks hfunction hdefined args hstack hinv
                (hcalls f List.mem_cons_self) world

/-- The effect of an activation on top of both stacks. -/
theorem settles_apply {k : Nat} {function : Function} {activation : Activation T}
    {activation' : Activation (recording T index)} {i : Instruction}
    (hfunction : m.functions[k]? = some function) (hplace : SamePlace function activation activation')
    (hi : activation.instruction? function.blocks = some i) (hret : i.isReturn = false)
    (hregisters : RegistersInModule m.functions.length activation) {stack : List (Frame T)}
    {stack' : List (Frame (recording T index))} (hstack : SameStack m stack stack')
    {recorded : InstrumentationInfo} (hinv : Inv (k :: active stack) recorded)
    {effect : Effect T} {effect' : Effect (recording T index)}
    (heffect : SameEffect function recorded effect effect')
    (hkeeps : Keeps m.functions.length activation effect)
    (hcalls : OnlyCalls m Called (effect.apply m k activation stack)) :
    Settles m m' offset Inv (effect.apply m k activation stack)
      (effect'.apply m' k activation' stack') := by
  cases heffect with
  | goOn world hnext => exact h.settles_place htracks hfunction hnext hkeeps.2 hstack hinv world
  | call callee args world =>
      exact h.settles_call htracks hkeeps args (.code hfunction hplace hi hret hregisters hstack) hinv
        hcalls
  | leave outcome world => exact (Matched.returning outcome hstack (htracks.unwind hinv)).settles
  | trap world => exact (Matched.trapped world hinv).settles

theorem lockstep : Lockstep (step (T := T) m noSlots) (step (T := recording T index) m' noSlots) observe
    (fun state => ofProgram (observe state))
    (fun state state' => OnlyCalls m Called state ∧ Matched m m' offset Inv state state') where
  progress := by
    rintro state state' ⟨hcalls, hmatched⟩
    have htogether : ∀ {next next'}, step m noSlots state = some next →
        step m' noSlots state' = some next' →
        (OnlyCalls m Called next → Settles m m' offset Inv next next') →
        (step m noSlots state = none ∧ step m' noSlots state' = none) ∨
        ∃ next next' last n, step m noSlots state = some next ∧ step m' noSlots state' = some next' ∧
          Quietly (step m' noSlots) (fun state => ofProgram (observe state)) (observe next) n
            next' last ∧ OnlyCalls m Called next ∧ Matched m m' offset Inv next last := by
      intro next next' hnext hnext' hsettles
      obtain ⟨n, last, hquiet, hlast⟩ := hsettles (hcalls.next hnext)
      exact .inr ⟨next, next', last, n, hnext, hnext', hquiet, hcalls.next hnext, hlast⟩
    cases hmatched with
    | @code k function activation activation' i stack stack' world recorded hfunction hplace hi hret
        hregisters hstack hinv =>
        obtain ⟨hdefined, -, hbody⟩ := isDefinition_of_instruction hfunction hi
        have hwf := h.wellFormed function (List.mem_of_getElem? hfunction)
        have hkeeps := keeps_execute (h.closed function (List.mem_of_getElem? hfunction)) hregisters world
        rw [execute_of_instruction? hi] at hkeeps
        refine htogether rfl rfl ?_
        rw [execute_of_instruction? (h.instruction? hfunction hplace hi hret), hbody,
          execute_of_instruction? hi, h.body_eq hfunction hdefined]
        exact h.settles_apply htracks hfunction hplace hi hret hregisters hstack hinv
          (sameEffect_executeInstruction hwf hplace hi hret) hkeeps
    | @ret k function activation activation' v stack stack' world before recorded hfunction hvalues hi
        hi' hstack hbefore hleave hinv =>
        obtain ⟨-, -, hbody⟩ := isDefinition_of_instruction hfunction hi
        have hregisters := (SamePlace.operands
          (h.wellFormed function (List.mem_of_getElem? hfunction)) hi).1
        refine htogether rfl rfl fun _ => ?_
        rw [execute_of_instruction? hi', hbody, execute_of_instruction? hi]
        cases v with
        | none => exact (Matched.returning _ hstack hinv).settles
        | some operand =>
            have hvalue : activation'.value operand = activation.value operand := by
              apply hvalues.value
              rintro r rfl
              exact hregisters r (by simp [Instruction.operands])
            simp only [Activation.executeInstruction, hvalue]
            exact (Matched.returning _ hstack hinv).settles
    | @external external stack stack' world recorded hstack hinv =>
        cases haction : T.externalStep external world with
        | mk action world' =>
            cases action with
            | goOn external' =>
                exact htogether (by rw [step, haction]) (by simp only [step, haction]; rfl)
                  fun _ => (Matched.external external' hstack hinv).settles
            | call callee args external' =>
                exact htogether (by rw [step, haction]) (by simp only [step, haction]; rfl)
                  (h.settles_call htracks (inModule_value _ callee) args (.external external' hstack)
                    hinv)
            | leave outcome =>
                exact htogether (by rw [step, haction]) (by simp only [step, haction]; rfl)
                  fun _ => (Matched.returning outcome hstack hinv).settles
            | trap =>
                exact htogether (by rw [step, haction]) (by simp only [step, haction]; rfl)
                  fun _ => (Matched.trapped world' hinv).settles
    | @returning outcome stack stack' world recorded hstack hinv =>
        cases hstack with
        | nil => exact .inl ⟨rfl, rfl⟩
        | @code k function activation activation' i stack stack' hfunction hplace hi hret hregisters
            hrest =>
            obtain ⟨hdefined, -, hbody⟩ := isDefinition_of_instruction hfunction hi
            have hwf := h.wellFormed function (List.mem_of_getElem? hfunction)
            have hkeeps := keeps_afterCall (h.closed function (List.mem_of_getElem? hfunction)) hregisters
              outcome world
            have hi' := h.instruction? hfunction hplace hi hret
            refine htogether rfl rfl ?_
            rw [h.body_eq hfunction hdefined] at hi' ⊢
            rw [hbody]
            exact h.settles_apply htracks hfunction hplace hi hret hregisters hrest hinv
              (sameEffect_afterCall hwf hplace hi hi' outcome) hkeeps
        | @external external stack stack' hrest =>
            exact htogether rfl rfl fun _ =>
              (Matched.external (T.resume external outcome) hrest hinv).settles
    | trapped world hinv => exact .inl ⟨rfl, rfl⟩

/-- A call of a function of the module, in both modules. -/
theorem settles_entry {f : Nat} (hf : f < m.functions.length) (args : List T.Val) {world : T.World}
    {recorded : InstrumentationInfo} (hinv : Inv [] recorded)
    (hcalls : OnlyCalls m Called (Semantics.call m (.code f) args [] world)) :
    @Settles T index m m' offset Inv (Semantics.call m (.code f) args [] world)
      (Semantics.call m' (.code f) args [] (world, recorded)) := by
  have hcode : InModule m.functions.length (Content.code f : Content T) := by
    rintro f' ⟨⟩
    exact hf
  exact h.settles_call htracks hcode args .nil hinv hcalls

omit htracks in
/-- The recorded stack has an entry for each activation that is not about to return;
    exceptions leave further entries behind. -/
theorem tracks_depth : Tracks m offset (fun _ => True) fun functions recorded =>
    functions.length ≤ recorded.callstack.length where
  enter := by
    intro k functions recorded hdefinition _ hinv
    simp only [DynamicCallTree.step, DynamicCallTree.enterFunction, if_neg (h.nonzero k hdefinition)]
    exact ⟨_, rfl, Nat.succ_le_succ hinv⟩
  leave := by
    intro k functions recorded hdefinition hinv
    obtain ⟨top, callstack, hcallstack⟩ :=
      List.exists_cons_of_length_pos (Nat.lt_of_lt_of_le (Nat.succ_pos _) hinv)
    refine ⟨{ recorded with callstack := callstack }, ?_, ?_⟩
    · simp only [DynamicCallTree.step, DynamicCallTree.leaveFunction, if_neg (h.nonzero k hdefinition),
        hcallstack]
    · rw [hcallstack] at hinv
      exact Nat.le_of_succ_le_succ hinv
  unwind := fun hinv => Nat.le_of_succ_le hinv

omit htracks in
theorem behaviour_eq {f : Nat} (hf : f < m.functions.length) (args : List T.Val) (world : T.World)
    (recorded : InstrumentationInfo) :
    instrumentedBehaviour T index m' f args world recorded = behaviour T m noSlots f args world := by
  have hcalls : OnlyCalls m (fun _ => True) (Semantics.call m (.code f) args [] world) :=
    fun _ _ _ _ => trivial
  obtain ⟨n, last, hquiet, hmatched⟩ := @settles_entry T index m m' info name offset h _ _
    h.tracks_depth f hf args world recorded (Nat.zero_le _) hcalls
  exact ((h.lockstep h.tracks_depth).simulation.shown_eq ⟨last, hquiet, hcalls, hmatched⟩).symm

end Installed

/-! ### The modules of a program -/

/-- What the runner resolves the offset variable of a module to. -/
def moduleOffset (modules : List Module) (m : Module) : Nat :=
  ((recordProgram (modules.map registered)).functionOffsetMapping m.identifier).getD 0

theorem CallbacksUnknown.callbacksUnused {m : Module} (h : CallbacksUnknown m) :
    CallbacksUnused m where
  undefined := by
    intro function hfunction hname
    have hmem : function.name ∈ functionNames m := List.mem_map_of_mem hfunction
    simp only [isCallbackName, Bool.or_eq_true, decide_eq_true_eq] at hname
    rcases hname with hname | hname
    · exact absurd (hname ▸ hmem) h.1
    · exact absurd (hname ▸ hmem) h.2
  paired := by
    intro k hk
    exact ⟨fun henter => absurd henter h.1, fun hleave => absurd hleave h.2⟩

/-- What a function passes to the callbacks is its place in the table of functions. -/
theorem functions_numberAt {modules : List Module} (hdistinct : (modules.map Module.identifier).Nodup)
    (hunknown : ∀ m ∈ modules, CallbacksUnknown m) (hsize : tableSize modules ≤ 2 ^ 32) {m : Module}
    {i : Nat} (hi : modules[i]? = some m) {k : Nat} (hk : IsDefinition m k) :
    (recordProgram (modules.map registered)).functions[numberAt m (moduleOffset modules m) k]? =
      some (some (i, k)) := by
  have hunused : ∀ m ∈ modules, CallbacksUnused m := fun m hm => (hunknown m hm).callbacksUnused
  have hm := List.mem_of_getElem? hi
  obtain ⟨offset, hoffset, hstored⟩ := @recordFrom_module 0 .initial (modules.map registered)
    (by rw [identifiers_registered]; exact hdistinct) i (registered m) (by simp [hi])
  have hrank := hstored _ k (by rw [(hunused m hm).definitions]; exact definitions_rank hk)
  rw [← recordProgram] at hrank hoffset
  have hlt := (List.getElem?_eq_some_iff.mp hrank).1
  rw [length_recordProgram modules hunused] at hlt
  have hidentifier : (registered m).module.identifier = m.identifier := rfl
  rw [hidentifier] at hoffset
  have hnumber : numberAt m (moduleOffset modules m) k = offset + (definitionsBelow m k).length := by
    simp only [numberAt, moduleOffset, hoffset, Option.getD_some]
    omega
  rw [hnumber, hrank, Nat.zero_add]

/-- The table of functions begins with the null function, so that no definition has number zero. -/
theorem moduleOffset_nonzero {modules : List Module}
    (hdistinct : (modules.map Module.identifier).Nodup)
    (hunknown : ∀ m ∈ modules, CallbacksUnknown m) (hsize : tableSize modules ≤ 2 ^ 32) {m : Module}
    (hm : m ∈ modules) {k : Nat} (hk : IsDefinition m k) :
    numberAt m (moduleOffset modules m) k ≠ 0 := by
  obtain ⟨i, hi⟩ := List.getElem?_of_mem hm
  have hrank := functions_numberAt hdistinct hunknown hsize hi hk
  intro hzero
  rw [hzero] at hrank
  obtain ⟨rest, hrest⟩ := (@recordFrom_keeps 0 .initial (modules.map registered)).1
  rw [recordProgram, ← hrest] at hrank
  simp [Instrumentation.initial] at hrank

/-- The runner's program is instrumented by `insertCallbacks`, module by module. -/
theorem installed_insertCallbacks {modules : List Module}
    (hdistinct : (modules.map Module.identifier).Nodup)
    (hunknown : ∀ m ∈ modules, CallbacksUnknown m) (hsize : tableSize modules ≤ 2 ^ 32) {m m' : Module}
    (hm : m ∈ modules) (hreserved : functionIndexOffsetPrefix ++ m.identifier ∉ m.names)
    (hwellFormed : ∀ function ∈ m.functions, WellFormedFunction function)
    (hclosed : ∀ function ∈ m.functions, Closed m function.blocks)
    (hinsert : insertCallbacks m = some m') {T : Target} {index : T.Val → Nat}
    (haddress : ∀ value f, T.asFunction value = some f → f < m.functions.length)
    (hoffset : HoldsOffset T index (functionIndexOffsetPrefix ++ m.identifier)
      (moduleOffset modules m)) :
    ∃ info, Installed T index m m' info (functionIndexOffsetPrefix ++ m.identifier)
      (moduleOffset modules m) := by
  obtain ⟨info, hinstrumented⟩ := instrumented_insertCallbacks (hunknown m hm) hreserved hinsert
  exact ⟨info, {
    instrumented := hinstrumented
    wellFormed := hwellFormed
    closed := hclosed
    unknown := hunknown m hm
    address := haddress
    holdsOffset := hoffset
    nonzero := fun k hk => moduleOffset_nonzero hdistinct hunknown hsize hm hk }⟩

/-- A machine that adds.  The only variable that it loads is the offset of the first module. -/
def adder : Target where
  Val := Int
  World := Unit
  External := Unit
  constant
    | .int _ value => value
    | _ => 0
  functionAddress f := f
  globalAddress _ := 0
  noValue := 0
  compute opcode operands _ world :=
    match opcode, operands with
    | .add, [x, y] => some (x + y, world)
    | _, _ => none
  load _ _ := some 1
  isTrue value := value ≠ 0
  isCase _ _ := false
  asFunction _ := none
  catchException _ world := world
  enter _ _ := ()
  enterAddress _ _ := ()
  externalStep _ world := (.trap, world)
  resume _ _ := ()

/-- `caller` returns what `successor` returns. -/
def callingModule : Module where
  identifier := "testee.bc"
  functions :=
    [⟨"caller", ⟨.int 32, [.int 32], false⟩,
      [[.call (.function 1) [.argument 0] 0, .ret (some (.register 0))]]⟩,
     ⟨"successor", ⟨.int 32, [.int 32], false⟩,
      [[.compute .add [.argument 0, .constant (.int 32 1)] 0, .ret (some (.register 0))]]⟩]
  globals := []

theorem wellFormed_callingModule : ∀ function ∈ callingModule.functions,
    WellFormedFunction function ∧ Closed callingModule function.blocks := by
  intro function hfunction
  simp only [callingModule, List.mem_cons, List.not_mem_nil, or_false] at hfunction
  rcases hfunction with rfl | rfl
  all_goals
    refine ⟨⟨?_, ?_, ?_⟩, ?_⟩
    · intro block hblock
      obtain rfl := List.mem_singleton.mp hblock
      exact ⟨[_], .ret (some (.register 0)), rfl, rfl, by simp [Instruction.isTerminator]⟩
    · simp [Instruction.targets]
    · simp [Instruction.operands, Instruction.dest?]
    · simp [Closed, callingModule, RefersTo, Instruction.operands]

theorem unknown_callingModule : ∀ m ∈ [callingModule], CallbacksUnknown m := by
  intro m hm
  obtain rfl := List.mem_singleton.mp hm
  unfold CallbacksUnknown
  decide

theorem moduleOffset_callingModule : moduleOffset [callingModule] callingModule = 1 := by decide

theorem holdsOffset_callingModule : HoldsOffset adder (fun v => v.toNat % 2 ^ 32)
    (functionIndexOffsetPrefix ++ callingModule.identifier)
    (moduleOffset [callingModule] callingModule) := by
  intro k args world
  refine ⟨(1 : Int), ((k + 1 : Nat) : Int), rfl, rfl, ?_⟩
  rw [moduleOffset_callingModule]
  rfl

theorem exists_insertCallbacks_callingModule : ∃ m', insertCallbacks callingModule = some m' := by
  obtain ⟨m', info, hinsert, -⟩ := @insertCallbacks_spec callingModule
    (by unfold CallbacksPaired; decide) (by decide)
  exact ⟨m', hinsert⟩

end Mull.InstrumentedBehaviour
