import Mathlib.Algebra.GroupWithZero.Nat
import Mull.Callbacks

/-!
# Numbering the functions

The functions of a program are numbered twice.  `recordFunctions` goes through the
modules of the program and stores their definitions one after another, after a null
entry; `insertCallbacks` goes through a module that was parsed again from the same
buffer and counts its definitions from zero.  At run time the callbacks add the number
of functions stored before the module, which they find through a variable whose name
ends in the module's identifier.

The two copies of a module are not the same: `addBitcode` deletes the bodies of
functions that are named like the callbacks in one of them only.
-/

namespace Mull.FunctionNumbering

open IR Callbacks

def enterFunctionName : String := "mull_enterFunction"

def leaveFunctionName : String := "mull_leaveFunction"

def instrumentationInfoVariableName : String := "mull_instrumentation_info"

def functionIndexOffsetPrefix : String := "mull_function_index_offset_"

/-! ### The program -/

/-- A module with the buffer it was parsed from. -/
structure Bitcode where
  module : Module
  buffer : Module
deriving DecidableEq, Repr

/-- A freshly loaded module. -/
def Bitcode.load (m : Module) : Bitcode := ⟨m, m⟩

/-- `Bitcode::clone`: the buffer is parsed again, under the same identifier. -/
def Bitcode.clone (bitcode : Bitcode) : Module :=
  { bitcode.buffer with identifier := bitcode.module.identifier }

/-- Named like one of the callbacks. -/
def isCallbackName (name : String) : Bool :=
  name = enterFunctionName || name = leaveFunctionName

def deleteCallbackBody (function : Function) : Function :=
  if isCallbackName function.name then { function with blocks := [] } else function

/-- `Program::addBitcode`; `none` is the failed assertion on the identifier. -/
def addBitcode (program : List Bitcode) (bitcode : Bitcode) : Option (List Bitcode) :=
  let m := { bitcode.module with functions := bitcode.module.functions.map deleteCallbackBody }
  if m.identifier ∈ program.map (·.module.identifier) then none
  else some (program ++ [{ bitcode with module := m }])

def loadProgram (modules : List Module) : Option (List Bitcode) :=
  (modules.map Bitcode.load).foldlM addBitcode []

/-! ### Recording -/

/-- The positions of the definitions of a module, in order. -/
def definitions (m : Module) : List Nat :=
  (List.range m.functions.length).filter fun k =>
    m.functions[k]?.any fun function => !function.isDeclaration

/-- The table of functions, each given by its module and its position there, and the
    offsets of the modules. -/
structure Instrumentation where
  functions : List (Option (Nat × Nat))
  functionOffsetMapping : String → Option Nat

def Instrumentation.initial : Instrumentation := ⟨[none], fun _ => none⟩

def recordFunctions (instrumentation : Instrumentation) (i : Nat) (m : Module) :
    Instrumentation where
  functions := instrumentation.functions ++ (definitions m).map fun k => some (i, k)
  functionOffsetMapping := Function.update instrumentation.functionOffsetMapping m.identifier
    (some (instrumentation.functions.length % 2 ^ 32))

/-- The loop over the program's modules, from module `i` on. -/
def recordFrom : Nat → Instrumentation → List Bitcode → Instrumentation
  | _, instrumentation, [] => instrumentation
  | i, instrumentation, bitcode :: program =>
      recordFrom (i + 1) (recordFunctions instrumentation i bitcode.module) program

def recordProgram (program : List Bitcode) : Instrumentation :=
  recordFrom 0 .initial program

/-! ### Inserting the callbacks -/

def callbackType : FunctionType := ⟨.void, [.pointer, .int 32], false⟩

/-- The two callbacks of the module, declared if neither is there; `none` is the failed
    assertion when one of them is missing. -/
def declareCallbacks (m : Module) : Option (Module × Nat × Nat) :=
  match m.getFunction enterFunctionName, m.getFunction leaveFunctionName with
  | some enterFunction, some leaveFunction => some (m, enterFunction, leaveFunction)
  | none, none =>
      let callbacks := [⟨enterFunctionName, callbackType, []⟩, ⟨leaveFunctionName, callbackType, []⟩]
      some ({ m with functions := m.functions ++ callbacks }, m.functions.length,
        m.functions.length + 1)
  | _, _ => none

/-- One iteration of the loop of `insertCallbacks`; `index` counts the definitions. -/
def insertCallback (info offset : Operand) (state : Module × Nat) (k : Nat) :
    Option (Module × Nat) :=
  match state.1.functions[k]? with
  | none => some state
  | some function =>
      if function.isDeclaration then some state
      else
        (declareCallbacks state.1).map fun (m, enterFunction, leaveFunction) =>
          (m.setFunction k (injectCallbacks function state.2 info offset enterFunction
            leaveFunction), (state.2 + 1) % 2 ^ 32)

/-- `insertCallbacks`.  The callbacks it declares come last in the module and have no
    bodies, so the loop is over the functions that were there before. -/
def insertCallbacks (m : Module) : Option Module :=
  let (m, info) := m.getOrInsertGlobal instrumentationInfoVariableName
  let (m, offset) := m.getOrInsertGlobal (functionIndexOffsetPrefix ++ m.identifier)
  ((List.range m.functions.length).foldlM (insertCallback (.global info) (.global offset))
    (m, 0)).map Prod.fst

/-! ### Resolving the offset -/

/-- What a symbol is resolved to. -/
inductive Symbol where
  | override
  | process (address : Nat)
  | info
  | offset (moduleName : String)
deriving DecidableEq, Repr

section Resolver

-- the mangling prefix of the platform, and the symbols of the host process
variable (mangling : String) (inProcess : String → Option Nat)

def getNameWithPrefix (name : String) : String := mangling ++ name

def overrides : List String :=
  [getNameWithPrefix mangling "__dso_handle", getNameWithPrefix mangling "__cxa_atexit"]

/-- `InstrumentationResolver::findSymbol`. -/
def findSymbol (name : String) : Option Symbol :=
  let functionOffsetPrefix := getNameWithPrefix mangling functionIndexOffsetPrefix
  if name ∈ overrides mangling then some .override
  else
    match inProcess name with
    | some address => some (.process address)
    | none =>
        if name = getNameWithPrefix mangling instrumentationInfoVariableName then some .info
        else if functionOffsetPrefix.toList <:+: name.toList then
          some (.offset (String.ofList (name.toList.drop functionOffsetPrefix.length)))
        else none

/-- The value of a module's offset variable; `mapping[moduleName]` is zero for a module
    that is not there. -/
def offsetValue (instrumentation : Instrumentation) (variableName : String) : Option Nat :=
  match findSymbol mangling inProcess (getNameWithPrefix mangling variableName) with
  | some (.offset moduleName) =>
      some ((instrumentation.functionOffsetMapping moduleName).getD 0)
  | _ => none

end Resolver

/-- The number that the code at the start of a function passes to `mull_enterFunction`. -/
def passedIndex (offsetValue : String → Option Nat) (function : Function) : Option Nat :=
  match function.blocks with
  | (.load (.global name) r :: .compute .add [.constant (.int 32 index), .register r'] sum ::
      .call _ [_, .register argument] _ :: _) :: _ =>
      if r = r' ∧ sum = argument then
        (offsetValue name).map fun offset => (index.toNat + offset) % 2 ^ 32
      else none
  | _ => none

/-- The number passed at run time by function `k` of module `i`. -/
def runtimeIndex (mangling : String) (inProcess : String → Option Nat) (program : List Bitcode)
    (i k : Nat) : Option Nat := do
  let bitcode ← program[i]?
  let instrumented ← insertCallbacks bitcode.clone
  let function ← instrumented.functions[k]?
  passedIndex (offsetValue mangling inProcess (recordProgram program)) function

/-! ### Definitions and their ranks -/

/-- Function `k` of the module has a body. -/
def IsDefinition (m : Module) (k : Nat) : Prop :=
  ∃ function, m.functions[k]? = some function ∧ function.isDeclaration = false

/-- The definitions among the first `j` functions. -/
def definitionsBelow (m : Module) (j : Nat) : List Nat :=
  (List.range j).filter fun k => m.functions[k]?.any fun function => !function.isDeclaration

theorem isDefinition_iff {m : Module} {k : Nat} :
    IsDefinition m k ↔ (m.functions[k]?.any fun function => !function.isDeclaration) = true := by
  unfold IsDefinition
  cases m.functions[k]? <;> simp

theorem isDefinition_of_getElem? {m : Module} {k : Nat} {function : Function}
    (h : m.functions[k]? = some function) :
    IsDefinition m k ↔ function.isDeclaration = false := by
  simp [IsDefinition, h]

theorem mem_definitions_iff {m : Module} {k : Nat} : k ∈ definitions m ↔ IsDefinition m k := by
  rw [definitions, List.mem_filter, ← isDefinition_iff, List.mem_range]
  refine ⟨And.right, fun h => ⟨?_, h⟩⟩
  obtain ⟨function, hget, -⟩ := h
  exact (List.getElem?_eq_some_iff.mp hget).1

theorem definitions_nodup (m : Module) : (definitions m).Nodup :=
  List.nodup_range.filter _

theorem definitionsBelow_succ (m : Module) (j : Nat) [Decidable (IsDefinition m j)] :
    definitionsBelow m (j + 1) =
      definitionsBelow m j ++ if IsDefinition m j then [j] else [] := by
  rw [definitionsBelow, List.range_succ, List.filter_append, ← definitionsBelow]
  congr 1
  split
  · rename_i h
    simp [isDefinition_iff.mp h]
  · rename_i h
    have hfalse := fun htrue => h (isDefinition_iff.mpr htrue)
    simpa using hfalse

/-- A definition stands in the list of definitions after those before it. -/
theorem definitions_rank {m : Module} {k : Nat} (h : IsDefinition m k) :
    (definitions m)[(definitionsBelow m k).length]? = some k := by
  have hlt : k < m.functions.length := by
    obtain ⟨function, hget, -⟩ := h
    exact (List.getElem?_eq_some_iff.mp hget).1
  obtain ⟨d, hd⟩ : ∃ d, m.functions.length = (k + 1) + d := ⟨m.functions.length - (k + 1), by omega⟩
  rw [definitions, hd, List.range_add, List.filter_append, ← definitionsBelow]
  classical
  rw [definitionsBelow_succ, if_pos h, List.append_assoc,
    List.getElem?_append_right (Nat.le_refl _), Nat.sub_self]
  rfl

/-! ### What is recorded -/

/-- The entries are distinct, and those of modules come from modules before `i`. -/
structure RecordedBefore (i : Nat) (instrumentation : Instrumentation) : Prop where
  nodup : instrumentation.functions.Nodup
  before : ∀ j k, some (j, k) ∈ instrumentation.functions → j < i

theorem RecordedBefore.initial : RecordedBefore 0 .initial where
  nodup := by simp [Instrumentation.initial]
  before j k h := by simp [Instrumentation.initial] at h

theorem RecordedBefore.record {i : Nat} {instrumentation : Instrumentation}
    (h : RecordedBefore i instrumentation) (m : Module) :
    RecordedBefore (i + 1) (recordFunctions instrumentation i m) where
  nodup := by
    refine List.nodup_append.mpr ⟨h.nodup, ?_, ?_⟩
    · exact (definitions_nodup m).map fun _ _ heq => by simpa using heq
    · rintro entry hentry other hother rfl
      obtain ⟨k, -, rfl⟩ := List.mem_map.mp hother
      exact Nat.lt_irrefl _ (h.before i k hentry)
  before j k hmem := by
    rcases List.mem_append.mp hmem with hold | hnew
    · exact Nat.lt_succ_of_lt (h.before j k hold)
    · obtain ⟨k', -, heq⟩ := List.mem_map.mp hnew
      simp only [Option.some.injEq, Prod.mk.injEq] at heq
      omega

theorem RecordedBefore.recordFrom {i : Nat} {instrumentation : Instrumentation}
    (h : RecordedBefore i instrumentation) (program : List Bitcode) :
    RecordedBefore (i + program.length) (recordFrom i instrumentation program) := by
  induction program generalizing i instrumentation with
  | nil => exact h
  | cons bitcode program ih =>
      rw [FunctionNumbering.recordFrom, List.length_cons, Nat.add_comm program.length, ← Nat.add_assoc]
      exact ih (h.record bitcode.module)

/-- Recording later modules keeps the table and the offsets of the others. -/
theorem recordFrom_keeps {i : Nat} {instrumentation : Instrumentation} {program : List Bitcode} :
    instrumentation.functions <+: (recordFrom i instrumentation program).functions ∧
    ∀ identifier, identifier ∉ program.map (·.module.identifier) →
      (recordFrom i instrumentation program).functionOffsetMapping identifier =
        instrumentation.functionOffsetMapping identifier := by
  induction program generalizing i instrumentation with
  | nil => exact ⟨List.prefix_refl _, fun _ _ => rfl⟩
  | cons bitcode program ih =>
      obtain ⟨htable, hoffset⟩ := @ih (i + 1) (recordFunctions instrumentation i bitcode.module)
      refine ⟨(List.prefix_append _ _).trans htable, fun identifier hnot => ?_⟩
      simp only [List.map_cons, List.mem_cons, not_or] at hnot
      rw [recordFrom, hoffset identifier hnot.2]
      exact Function.update_of_ne hnot.1 _ _

/-- The functions of a module are stored one after another from its offset on. -/
theorem recordFrom_module {i : Nat} {instrumentation : Instrumentation} {program : List Bitcode}
    (hdistinct : (program.map (·.module.identifier)).Nodup) {j : Nat} {bitcode : Bitcode}
    (hget : program[j]? = some bitcode) :
    ∃ offset, (recordFrom i instrumentation program).functionOffsetMapping
        bitcode.module.identifier = some (offset % 2 ^ 32) ∧
      ∀ r k, (definitions bitcode.module)[r]? = some k →
        (recordFrom i instrumentation program).functions[offset + r]? = some (some (i + j, k)) := by
  induction program generalizing i j instrumentation with
  | nil => cases hget
  | cons first program ih =>
      simp only [List.map_cons, List.nodup_cons] at hdistinct
      cases j with
      | zero =>
          obtain rfl : first = bitcode := by simpa using hget
          obtain ⟨⟨rest, hrest⟩, hoffset⟩ := @recordFrom_keeps (i + 1)
            (recordFunctions instrumentation i first.module) program
          refine ⟨instrumentation.functions.length, ?_, fun r k hk => ?_⟩
          · rw [recordFrom, hoffset _ hdistinct.1]
            exact Function.update_self _ _ _
          · have hlt := (List.getElem?_eq_some_iff.mp hk).1
            rw [recordFrom, ← hrest, recordFunctions, List.append_assoc,
              List.getElem?_append_right (Nat.le_add_right _ _), Nat.add_sub_cancel_left,
              List.getElem?_append_left (by simpa using hlt), List.getElem?_map, hk]
            rfl
      | succ j =>
          rw [recordFrom, Nat.add_comm j 1, ← Nat.add_assoc]
          exact ih hdistinct.2 (by simpa using hget)

/-- Every entry but the null one is a definition of a module of the program. -/
theorem mem_recordFrom {i : Nat} {instrumentation : Instrumentation} {program : List Bitcode}
    {j k : Nat} (hmem : some (j, k) ∈ (recordFrom i instrumentation program).functions) :
    some (j, k) ∈ instrumentation.functions ∨
      ∃ l bitcode, j = i + l ∧ program[l]? = some bitcode ∧ k ∈ definitions bitcode.module := by
  induction program generalizing i instrumentation with
  | nil => exact .inl hmem
  | cons first program ih =>
      rw [recordFrom] at hmem
      rcases ih hmem with hold | ⟨l, bitcode, rfl, hget, hk⟩
      · rcases List.mem_append.mp hold with hold | hnew
        · exact .inl hold
        · obtain ⟨k', hk', heq⟩ := List.mem_map.mp hnew
          simp only [Option.some.injEq, Prod.mk.injEq] at heq
          obtain ⟨rfl, rfl⟩ := heq
          exact .inr ⟨0, first, rfl, rfl, hk'⟩
      · exact .inr ⟨l + 1, bitcode, by omega, by simpa using hget, hk⟩

theorem length_recordFrom (i : Nat) (instrumentation : Instrumentation) (program : List Bitcode) :
    (recordFrom i instrumentation program).functions.length = instrumentation.functions.length +
      (program.map fun bitcode => (definitions bitcode.module).length).sum := by
  induction program generalizing i instrumentation with
  | nil => rfl
  | cons first program ih =>
      rw [recordFrom, ih, recordFunctions, List.length_append, List.length_map, List.map_cons,
        List.sum_cons, Nat.add_assoc]

/-! ### What is inserted -/

def functionNames (m : Module) : List String := m.functions.map Function.name

/-- The two callbacks are both known to the module or both unknown. -/
def CallbacksPaired (m : Module) : Prop :=
  enterFunctionName ∈ functionNames m ↔ leaveFunctionName ∈ functionNames m

theorem getFunction_isSome {m : Module} {name : String} :
    (m.getFunction name).isSome = true ↔ name ∈ functionNames m := by
  simp [Module.getFunction, functionNames, List.findIdx?_isSome, List.any_eq_true]

/-- The callbacks are found or declared if they are paired, and the assertion fails if
    they are not. -/
theorem declareCallbacks_cases (m : Module) :
    (CallbacksPaired m ∧ ∃ m' enterFunction leaveFunction,
      declareCallbacks m = some (m', enterFunction, leaveFunction) ∧
      m.functions <+: m'.functions ∧ CallbacksPaired m') ∨
    (¬ CallbacksPaired m ∧ declareCallbacks m = none) := by
  unfold declareCallbacks CallbacksPaired
  rw [← getFunction_isSome, ← getFunction_isSome]
  cases henter : m.getFunction enterFunctionName with
  | none =>
      cases hleave : m.getFunction leaveFunctionName with
      | none =>
          refine .inl ⟨by simp, _, _, _, rfl, List.prefix_append _ _, ?_⟩
          simp [functionNames]
      | some leaveFunction => exact .inr ⟨by simp, rfl⟩
  | some enterFunction =>
      cases hleave : m.getFunction leaveFunctionName with
      | none => exact .inr ⟨by simp, rfl⟩
      | some leaveFunction =>
          refine .inl ⟨by simp, m, _, _, rfl, List.prefix_refl _, ?_⟩
          rw [← getFunction_isSome, ← getFunction_isSome, henter, hleave]
          simp

/-- The state of the loop before function `j`: the definitions before it have their
    callbacks, with their ranks as numbers, and the rest is as it was. -/
structure Inserted (m : Module) (info offset : Operand) (j : Nat) (state : Module × Nat) :
    Prop where
  index : state.2 = (definitionsBelow m j).length % 2 ^ 32
  paired : CallbacksPaired state.1
  rest : ∀ k, j ≤ k → k < m.functions.length → state.1.functions[k]? = m.functions[k]?
  done : ∀ k function, k < j → m.functions[k]? = some function → function.isDeclaration = false →
    ∃ enterFunction leaveFunction, state.1.functions[k]? = some (injectCallbacks function
      ((definitionsBelow m k).length % 2 ^ 32) info offset enterFunction leaveFunction)

/-! One iteration at a declaration, at a definition and at any function. -/

section Next

variable {m : Module} {info offset : Operand} {j : Nat} {state : Module × Nat}
  {function : Function}

theorem Inserted.declaration (h : Inserted m info offset j state)
    (hget : m.functions[j]? = some function) (hdecl : function.isDeclaration = true) :
    insertCallback info offset state j = some state ∧ Inserted m info offset (j + 1) state := by
  classical
  have hstate := (h.rest j (Nat.le_refl _) (List.getElem?_eq_some_iff.mp hget).1).trans hget
  have hnot : ¬ IsDefinition m j := by
    rw [isDefinition_of_getElem? hget, hdecl]
    simp
  refine ⟨by simp only [insertCallback, hstate, hdecl, if_true], ?_⟩
  constructor
  case index =>
    rw [definitionsBelow_succ, if_neg hnot, List.append_nil]
    exact h.index
  case paired => exact h.paired
  case rest => exact fun k hk => h.rest k (by omega)
  case done =>
    intro k other hk hother hbody
    by_cases hkj : k = j
    · subst hkj
      exact absurd ⟨other, hother, hbody⟩ hnot
    · exact h.done k other (by omega) hother hbody

theorem Inserted.definition (h : Inserted m info offset j state)
    (hget : m.functions[j]? = some function) (hbody : function.isDeclaration = false)
    {m' : Module} (hextends : state.1.functions <+: m'.functions) (hpaired : CallbacksPaired m')
    (enterFunction leaveFunction : Nat) :
    Inserted m info offset (j + 1)
      (m'.setFunction j (injectCallbacks function state.2 info offset enterFunction leaveFunction),
        (state.2 + 1) % 2 ^ 32) := by
  classical
  have hj := (List.getElem?_eq_some_iff.mp hget).1
  have hm' : ∀ (k : Nat) other, state.1.functions[k]? = some other →
      m'.functions[k]? = some other := by
    intro k other hother
    obtain ⟨hlt, rfl⟩ := List.getElem?_eq_some_iff.mp hother
    exact List.prefix_iff_getElem?.mp hextends k hlt
  have hstate := hm' j function ((h.rest j (Nat.le_refl _) hj).trans hget)
  constructor
  case index =>
    rw [definitionsBelow_succ, if_pos ⟨function, hget, hbody⟩, List.length_append,
      List.length_singleton, h.index]
    simp only
    omega
  case paired =>
    have hnames := Module.map_name_setFunction hstate
      (show (injectCallbacks function state.2 info offset enterFunction
        leaveFunction).name = function.name from rfl)
    unfold CallbacksPaired functionNames at hpaired ⊢
    rwa [hnames]
  case rest =>
    intro k hk hlt
    have hold := h.rest k (by omega) hlt
    simp only [Module.setFunction]
    rw [List.getElem?_set_ne (by omega), List.getElem?_eq_getElem hlt]
    rw [List.getElem?_eq_getElem hlt] at hold
    exact hm' k _ hold
  case done =>
    intro k other hk hother hdefined
    by_cases hkj : k = j
    · subst hkj
      rw [hget] at hother
      obtain rfl := Option.some.inj hother
      refine ⟨enterFunction, leaveFunction, ?_⟩
      simp only [Module.setFunction]
      rw [List.getElem?_set_self (List.getElem?_eq_some_iff.mp hstate).1, h.index]
    · obtain ⟨enterFunction', leaveFunction', hdone⟩ :=
        h.done k other (by omega) hother hdefined
      refine ⟨enterFunction', leaveFunction', ?_⟩
      simp only [Module.setFunction]
      rw [List.getElem?_set_ne (Ne.symm hkj)]
      exact hm' k _ hdone

theorem Inserted.next (h : Inserted m info offset j state) (hj : j < m.functions.length) :
    ∃ state', insertCallback info offset state j = some state' ∧
      Inserted m info offset (j + 1) state' := by
  have hget := List.getElem?_eq_getElem hj
  have hstate := (h.rest j (Nat.le_refl _) hj).trans hget
  cases hdecl : m.functions[j].isDeclaration with
  | true => exact ⟨state, h.declaration hget hdecl⟩
  | false =>
      rcases declareCallbacks_cases state.1 with
        ⟨-, m', enterFunction, leaveFunction, hdeclare, hextends, hpaired⟩ | ⟨hnot, -⟩
      · refine ⟨_, ?_,
          h.definition hget hdecl hextends hpaired enterFunction leaveFunction⟩
        simp only [insertCallback, hstate, hdecl, hdeclare, Bool.false_eq_true, if_false,
          Option.map_some]
      · exact absurd h.paired hnot

end Next

theorem Inserted.loop {m : Module} {info offset : Operand} (hpaired : CallbacksPaired m) {j : Nat}
    (hj : j ≤ m.functions.length) :
    ∃ state, (List.range j).foldlM (insertCallback info offset) (m, 0) = some state ∧
      Inserted m info offset j state := by
  induction j with
  | zero =>
      refine ⟨(m, 0), rfl, rfl, hpaired, fun _ _ _ => rfl, ?_⟩
      intro k function hk
      omega
  | succ j ih =>
      obtain ⟨state, hfold, hinserted⟩ := ih (by omega)
      obtain ⟨state', hstep, hinserted'⟩ := hinserted.next (by omega)
      refine ⟨state', ?_, hinserted'⟩
      rw [List.range_succ, List.foldlM_append, hfold]
      simpa using hstep

/-- With unpaired callbacks the assertion fails at the first definition. -/
theorem not_definition_of_loop {m : Module} {info offset : Operand} (hpaired : ¬ CallbacksPaired m)
    {j : Nat} {state : Module × Nat} (hj : j ≤ m.functions.length)
    (hfold : (List.range j).foldlM (insertCallback info offset) (m, 0) = some state) :
    state = (m, 0) ∧ ∀ k < j, ¬ IsDefinition m k := by
  induction j generalizing state with
  | zero => exact ⟨(Option.some.inj hfold).symm, fun k hk => absurd hk (Nat.not_lt_zero k)⟩
  | succ j ih =>
      rw [List.range_succ, List.foldlM_append] at hfold
      simp only [Option.bind_eq_bind, Option.bind_eq_some_iff, List.foldlM_cons,
        List.foldlM_nil] at hfold
      obtain ⟨before, hbefore, after, hstep, hafter⟩ := hfold
      obtain ⟨rfl, hnone⟩ := ih (by omega) hbefore
      obtain rfl := Option.some.inj hafter
      have hget := List.getElem?_eq_getElem (show j < m.functions.length by omega)
      cases hdecl : m.functions[j].isDeclaration with
      | true =>
          refine ⟨?_, fun k hk => ?_⟩
          · simpa [insertCallback, hget, hdecl] using hstep.symm
          · by_cases hkj : k = j
            · subst hkj
              rw [isDefinition_of_getElem? hget, hdecl]
              simp
            · exact hnone k (by omega)
      | false =>
          rcases declareCallbacks_cases m with ⟨hyes, -⟩ | ⟨-, hdeclare⟩
          · exact absurd hyes hpaired
          · simp [insertCallback, hget, hdecl, hdeclare] at hstep

theorem uniqueName_starts (taken : List String) (name : String) :
    name.toList <+: (Module.uniqueName taken name).toList := by
  have hgetD : ∀ found : Option String, (∀ candidate, found = some candidate →
      name.toList <+: candidate.toList) → name.toList <+: (found.getD name).toList := by
    intro found hfound
    cases found with
    | none => exact List.prefix_refl _
    | some candidate => exact hfound candidate rfl
  unfold Module.uniqueName
  split
  · apply hgetD
    intro candidate hfind
    obtain ⟨k, -, rfl⟩ := List.mem_map.mp (List.mem_of_find?_eq_some hfind)
    rw [String.toList_append, String.toList_append, List.append_assoc]
    exact List.prefix_append _ _
  · exact List.prefix_refl _

/-- The two kinds of variables have different names. -/
theorem info_ne_offset {name identifier : String}
    (h : instrumentationInfoVariableName.toList <+: name.toList) :
    name ≠ functionIndexOffsetPrefix ++ identifier := by
  rintro rfl
  obtain ⟨rest, hrest⟩ := h
  rw [String.toList_append] at hrest
  have hchar : (instrumentationInfoVariableName.toList ++ rest)[5]? =
      (functionIndexOffsetPrefix.toList ++ identifier.toList)[5]? := by rw [hrest]
  rw [List.getElem?_append_left (by decide), List.getElem?_append_left (by decide)] at hchar
  revert hchar
  decide

theorem offset_not_mem {m : Module} {identifier : String}
    (h : functionIndexOffsetPrefix ++ identifier ∉ m.names) :
    functionIndexOffsetPrefix ++ identifier ∉
      (m.getOrInsertGlobal instrumentationInfoVariableName).1.names := by
  unfold Module.getOrInsertGlobal
  split
  · exact h
  · intro hmem
    simp only [Module.names, List.mem_append, List.mem_singleton] at hmem h
    rcases hmem with hfunction | hglobal | hnew
    · exact h (.inl hfunction)
    · exact h (.inr hglobal)
    · exact info_ne_offset (uniqueName_starts _ _) hnew.symm

theorem insertCallbacks_spec {m : Module} (hpaired : CallbacksPaired m)
    (hreserved : functionIndexOffsetPrefix ++ m.identifier ∉ m.names) :
    ∃ instrumented info, insertCallbacks m = some instrumented ∧
      ∀ k function, m.functions[k]? = some function → function.isDeclaration = false →
        ∃ enterFunction leaveFunction, instrumented.functions[k]? = some (injectCallbacks function
          ((definitionsBelow m k).length % 2 ^ 32) info
          (.global (functionIndexOffsetPrefix ++ m.identifier)) enterFunction leaveFunction) := by
  obtain ⟨m₁, hm₁⟩ : ∃ m₁, (m.getOrInsertGlobal instrumentationInfoVariableName).1 = m₁ := ⟨_, rfl⟩
  obtain ⟨hfunctions₁, hidentifier₁⟩ := Module.getOrInsertGlobal_functions m instrumentationInfoVariableName
  have hnot := offset_not_mem hreserved
  rw [hm₁] at hfunctions₁ hidentifier₁ hnot
  obtain ⟨hfunctions₂, -⟩ :=
    Module.getOrInsertGlobal_functions m₁ (functionIndexOffsetPrefix ++ m.identifier)
  rw [hfunctions₁] at hfunctions₂
  have hoffset := Module.getOrInsertGlobal_of_not_mem hnot
  obtain ⟨m₂, hm₂⟩ :
    ∃ m₂, (m₁.getOrInsertGlobal (functionIndexOffsetPrefix ++ m.identifier)).1 = m₂ := ⟨_, rfl⟩
  rw [hm₂] at hfunctions₂
  have hpaired₂ : CallbacksPaired m₂ := by
    unfold CallbacksPaired functionNames at hpaired ⊢
    rwa [hfunctions₂]
  obtain ⟨state, hfold, hinserted⟩ := @Inserted.loop m₂
    (.global (m.getOrInsertGlobal instrumentationInfoVariableName).2)
    (.global (functionIndexOffsetPrefix ++ m.identifier)) hpaired₂ _ (Nat.le_refl _)
  refine ⟨state.1, .global (m.getOrInsertGlobal instrumentationInfoVariableName).2, ?_, ?_⟩
  · simp only [insertCallbacks, hm₁, hidentifier₁, hm₂, hoffset, hfold, Option.map_some]
  · intro k function hget hbody
    rw [← hfunctions₂] at hget
    have hdone := hinserted.done k function (List.getElem?_eq_some_iff.mp hget).1 hget hbody
    simpa only [definitionsBelow, hfunctions₂] using hdone

/-- A module whose callbacks are inserted has them paired, if it has definitions. -/
theorem paired_of_insertCallbacks {m instrumented : Module}
    (h : insertCallbacks m = some instrumented) {k : Nat} (hk : IsDefinition m k) :
    CallbacksPaired m := by
  by_contra hpaired
  obtain ⟨hfunctions₁, -⟩ := Module.getOrInsertGlobal_functions m instrumentationInfoVariableName
  obtain ⟨m₁, hm₁⟩ : ∃ m₁, (m.getOrInsertGlobal instrumentationInfoVariableName).1 = m₁ := ⟨_, rfl⟩
  rw [hm₁] at hfunctions₁
  obtain ⟨hfunctions₂, -⟩ :=
    Module.getOrInsertGlobal_functions m₁ (functionIndexOffsetPrefix ++ m₁.identifier)
  obtain ⟨m₂, hm₂⟩ :
    ∃ m₂, (m₁.getOrInsertGlobal (functionIndexOffsetPrefix ++ m₁.identifier)).1 = m₂ := ⟨_, rfl⟩
  rw [hm₂, hfunctions₁] at hfunctions₂
  simp only [insertCallbacks, hm₁, hm₂, Option.map_eq_some_iff] at h
  obtain ⟨state, hfold, -⟩ := h
  have hpaired₂ : ¬ CallbacksPaired m₂ := by
    unfold CallbacksPaired functionNames at hpaired ⊢
    rwa [hfunctions₂]
  obtain ⟨-, hnone⟩ := not_definition_of_loop hpaired₂ (Nat.le_refl _) hfold
  obtain ⟨function, hget, hbody⟩ := hk
  rw [← hfunctions₂] at hget
  exact hnone k (List.getElem?_eq_some_iff.mp hget).1 ⟨function, hget, hbody⟩

theorem passedIndex_injectCallbacks {function : Function} (hbody : function.isDeclaration = false)
    (values : String → Option Nat) (index : Nat) (info : Operand) (offset : String)
    (enterFunction leaveFunction : Nat) :
    passedIndex values (injectCallbacks function index info (.global offset) enterFunction
      leaveFunction) = (values offset).map fun value => (index + value) % 2 ^ 32 := by
  unfold Function.isDeclaration at hbody
  cases hblocks : function.blocks with
  | nil => simp [hblocks] at hbody
  | cons block blocks => simp [injectCallbacks, hblocks, callbackCode, passedIndex]

/-! ### What is resolved -/

section Resolver

variable {mangling : String} {inProcess : String → Option Nat}

theorem findSymbol_offset {identifier : String}
    (hprocess : inProcess (getNameWithPrefix mangling (functionIndexOffsetPrefix ++ identifier)) =
      none) :
    findSymbol mangling inProcess
      (getNameWithPrefix mangling (functionIndexOffsetPrefix ++ identifier)) =
      some (.offset identifier) := by
  have hne : ∀ name : String, (name.toList[0]? ≠ some 'm' ∨ name.toList[5]? ≠ some 'f') →
      mangling ++ (functionIndexOffsetPrefix ++ identifier) ≠ mangling ++ name := by
    intro name hname heq
    rw [← (String.append_right_inj _).mp heq, String.toList_append] at hname
    rw [List.getElem?_append_left (by decide), List.getElem?_append_left (by decide)] at hname
    revert hname
    decide
  have hoverride : mangling ++ (functionIndexOffsetPrefix ++ identifier) ∉ overrides mangling := by
    simp only [overrides, getNameWithPrefix, List.mem_cons, List.not_mem_nil, or_false, not_or]
    exact ⟨hne _ (by decide), hne _ (by decide)⟩
  have hinfo := hne instrumentationInfoVariableName (by decide)
  have hsplit : (mangling ++ (functionIndexOffsetPrefix ++ identifier)).toList =
      (mangling ++ functionIndexOffsetPrefix).toList ++ identifier.toList := by
    simp [String.toList_append]
  have hcontains : (mangling ++ functionIndexOffsetPrefix).toList <:+:
      (mangling ++ functionIndexOffsetPrefix).toList ++ identifier.toList :=
    (List.prefix_append _ _).isInfix
  simp only [getNameWithPrefix] at hprocess
  simp only [findSymbol, getNameWithPrefix, hoverride, hprocess, hinfo, hsplit, hcontains, if_true,
    if_false, ← String.length_toList, List.drop_left, String.ofList_toList]

theorem offsetValue_module {instrumentation : Instrumentation} {identifier : String}
    (hprocess : inProcess (getNameWithPrefix mangling (functionIndexOffsetPrefix ++ identifier)) =
      none) :
    offsetValue mangling inProcess instrumentation (functionIndexOffsetPrefix ++ identifier) =
      some ((instrumentation.functionOffsetMapping identifier).getD 0) := by
  simp only [offsetValue, findSymbol_offset hprocess]

end Resolver

/-! ### The two numberings -/

/-- The bitcode of a module in the program. -/
def registered (m : Module) : Bitcode :=
  ⟨{ m with functions := m.functions.map deleteCallbackBody }, m⟩

theorem loadProgram_eq {modules : List Module} (h : (modules.map Module.identifier).Nodup) :
    loadProgram modules = some (modules.map registered) := by
  have hfold : ∀ before : List Module, ((before ++ modules).map Module.identifier).Nodup →
      (modules.map Bitcode.load).foldlM addBitcode (before.map registered) =
        some ((before ++ modules).map registered) := by
    clear h
    induction modules with
    | nil =>
        intro before _
        simp
    | cons m modules ih =>
        intro before hnodup
        have hnew : m.identifier ∉ (before.map registered).map (·.module.identifier) := by
          have hbefore : (before.map registered).map (·.module.identifier) =
              before.map Module.identifier := by simp [registered, Function.comp_def]
          rw [hbefore]
          rw [List.map_append, List.map_cons, List.nodup_append] at hnodup
          exact fun hmem => hnodup.2.2 _ hmem _ List.mem_cons_self rfl
        have hadd : addBitcode (before.map registered) (Bitcode.load m) =
            some ((before ++ [m]).map registered) := by
          simp only [addBitcode, Bitcode.load, hnew, if_false, List.map_append, List.map_cons,
            List.map_nil]
          rfl
        have hrest := ih (before ++ [m]) (by simpa using hnodup)
        rw [List.map_cons, List.foldlM_cons, hadd]
        simpa using hrest
  exact hfold [] h

/-- Nothing but the bodies of the callbacks is deleted. -/
theorem isDefinition_registered {m : Module} {k : Nat} :
    IsDefinition (registered m).module k ↔
      ∃ function, m.functions[k]? = some function ∧ function.isDeclaration = false ∧
        isCallbackName function.name = false := by
  unfold IsDefinition registered
  simp only [List.getElem?_map, Option.map_eq_some_iff]
  constructor
  · rintro ⟨-, ⟨function, hget, rfl⟩, hbody⟩
    unfold deleteCallbackBody at hbody
    split at hbody
    · simp [Function.isDeclaration] at hbody
    · rename_i hname
      exact ⟨function, hget, hbody, by simpa using hname⟩
  · rintro ⟨function, hget, hbody, hname⟩
    refine ⟨function, ⟨function, hget, ?_⟩, hbody⟩
    simp [deleteCallbackBody, hname]

/-- The module defines neither callback, and declares both or none of them if it has
    definitions at all. -/
structure CallbacksUnused (m : Module) : Prop where
  undefined : ∀ function ∈ m.functions, isCallbackName function.name = true →
    function.isDeclaration = true
  paired : ∀ k, IsDefinition m k → CallbacksPaired m

theorem CallbacksUnused.definitionsBelow {m : Module} (h : CallbacksUnused m) (j : Nat) :
    definitionsBelow (registered m).module j = definitionsBelow m j := by
  unfold FunctionNumbering.definitionsBelow
  apply List.filter_congr
  intro k _
  rw [Bool.eq_iff_iff, ← isDefinition_iff, ← isDefinition_iff, isDefinition_registered]
  constructor
  · exact fun ⟨function, hget, hbody, _⟩ => ⟨function, hget, hbody⟩
  · rintro ⟨function, hget, hbody⟩
    refine ⟨function, hget, hbody, ?_⟩
    by_contra hname
    have hdecl := h.undefined function (List.mem_of_getElem? hget) (by simpa using hname)
    rw [hbody] at hdecl
    cases hdecl

theorem CallbacksUnused.definitions {m : Module} (h : CallbacksUnused m) :
    definitions (registered m).module = definitions m := by
  have hbelow := h.definitionsBelow m.functions.length
  unfold FunctionNumbering.definitionsBelow at hbelow
  simpa [FunctionNumbering.definitions, registered] using hbelow

/-- The number of entries of the table of functions. -/
def tableSize (modules : List Module) : Nat :=
  1 + (modules.map fun m => (definitions m).length).sum

/-- For every function that is defined in the re-parsed copy of its module, the number
    passed at run time is the position at which that function was stored; the numbers
    are in range and distinct. -/
def NumberingAgrees (mangling : String) (inProcess : String → Option Nat)
    (modules : List Module) : Prop :=
  ∃ program, loadProgram modules = some program ∧
    (∀ i k bitcode, program[i]? = some bitcode → IsDefinition bitcode.clone k →
      ∃ index, runtimeIndex mangling inProcess program i k = some index ∧
        (recordProgram program).functions[index]? = some (some (i, k)) ∧
        1 ≤ index ∧ index < (recordProgram program).functions.length) ∧
    ∀ i k i' k' index, runtimeIndex mangling inProcess program i k = some index →
      runtimeIndex mangling inProcess program i' k' = some index →
      (∃ bitcode, program[i]? = some bitcode ∧ IsDefinition bitcode.clone k) →
      (∃ bitcode, program[i']? = some bitcode ∧ IsDefinition bitcode.clone k') →
      (i, k) = (i', k')

section Agreement

variable {mangling : String} {inProcess : String → Option Nat} {modules : List Module}

theorem clone_registered (m : Module) : (registered m).clone = m := rfl

theorem identifiers_registered (modules : List Module) :
    (modules.map registered).map (·.module.identifier) = modules.map Module.identifier := by
  simp [registered, Function.comp_def]

theorem length_recordProgram (modules : List Module) (h : ∀ m ∈ modules, CallbacksUnused m) :
    (recordProgram (modules.map registered)).functions.length = tableSize modules := by
  rw [recordProgram, length_recordFrom, List.map_map, tableSize]
  congr 2
  exact List.map_congr_left fun m hm => by simp [(h m hm).definitions]

/-- The number passed at run time, when the callbacks of the modules are the tool's own
    and the table fits into 32 bits. -/
theorem runtimeIndex_eq (hdistinct : (modules.map Module.identifier).Nodup)
    (hreserved : ∀ m ∈ modules, functionIndexOffsetPrefix ++ m.identifier ∉ m.names)
    (hprocess : ∀ m ∈ modules,
      inProcess (getNameWithPrefix mangling (functionIndexOffsetPrefix ++ m.identifier)) = none)
    (hunused : ∀ m ∈ modules, CallbacksUnused m) (hsize : tableSize modules ≤ 2 ^ 32) {i k : Nat}
    {m : Module} (hm : modules[i]? = some m) (hk : IsDefinition m k) :
    ∃ index, runtimeIndex mangling inProcess (modules.map registered) i k = some index ∧
      (recordProgram (modules.map registered)).functions[index]? = some (some (i, k)) := by
  have hmem := List.mem_of_getElem? hm
  have hget : (modules.map registered)[i]? = some (registered m) := by simp [hm]
  -- where the function is stored
  obtain ⟨offset, hoffset, hstored⟩ := @recordFrom_module 0 .initial _
    (by rw [identifiers_registered]; exact hdistinct) i _ hget
  have hrank := hstored _ k
    (by rw [(hunused m hmem).definitions]; exact definitions_rank hk)
  rw [Nat.zero_add] at hrank
  have hlt := (List.getElem?_eq_some_iff.mp hrank).1
  have hlength := length_recordProgram modules hunused
  rw [recordProgram] at hlength
  -- what the callbacks pass
  obtain ⟨function, hfunction, hbody⟩ := id hk
  obtain ⟨instrumented, info, hinsert, hcallbacks⟩ :=
    insertCallbacks_spec ((hunused m hmem).paired k hk) (hreserved m hmem)
  obtain ⟨enterFunction, leaveFunction, hinstrumented⟩ := hcallbacks k function hfunction hbody
  refine ⟨offset + (definitionsBelow m k).length, ?_, hrank⟩
  have hidentifier : (registered m).module.identifier = m.identifier := rfl
  rw [hidentifier] at hoffset
  simp only [runtimeIndex, hget, Option.bind_eq_bind, Option.bind_some, clone_registered, hinsert,
    hinstrumented, passedIndex_injectCallbacks hbody, offsetValue_module (hprocess m hmem),
    recordProgram, hoffset, Option.getD_some, Option.map_some]
  congr 1
  omega

/-- A function whose number is found in the table was recorded. -/
theorem isDefinition_of_stored {i k index : Nat}
    (h : (recordProgram (modules.map registered)).functions[index]? = some (some (i, k))) :
    ∃ m, modules[i]? = some m ∧ IsDefinition (registered m).module k := by
  rcases mem_recordFrom (List.mem_of_getElem? h) with hnone | ⟨l, bitcode, heq, hget, hk⟩
  · simp [Instrumentation.initial] at hnone
  · obtain rfl : i = l := by omega
    rw [List.getElem?_map, Option.map_eq_some_iff] at hget
    obtain ⟨m, hm, rfl⟩ := hget
    exact ⟨m, hm, mem_definitions_iff.mp hk⟩

theorem runtimeIndex_lt {program : List Bitcode} {i k index : Nat}
    (h : runtimeIndex mangling inProcess program i k = some index) : index < 2 ^ 32 := by
  simp only [runtimeIndex, Option.bind_eq_bind, Option.bind_eq_some_iff] at h
  obtain ⟨bitcode, -, instrumented, -, function, -, hpassed⟩ := h
  unfold passedIndex at hpassed
  split at hpassed
  · split at hpassed
    · obtain ⟨offset, -, rfl⟩ := Option.map_eq_some_iff.mp hpassed
      exact Nat.mod_lt _ (by decide)
    · cases hpassed
  · cases hpassed

theorem NumberingAgrees.callbacksUnused (hdistinct : (modules.map Module.identifier).Nodup)
    (h : NumberingAgrees mangling inProcess modules) : ∀ m ∈ modules, CallbacksUnused m := by
  obtain ⟨program, hprogram, hagrees, -⟩ := h
  rw [loadProgram_eq hdistinct] at hprogram
  obtain rfl := Option.some.inj hprogram
  intro m hm
  obtain ⟨i, hi⟩ := List.getElem?_of_mem hm
  have hget : (modules.map registered)[i]? = some (registered m) := by simp [hi]
  constructor
  · -- a callback that is defined gets a number in the copy, and has none in the table
    intro function hfunction hname
    by_contra hbody
    obtain ⟨k, hk⟩ := List.getElem?_of_mem hfunction
    obtain ⟨index, -, hstored, -⟩ := hagrees i k _ hget ⟨function, hk, by simpa using hbody⟩
    obtain ⟨m', hm', hdef⟩ := isDefinition_of_stored hstored
    rw [hi] at hm'
    obtain rfl := Option.some.inj hm'
    obtain ⟨function', hk', -, hname'⟩ := isDefinition_registered.mp hdef
    rw [hk] at hk'
    rw [← Option.some.inj hk', hname] at hname'
    cases hname'
  · intro k hk
    obtain ⟨index, hindex, -⟩ := hagrees i k _ hget hk
    simp only [runtimeIndex, hget, Option.bind_eq_bind, Option.bind_some,
      Option.bind_eq_some_iff] at hindex
    obtain ⟨instrumented, hinsert, -⟩ := hindex
    exact paired_of_insertCallbacks hinsert hk

theorem NumberingAgrees.tableSize_le (hdistinct : (modules.map Module.identifier).Nodup)
    (h : NumberingAgrees mangling inProcess modules) : tableSize modules ≤ 2 ^ 32 := by
  have hunused := h.callbacksUnused hdistinct
  obtain ⟨program, hprogram, hagrees, -⟩ := h
  rw [loadProgram_eq hdistinct] at hprogram
  obtain rfl := Option.some.inj hprogram
  have hlength := length_recordProgram modules hunused
  by_contra hlarge
  -- the function stored at position `2 ^ 32` cannot be named by a 32-bit number
  have hlt : 2 ^ 32 < (recordProgram (modules.map registered)).functions.length := by omega
  have hrecorded := RecordedBefore.initial.recordFrom (modules.map registered)
  cases hentry : (recordProgram (modules.map registered)).functions[2 ^ 32] with
  | none =>
      have hzero : (recordProgram (modules.map registered)).functions[0]? = some none := by
        obtain ⟨rest, hrest⟩ := (@recordFrom_keeps 0 .initial (modules.map registered)).1
        rw [recordProgram, ← hrest]
        rfl
      have hsame := (List.getElem?_eq_getElem hlt).trans (congrArg some hentry)
      have heq := (List.getElem?_inj (Nat.zero_lt_of_lt hlt) hrecorded.nodup).mp
        (hzero.trans hsame.symm)
      omega
  | some entry =>
      obtain ⟨i, k⟩ := entry
      have hsame := (List.getElem?_eq_getElem hlt).trans (congrArg some hentry)
      obtain ⟨m, hm, hdef⟩ := isDefinition_of_stored hsame
      obtain ⟨function, hfunction, hbody, -⟩ := isDefinition_registered.mp hdef
      obtain ⟨index, hindex, hstored, -⟩ := hagrees i k (registered m) (by simp [hm])
        ⟨function, hfunction, hbody⟩
      have hsmall := runtimeIndex_lt hindex
      have heq := (List.getElem?_inj (Nat.lt_trans hsmall hlt) hrecorded.nodup).mp
        (hstored.trans hsame.symm)
      omega

/-- **The numbering agrees exactly when no module has callbacks of its own and the
    table of functions fits into 32 bits.** -/
theorem numberingAgrees_iff (hdistinct : (modules.map Module.identifier).Nodup)
    (hreserved : ∀ m ∈ modules, functionIndexOffsetPrefix ++ m.identifier ∉ m.names)
    (hprocess : ∀ m ∈ modules,
      inProcess (getNameWithPrefix mangling (functionIndexOffsetPrefix ++ m.identifier)) = none) :
    NumberingAgrees mangling inProcess modules ↔
      (∀ m ∈ modules, CallbacksUnused m) ∧ tableSize modules ≤ 2 ^ 32 := by
  constructor
  · exact fun h => ⟨h.callbacksUnused hdistinct, h.tableSize_le hdistinct⟩
  · rintro ⟨hunused, hsize⟩
    have hindex : ∀ i k bitcode, (modules.map registered)[i]? = some bitcode →
        IsDefinition bitcode.clone k → ∃ index,
          runtimeIndex mangling inProcess (modules.map registered) i k = some index ∧
          (recordProgram (modules.map registered)).functions[index]? = some (some (i, k)) := by
      intro i k bitcode hget hk
      rw [List.getElem?_map, Option.map_eq_some_iff] at hget
      obtain ⟨m, hm, rfl⟩ := hget
      exact runtimeIndex_eq hdistinct hreserved hprocess hunused hsize hm hk
    refine ⟨_, loadProgram_eq hdistinct, ?_, ?_⟩
    · intro i k bitcode hget hk
      obtain ⟨index, hruntime, hstored⟩ := hindex i k bitcode hget hk
      refine ⟨index, hruntime, hstored, ?_, (List.getElem?_eq_some_iff.mp hstored).1⟩
      -- the first entry is the null function
      by_contra hzero
      obtain rfl : index = 0 := by omega
      obtain ⟨rest, hrest⟩ := (@recordFrom_keeps 0 .initial (modules.map registered)).1
      rw [recordProgram, ← hrest] at hstored
      simp [Instrumentation.initial] at hstored
    · rintro i k i' k' index hruntime hruntime' ⟨bitcode, hget, hk⟩ ⟨bitcode', hget', hk'⟩
      obtain ⟨index₁, h₁, hstored₁⟩ := hindex i k bitcode hget hk
      obtain ⟨index₂, h₂, hstored₂⟩ := hindex i' k' bitcode' hget' hk'
      obtain rfl := Option.some.inj (hruntime.symm.trans h₁)
      obtain rfl := Option.some.inj (hruntime'.symm.trans h₂)
      exact Option.some.inj (Option.some.inj (hstored₁.symm.trans hstored₂))

end Agreement

/-! ### A library function in between, and a callback of the program's own -/

def nullary : FunctionType := ⟨.void, [], false⟩

def definition (name : String) : Function := ⟨name, nullary, [[.ret none]]⟩

def declaration (name : String) : Function := ⟨name, nullary, []⟩

/-- `main` and `test`, with a library function declared between them. -/
def testModule : Module := ⟨"test.bc", [definition "main", declaration "puts", definition "test"], []⟩

/-- A module that brings its own definition of a callback. -/
def callbackModule : Module :=
  ⟨"runtime.bc", [definition "mull_enterFunction", definition "mull_leaveFunction",
    definition "helper"], []⟩

theorem numberingAgrees_testModule : NumberingAgrees "_" (fun _ => none) [testModule] := by
  refine (numberingAgrees_iff (by decide) (by decide) (by simp)).mpr ⟨?_, by decide⟩
  intro m hm
  obtain rfl := List.mem_singleton.mp hm
  exact ⟨by decide, fun _ _ => by unfold CallbacksPaired; decide⟩

/-- `helper` is counted third in the copy and stored first. -/
theorem not_numberingAgrees_callbackModule :
    ¬ NumberingAgrees "_" (fun _ => none) [callbackModule] := by
  intro h
  have hunused := h.callbacksUnused (by decide) callbackModule (by simp)
  have hdecl := hunused.undefined (definition "mull_enterFunction") (by decide) (by decide)
  revert hdecl
  decide

end Mull.FunctionNumbering
