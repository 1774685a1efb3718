import Mull.Driver
import Mull.Trampolines

/-!
# Running the mutants

A task loads the prepared program, lets every trampoline point to the copy of the original
body, and then goes through its mutation points: the trampoline of the point's function is
redirected to the clone, the tests run, and the trampoline is put back.

If the names that the passes give are free, the program behaves like the original one while
the trampolines are as they were, and like the original one with one body mutated while the
tests of a point run (`schemata_faithful`).
-/

namespace Mull.MutantExecution

open IR Mutators MutationPoints Schemata Semantics StutterSimulation Trampolines
open Driver (ExecutionResult MutationResult)

/-! ### Loading a program -/

/-- The variables of the trampolines, by their names in object files, and what they hold. -/
abbrev TrampolineMap := List (String × Option Nat)

/-- `JITEngine::getSymbol`: the definition of that name.  Addresses are positions. -/
def getSymbol (mangling : String) (m : Module) (symbol : String) : Option Nat :=
  m.functions.findIdx? fun function =>
    !function.isDeclaration && decide (mangling ++ function.name = symbol)

/-- `insert` leaves a variable of the same name as it is. -/
def allocateTrampolines (mangling : String) (trampolineNames : List String) : TrampolineMap :=
  trampolineNames.foldl (fun trampolines name =>
    if mangling ++ name ∈ trampolines.map Prod.fst then trampolines
    else trampolines ++ [(mangling ++ name, none)]) []

/-- The name of a trampoline with another suffix. -/
def originalNameOf (name : String) : String :=
  String.ofList (name.toList.take (name.length - "_trampoline".length)) ++ "_original"

/-- `none` is a failed assertion. -/
def fixupOriginalFunctions (mangling : String) (m : Module) (trampolines : TrampolineMap) :
    Option TrampolineMap :=
  trampolines.mapM fun entry => do
    let address ← getSymbol mangling m (originalNameOf entry.1)
    some (entry.1, some address)

def findTrampoline (trampolines : TrampolineMap) (name : String) : Option (Option Nat) :=
  trampolines.lookup name

def setTrampoline (trampolines : TrampolineMap) (name : String) (address : Option Nat) :
    TrampolineMap :=
  trampolines.map fun entry => if entry.1 = name then (entry.1, address) else entry

/-- What the variables of the module hold: `MutationResolver` looks for a variable by its
    name in object files. -/
def slotsOf (mangling : String) (trampolines : TrampolineMap) (name : String) : Option Nat :=
  (findTrampoline trampolines (mangling ++ name)).join

/-! ### `MutantExecutionTask` -/

/-- A run of a test, and the trampolines that it meets. -/
structure Run where
  pointer : Pointer
  test : Nat
  trampolines : TrampolineMap

/-- What the sandbox reports; it may depend on everything that has run before. -/
structure Outcomes where
  result : List Run → Run → ExecutionResult
  valid : ∀ before run, (result before run).status ≠ .invalid

structure TaskState where
  trampolines : TrampolineMap
  storage : List MutationResult
  runs : List Run

section Task

variable (mangling : String) (prepared : Prepared) (failFastEnabled : Bool) (outcomes : Outcomes)

/-- The loop over the tests that reach a point. -/
def runTests (pointer : Pointer) : Bool → List (Nat × Int) → TaskState → TaskState
  | _, [], state => state
  | atLeastOneTestFailed, (test, distance) :: reachableTests, state =>
      if failFastEnabled && atLeastOneTestFailed then
        runTests pointer atLeastOneTestFailed reachableTests { state with
          storage := state.storage ++
            [⟨{ ExecutionResult.initial with status := .failFast }, pointer.1, distance, test⟩] }
      else
        let run := ⟨pointer, test, state.trampolines⟩
        let result := outcomes.result state.runs run
        runTests pointer (atLeastOneTestFailed || result.status ≠ .passed) reachableTests
          { state with
            storage := state.storage ++ [⟨result, pointer.1, distance, test⟩]
            runs := state.runs ++ [run] }

/-- The loop over the points; `trampolineName` is that of the point's function.  `none`: the
    trampoline is a null pointer. -/
def runMutant (trampolineName : Pointer → String) (state : TaskState) (pointer : Pointer) :
    Option TaskState := do
  let name := mangling ++ trampolineName pointer
  let originalAddress ← findTrampoline state.trampolines name
  let address := getSymbol mangling prepared.module (mangling ++ pointer.1.uniqueIdentifier)
  let state := runTests failFastEnabled outcomes pointer false pointer.1.reachableTests
    { state with trampolines := setTrampoline state.trampolines name address }
  some { state with trampolines := setTrampoline state.trampolines name originalAddress }

/-- `operator()`, on the points of its range. -/
def execute (trampolineName : Pointer → String) (mutatedFunctionNames : List String)
    (range : List Pointer) : Option TaskState := do
  let trampolines ← fixupOriginalFunctions mangling prepared.module
    (allocateTrampolines mangling mutatedFunctionNames)
  range.foldlM (runMutant mangling prepared failFastEnabled outcomes trampolineName)
    ⟨trampolines, [], []⟩

end Task

/-! ### The two situations -/

section Situations

variable (mutation : BodyMutation) (addressOf : Nat → Nat) (pointers : List Pointer)
  (bitcode : Bitcode)

def trampolineName (k : Nat) : String :=
  getTrampolineName (functionName bitcode.module k) bitcode.uniqueIdentifier

def originalName (k : Nat) : String :=
  getOriginalFunctionName (functionName bitcode.module k) bitcode.uniqueIdentifier

/-- Every trampoline holds the address of the copy of its function. -/
def originalSlots (name : String) : Option Nat :=
  ((originals addressOf pointers).find? fun k => trampolineName bitcode k = name).bind fun k =>
    (prepare mutation addressOf pointers bitcode).module.getFunction (originalName bitcode k)

/-- Only the trampoline of the point's function holds that of its clone. -/
def mutantSlots (pointer : Pointer) : String → Option Nat :=
  Function.update (originalSlots mutation addressOf pointers bitcode)
    (trampolineName bitcode pointer.1.originalFunction)
    ((prepare mutation addressOf pointers bitcode).mutatedFunction pointer.2)

/-- The original module with one mutated body. -/
def mutatedModule (m : Module) (pointer : Pointer) : Module :=
  match m.functions[pointer.1.originalFunction]? with
  | none => m
  | some function => m.setFunction pointer.1.originalFunction
      { function with blocks := mutation.apply pointer.1 function.blocks }

/-- Mutation points on functions of the module, which take fixed parameter lists.  Mutated
    bodies refer to functions and variables of the module only. -/
structure PointsOn : Prop where
  positions : (pointers.map Prod.snd).Nodup
  closed : ∀ function ∈ bitcode.module.functions, Closed bitcode.module function.blocks
  point : ∀ pointer ∈ pointers, ∃ function,
    bitcode.module.functions[pointer.1.originalFunction]? = some function ∧
    function.blocks ≠ [] ∧ function.type.variadic = false ∧
    Closed bitcode.module (mutation.apply pointer.1 function.blocks)

/-- The prepared module behaves like the original one; with one trampoline redirected to a
    clone, like the original one with one mutated body; and these are the situations in
    which a task leaves the trampolines and runs its tests. -/
structure Faithful (mangling : String) : Prop where
  original : ∀ T : Target,
    (∀ value f, T.asFunction value = some f → f < bitcode.module.functions.length) →
    ∀ f < bitcode.module.functions.length, ∀ (args : List T.Val) (world : T.World),
      behaviour T (prepare mutation addressOf pointers bitcode).module
          (originalSlots mutation addressOf pointers bitcode) f args world =
        behaviour T bitcode.module noSlots f args world
  mutant : ∀ T : Target,
    (∀ value f, T.asFunction value = some f → f < bitcode.module.functions.length) →
    ∀ pointer ∈ pointers, ∀ f < bitcode.module.functions.length, ∀ (args : List T.Val)
      (world : T.World),
      behaviour T (prepare mutation addressOf pointers bitcode).module
          (mutantSlots mutation addressOf pointers bitcode pointer) f args world =
        behaviour T (mutatedModule mutation bitcode.module pointer) noSlots f args world
  execution : ∀ (failFastEnabled : Bool) (outcomes : Outcomes) (range : List Pointer),
    (∀ pointer ∈ range, pointer ∈ pointers) →
    ∃ state, execute mangling (prepare mutation addressOf pointers bitcode) failFastEnabled outcomes
        (fun pointer => trampolineName bitcode pointer.1.originalFunction)
        (trampolineNames bitcode.uniqueIdentifier bitcode.module
          (getMutationPointsMap addressOf pointers)) range = some state ∧
      slotsOf mangling state.trampolines = originalSlots mutation addressOf pointers bitcode ∧
      ∀ run ∈ state.runs, run.pointer ∈ range ∧
        slotsOf mangling run.trampolines =
          mutantSlots mutation addressOf pointers bitcode run.pointer

end Situations

/-! ### Names -/

theorem findIdx?_unique {α : Type} {p : α → Bool} {xs : List α} {k : Nat} {x : α}
    (hget : xs[k]? = some x) (hx : p x = true)
    (hunique : ∀ j y, xs[j]? = some y → p y = true → j = k) : xs.findIdx? p = some k := by
  obtain ⟨hk, heq⟩ := List.getElem?_eq_some_iff.mp hget
  refine List.findIdx?_eq_some_iff_getElem.mpr ⟨hk, heq ▸ hx, fun j hj => ?_⟩
  intro hp
  have := hunique j xs[j] (List.getElem?_eq_getElem (by omega)) hp
  omega

theorem originalNameOf_trampoline (mangling name bitcodeIdentifier : String) :
    originalNameOf (mangling ++ getTrampolineName name bitcodeIdentifier) =
      mangling ++ getOriginalFunctionName name bitcodeIdentifier := by
  have hlength : (mangling ++ getTrampolineName name bitcodeIdentifier).length - "_trampoline".length =
      (mangling ++ (name ++ "_" ++ bitcodeIdentifier)).toList.length := by
    simp only [getTrampolineName, String.length_append, String.length_toList]
    omega
  refine String.toList_inj.mp ?_
  rw [originalNameOf, hlength]
  simp only [getTrampolineName, getOriginalFunctionName, String.toList_append, String.toList_ofList,
    ← List.append_assoc]
  rw [List.take_left']
  simp

section Prepared

variable {mutation : BodyMutation} {addressOf : Nat → Nat} {pointers : List Pointer}
  {bitcode : Bitcode} {names : Names}

/-- The prepared module, with the names that the passes ask for. -/
structure Named (mutation : BodyMutation) (addressOf : Nat → Nat) (pointers : List Pointer)
    (bitcode : Bitcode) (names : Names) : Prop where
  points : PointsOn mutation pointers bitcode
  fresh : Fresh addressOf pointers bitcode
  layout : Layout mutation addressOf pointers bitcode names
  clone : ∀ j pointer, (clonedPointers addressOf pointers)[j]? = some pointer →
    names.clone j = pointer.1.uniqueIdentifier
  copy : ∀ i k, (originals addressOf pointers)[i]? = some k →
    names.copy i = originalName bitcode k
  trampoline : ∀ k ∈ originals addressOf pointers, names.trampoline k = trampolineName bitcode k

theorem exists_named (hpoints : PointsOn mutation pointers bitcode)
    (hfresh : Fresh addressOf pointers bitcode) :
    ∃ names, Named mutation addressOf pointers bitcode names := by
  have hvalid : ∀ pointer ∈ pointers,
      pointer.1.originalFunction < bitcode.module.functions.length := by
    intro pointer hpointer
    obtain ⟨function, hfunction, -⟩ := hpoints.point pointer hpointer
    exact (List.getElem?_eq_some_iff.mp hfunction).1
  obtain ⟨names, hlayout, hclone, hnames⟩ :=
    @exists_layout addressOf pointers bitcode mutation hpoints.positions hvalid
  exact ⟨names, hpoints, hfresh, hlayout, hclone hfresh.toFreshClones, (hnames hfresh).1,
    (hnames hfresh).2⟩

theorem trampolineName_inj (hfresh : Fresh addressOf pointers bitcode) {k k' : Nat}
    (hk : k ∈ originals addressOf pointers) (hk' : k' ∈ originals addressOf pointers)
    (h : trampolineName bitcode k = trampolineName bitcode k') : k = k' :=
  hfresh.distinct k hk k' hk' (getTrampolineName_inj h)

/-- The position of the copy of function `k`. -/
def copyOf (addressOf : Nat → Nat) (pointers : List Pointer) (bitcode : Bitcode) (k : Nat) : Nat :=
  copyPosition addressOf pointers bitcode ((originals addressOf pointers).idxOf k)

theorem mutatedModule_eq {m : Module} {pointer : Pointer} {function : Function}
    (hfunction : m.functions[pointer.1.originalFunction]? = some function) :
    mutatedModule mutation m pointer = m.setFunction pointer.1.originalFunction
      { function with blocks := mutation.apply pointer.1 function.blocks } := by
  simp only [mutatedModule, hfunction]

theorem getElem?_mutatedModule {m : Module} {pointer : Pointer} {function : Function}
    (hfunction : m.functions[pointer.1.originalFunction]? = some function) (k : Nat) :
    (mutatedModule mutation m pointer).functions[k]? =
      if k = pointer.1.originalFunction then
        some { function with blocks := mutation.apply pointer.1 function.blocks }
      else m.functions[k]? := by
  have hlt := (List.getElem?_eq_some_iff.mp hfunction).1
  rw [mutatedModule_eq hfunction, Module.setFunction, List.getElem?_set]
  by_cases hk : k = pointer.1.originalFunction
  · simp [hk, hlt]
  · simp [hk, Ne.symm hk]

namespace Named

variable (h : Named mutation addressOf pointers bitcode names)

include h

/-- A mutated function has a body, and a fixed parameter list. -/
theorem original_function {k : Nat} (hk : k ∈ originals addressOf pointers) :
    ∃ function, bitcode.module.functions[k]? = some function ∧ function.blocks ≠ [] ∧
      function.type.variadic = false := by
  obtain ⟨pointer, hpointer, rfl⟩ := mem_originals.mp hk
  obtain ⟨function, hfunction, hblocks, hfixed, -⟩ := h.points.point pointer hpointer
  exact ⟨function, hfunction, hblocks, hfixed⟩

theorem name_mem {g : Nat} {function : Function} (hg : g < bitcode.module.functions.length)
    (hfunction : (prepare mutation addressOf pointers bitcode).module.functions[g]? =
      some function) : function.name ∈ bitcode.module.names := by
  rw [h.layout.original g hg] at hfunction
  obtain ⟨original, horiginal, rfl⟩ := Option.map_eq_some_iff.mp hfunction
  have hname : original.name ∈ bitcode.module.names :=
    List.mem_append_left _ (List.mem_map_of_mem (List.mem_of_getElem? horiginal))
  split <;> exact hname

/-- Only the copy of a function has the name of its copy. -/
theorem position_of_copyName {i k g : Nat} (hi : (originals addressOf pointers)[i]? = some k)
    {function : Function} (hfunction :
      (prepare mutation addressOf pointers bitcode).module.functions[g]? = some function)
    (hname : function.name = originalName bitcode k) :
    g = copyPosition addressOf pointers bitcode i := by
  have hk := List.mem_of_getElem? hi
  have hfree : originalName bitcode k ∉
      bitcode.module.names ++ pointers.map (·.1.uniqueIdentifier) := h.fresh.copy k hk
  rcases h.layout.position_cases (List.getElem?_eq_some_iff.mp hfunction).1 with
    hg | ⟨j, pointer, hj, rfl⟩ | ⟨i', k', hi', rfl⟩
  · exact absurd (List.mem_append_left _ (hname ▸ h.name_mem hg hfunction)) hfree
  · rw [(h.layout.clone j pointer hj).2] at hfunction
    obtain ⟨original, -, rfl⟩ := Option.map_eq_some_iff.mp hfunction
    have hidentifier : pointer.1.uniqueIdentifier = originalName bitcode k := by
      rw [← h.clone j pointer hj]
      exact hname
    refine absurd (List.mem_append_right _ ?_) hfree
    exact hidentifier ▸ List.mem_map_of_mem (mem_clonedPointers.mp (List.mem_of_getElem? hj))
  · rw [h.layout.copy i' k' hi'] at hfunction
    obtain ⟨original, -, rfl⟩ := Option.map_eq_some_iff.mp hfunction
    have hsame : originalName bitcode k' = originalName bitcode k := by
      rw [← h.copy i' k' hi']
      exact hname
    obtain rfl : k' = k := h.fresh.distinct k' (List.mem_of_getElem? hi') k hk
      (getOriginalFunctionName_inj hsame)
    rw [(List.getElem?_inj (List.getElem?_eq_some_iff.mp hi).1 originals_nodup).mp
      (hi.trans hi'.symm)]

/-- Only the clone of a point has the identifier of the point. -/
theorem position_of_identifier {j g : Nat} {pointer : Pointer}
    (hj : (clonedPointers addressOf pointers)[j]? = some pointer) {function : Function}
    (hfunction : (prepare mutation addressOf pointers bitcode).module.functions[g]? = some function)
    (hname : function.name = pointer.1.uniqueIdentifier) : g = clonePosition bitcode j := by
  have hpointer := mem_clonedPointers.mp (List.mem_of_getElem? hj)
  rcases h.layout.position_cases (List.getElem?_eq_some_iff.mp hfunction).1 with
    hg | ⟨j', pointer', hj', rfl⟩ | ⟨i, k, hi, rfl⟩
  · exact absurd (hname ▸ h.name_mem hg hfunction) (h.fresh.fresh pointer hpointer)
  · rw [(h.layout.clone j' pointer' hj').2] at hfunction
    obtain ⟨original, -, rfl⟩ := Option.map_eq_some_iff.mp hfunction
    have hidentifier : pointer'.1.uniqueIdentifier = pointer.1.uniqueIdentifier := by
      rw [← h.clone j' pointer' hj']
      exact hname
    have hnodup : ((clonedPointers addressOf pointers).map (·.1.uniqueIdentifier)).Nodup :=
      (((mapOf_getMutationPointsMap addressOf pointers).perm.map
        (·.1.uniqueIdentifier)).nodup_iff).mpr h.fresh.nodup
    obtain rfl : j = j' := by
      refine (List.getElem?_inj ?_ hnodup).mp ?_
      · rw [List.length_map]
        exact (List.getElem?_eq_some_iff.mp hj).1
      · rw [List.getElem?_map, List.getElem?_map, hj, hj', Option.map_some, Option.map_some,
          hidentifier]
    rfl
  · rw [h.layout.copy i k hi] at hfunction
    obtain ⟨original, -, rfl⟩ := Option.map_eq_some_iff.mp hfunction
    have hsame : originalName bitcode k = pointer.1.uniqueIdentifier := by
      rw [← h.copy i k hi]
      exact hname
    refine absurd (List.mem_append_right _ ?_) (h.fresh.copy k (List.mem_of_getElem? hi))
    exact List.mem_map.mpr ⟨pointer, hpointer, hsame.symm⟩

theorem getFunction_copy {i k : Nat} (hi : (originals addressOf pointers)[i]? = some k) :
    (prepare mutation addressOf pointers bitcode).module.getFunction (originalName bitcode k) =
      some (copyPosition addressOf pointers bitcode i) := by
  obtain ⟨function, hfunction, -⟩ := h.original_function (List.mem_of_getElem? hi)
  have hget := h.layout.copy i k hi
  rw [hfunction, Option.map_some] at hget
  refine findIdx?_unique hget (by simp [h.copy i k hi]) fun g other hother hname => ?_
  exact h.position_of_copyName hi hother (by simpa using hname)

theorem getSymbol_copy (mangling : String) {i k : Nat}
    (hi : (originals addressOf pointers)[i]? = some k) :
    getSymbol mangling (prepare mutation addressOf pointers bitcode).module
      (mangling ++ originalName bitcode k) = some (copyPosition addressOf pointers bitcode i) := by
  obtain ⟨function, hfunction, hblocks, -⟩ := h.original_function (List.mem_of_getElem? hi)
  have hget := h.layout.copy i k hi
  rw [hfunction, Option.map_some] at hget
  refine findIdx?_unique hget ?_ fun g other hother hname => ?_
  · simpa [h.copy i k hi, Function.isDeclaration] using hblocks
  · simp only [Bool.and_eq_true, decide_eq_true_eq] at hname
    exact h.position_of_copyName hi hother ((String.append_right_inj _).mp hname.2)

theorem getSymbol_clone (mangling : String) {j : Nat} {pointer : Pointer}
    (hj : (clonedPointers addressOf pointers)[j]? = some pointer) :
    getSymbol mangling (prepare mutation addressOf pointers bitcode).module
      (mangling ++ pointer.1.uniqueIdentifier) = some (clonePosition bitcode j) := by
  obtain ⟨function, hfunction, hblocks, -⟩ :=
    h.points.point pointer (mem_clonedPointers.mp (List.mem_of_getElem? hj))
  have hget := (h.layout.clone j pointer hj).2
  rw [hfunction, Option.map_some] at hget
  refine findIdx?_unique hget ?_ fun g other hother hname => ?_
  · simpa [h.clone j pointer hj, Function.isDeclaration] using mutation.nonempty pointer.1 _ hblocks
  · simp only [Bool.and_eq_true, decide_eq_true_eq] at hname
    exact h.position_of_identifier hj hother ((String.append_right_inj _).mp hname.2)

/-! ### What the trampolines hold -/

theorem originalSlots_trampoline {i k : Nat} (hi : (originals addressOf pointers)[i]? = some k) :
    originalSlots mutation addressOf pointers bitcode (trampolineName bitcode k) =
      some (copyPosition addressOf pointers bitcode i) := by
  have hk := List.mem_of_getElem? hi
  unfold originalSlots
  cases hfind : (originals addressOf pointers).find? fun k' =>
      trampolineName bitcode k' = trampolineName bitcode k with
  | none =>
      have hnone := List.find?_eq_none.mp hfind k hk
      simp at hnone
  | some k' =>
      have hname := List.find?_some hfind
      obtain rfl : k' = k := trampolineName_inj h.fresh (List.mem_of_find?_eq_some hfind) hk
        (by simpa using hname)
      exact h.getFunction_copy hi

omit h in
theorem originalSlots_of_ne {name : String}
    (hname : ∀ k ∈ originals addressOf pointers, trampolineName bitcode k ≠ name) :
    originalSlots mutation addressOf pointers bitcode name = none := by
  have hnone : ((originals addressOf pointers).find? fun k => trampolineName bitcode k = name) =
      none := by
    refine List.find?_eq_none.mpr fun k hk => ?_
    simpa using hname k hk
  rw [originalSlots, hnone]
  rfl

/-- No variable of the module is a trampoline. -/
theorem trampolineName_ne {name : String} (hname : name ∈ bitcode.module.globals) {k : Nat}
    (hk : k ∈ originals addressOf pointers) : trampolineName bitcode k ≠ name := by
  rintro rfl
  exact h.fresh.trampoline k hk (List.mem_append_left _ (List.mem_append_right _ hname))

/-- The prepared module, for any choice of bodies that the trampolines lead to. -/
theorem redirects {slots : String → Option Nat} {reference : Module} (landing : Nat → Nat)
    (hlength : reference.functions.length = bitcode.module.functions.length)
    (hglobals : reference.globals = bitcode.module.globals)
    (hclosed : ∀ function ∈ reference.functions, Closed bitcode.module function.blocks)
    (hslots : ∀ name ∈ bitcode.module.globals, slots name = none)
    (hkept : ∀ k, k ∉ originals addressOf pointers →
      reference.functions[k]? = bitcode.module.functions[k]?)
    (hlanding : ∀ k ∈ originals addressOf pointers,
      slots (trampolineName bitcode k) = some (landing k) ∧
      ∃ function blocks copy, bitcode.module.functions[k]? = some function ∧ blocks ≠ [] ∧
        reference.functions[k]? = some { function with blocks := blocks } ∧
        (prepare mutation addressOf pointers bitcode).module.functions[landing k]? = some copy ∧
        copy.type = function.type ∧ copy.blocks = blocks) :
    Redirects slots
      (fun k => if k ∈ originals addressOf pointers then
        some (trampolineName bitcode k, landing k) else none)
      reference (prepare mutation addressOf pointers bitcode).module where
  closed function hfunction block hblock instruction hinstruction operand hoperand := by
    have hrefers := hclosed function hfunction block hblock instruction hinstruction operand hoperand
    cases operand with
    | function f =>
        show f < reference.functions.length
        rw [hlength]
        exact hrefers
    | global name =>
        show name ∈ reference.globals
        rw [hglobals]
        exact hrefers
    | _ => trivial
  globals name hname := hslots name (hglobals ▸ hname)
  kept k hk hredirect := by
    have hnot : k ∉ originals addressOf pointers := fun hmem => by simp [hmem] at hredirect
    rw [h.layout.original k (hlength ▸ hk), hkept k hnot]
    simp [hnot]
  redirected k trampoline g hredirect := by
    by_cases hk : k ∈ originals addressOf pointers
    · simp only [hk, if_true, Option.some.injEq, Prod.mk.injEq] at hredirect
      obtain ⟨rfl, rfl⟩ := hredirect
      obtain ⟨hslot, function, blocks, copy, hfunction, hblocks, hreference, hcopy, htype, hsame⟩ :=
        hlanding k hk
      obtain ⟨function', hfunction', -, hfixed⟩ := h.original_function hk
      obtain rfl := Option.some.inj (hfunction.symm.trans hfunction')
      refine ⟨hslot, { function with blocks := blocks }, copy, hreference, hblocks, hfixed, ?_,
        hcopy, htype, hsame⟩
      rw [h.layout.original k (List.getElem?_eq_some_iff.mp hfunction).1, hfunction, Option.map_some]
      simp only [hk, if_true, h.trampoline k hk]
      rfl
    · simp [hk] at hredirect

theorem landing_copy {k : Nat} (hk : k ∈ originals addressOf pointers) :
    originalSlots mutation addressOf pointers bitcode (trampolineName bitcode k) =
      some (copyOf addressOf pointers bitcode k) ∧
    ∃ function copy, bitcode.module.functions[k]? = some function ∧ function.blocks ≠ [] ∧
      (prepare mutation addressOf pointers bitcode).module.functions[
        copyOf addressOf pointers bitcode k]? = some copy ∧
      copy.type = function.type ∧ copy.blocks = function.blocks := by
  have hi := List.getElem?_idxOf hk
  obtain ⟨function, hfunction, hblocks, -⟩ := h.original_function hk
  have hget := h.layout.copy _ k hi
  rw [hfunction, Option.map_some] at hget
  exact ⟨h.originalSlots_trampoline hi, function, _, hfunction, hblocks, hget, rfl, rfl⟩

theorem redirects_original : Redirects (originalSlots mutation addressOf pointers bitcode)
    (fun k => if k ∈ originals addressOf pointers then
      some (trampolineName bitcode k, copyOf addressOf pointers bitcode k) else none)
    bitcode.module (prepare mutation addressOf pointers bitcode).module := by
  refine h.redirects _ rfl rfl h.points.closed ?_ (fun _ _ => rfl) fun k hk => ?_
  · intro name hname
    exact originalSlots_of_ne fun k hk => h.trampolineName_ne hname hk
  · obtain ⟨hslot, function, copy, hfunction, hblocks, hcopy⟩ := h.landing_copy hk
    exact ⟨hslot, function, function.blocks, copy, hfunction, hblocks, hfunction, hcopy⟩

theorem redirects_mutant {j : Nat} {pointer : Pointer}
    (hj : (clonedPointers addressOf pointers)[j]? = some pointer) :
    Redirects (mutantSlots mutation addressOf pointers bitcode pointer)
      (fun k => if k ∈ originals addressOf pointers then
        some (trampolineName bitcode k, Function.update (copyOf addressOf pointers bitcode)
          pointer.1.originalFunction (clonePosition bitcode j) k) else none)
      (mutatedModule mutation bitcode.module pointer)
      (prepare mutation addressOf pointers bitcode).module := by
  have hpointer := mem_clonedPointers.mp (List.mem_of_getElem? hj)
  have horiginal : pointer.1.originalFunction ∈ originals addressOf pointers :=
    mem_originals.mpr ⟨pointer, hpointer, rfl⟩
  obtain ⟨function, hfunction, hblocks, -, hmutated⟩ := h.points.point pointer hpointer
  have hmodule := @mutatedModule_eq mutation _ _ _ hfunction
  have hget := @getElem?_mutatedModule mutation _ _ _ hfunction
  refine h.redirects _ ?_ ?_ ?_ ?_ ?_ fun k hk => ?_
  · rw [hmodule, Module.setFunction, List.length_set]
  · rw [hmodule]
    rfl
  · intro function' hfunction'
    obtain ⟨k, hk⟩ := List.getElem?_of_mem hfunction'
    rw [hget] at hk
    split at hk
    · cases hk
      exact hmutated
    · exact h.points.closed function' (List.mem_of_getElem? hk)
  · intro name hname
    rw [mutantSlots, Function.update_of_ne (h.trampolineName_ne hname horiginal).symm]
    exact originalSlots_of_ne fun k hk => h.trampolineName_ne hname hk
  · intro k hk
    rw [hget, if_neg]
    rintro rfl
    exact hk horiginal
  · by_cases heq : k = pointer.1.originalFunction
    · subst heq
      obtain ⟨hclone, hcopy⟩ := h.layout.clone j pointer hj
      rw [hfunction, Option.map_some] at hcopy
      refine ⟨?_, function, mutation.apply pointer.1 function.blocks, { function with
        name := names.clone j, blocks := mutation.apply pointer.1 function.blocks }, hfunction,
        mutation.nonempty pointer.1 _ hblocks, ?_, ?_, rfl, rfl⟩
      · rw [mutantSlots, Function.update_self, Function.update_self, hclone]
      · rw [hget, if_pos rfl]
      · rw [Function.update_self, hcopy]
    · obtain ⟨hslot, function', copy, hfunction', hblocks', hcopy⟩ := h.landing_copy hk
      have hne : trampolineName bitcode k ≠ trampolineName bitcode pointer.1.originalFunction :=
        fun hsame => heq (trampolineName_inj h.fresh hk horiginal hsame)
      refine ⟨?_, function', function'.blocks, copy, hfunction', hblocks', ?_, ?_⟩
      · rw [mutantSlots, Function.update_of_ne hne, Function.update_of_ne heq, hslot]
      · rw [hget, if_neg heq, hfunction']
      · rw [Function.update_of_ne heq]
        exact hcopy

end Named

end Prepared

/-! ### The trampolines of a task -/

section Map

variable {mangling : String} {trampolines : TrampolineMap}

theorem allocateTrampolines_eq {trampolineNames : List String} (hnodup : trampolineNames.Nodup) :
    allocateTrampolines mangling trampolineNames =
      trampolineNames.map fun name => (mangling ++ name, none) := by
  have hloop : ∀ (rest before : List String), (before ++ rest).Nodup →
      rest.foldl (fun trampolines name =>
        if mangling ++ name ∈ trampolines.map Prod.fst then trampolines
        else trampolines ++ [(mangling ++ name, none)])
          (before.map fun name => (mangling ++ name, (none : Option Nat))) =
        (before ++ rest).map fun name => (mangling ++ name, none) := by
    intro rest
    induction rest with
    | nil =>
        intro before _
        simp
    | cons name rest ih =>
        intro before hall
        have hnew : mangling ++ name ∉ (before.map fun name =>
            (mangling ++ name, (none : Option Nat))).map Prod.fst := by
          rw [List.map_map]
          intro hmem
          obtain ⟨name', hname', heq⟩ := List.mem_map.mp hmem
          obtain rfl := (String.append_right_inj _).mp heq
          exact (List.nodup_append.mp hall).2.2 name' hname' name' List.mem_cons_self rfl
        rw [List.foldl_cons, if_neg hnew]
        have hnext := ih (before ++ [name]) (by simpa using hall)
        simpa using hnext
  exact hloop trampolineNames [] hnodup

theorem findTrampoline_set (name name' : String) (address : Option Nat) :
    findTrampoline (setTrampoline trampolines name address) name' =
      if name' = name then (findTrampoline trampolines name').map fun _ => address
      else findTrampoline trampolines name' := by
  unfold findTrampoline setTrampoline
  induction trampolines with
  | nil => simp
  | cons entry rest ih =>
      obtain ⟨key, content⟩ := entry
      by_cases hkey : key = name
      · by_cases hname : name' = key
        · simp [hkey, hname]
        · have hbeq : (name' == key) = false := by simpa using hname
          rw [List.map_cons, if_pos hkey, List.lookup_cons, List.lookup_cons]
          simpa [hbeq] using ih
      · by_cases hname : name' = key
        · subst hname
          simp [hkey]
        · have hbeq : (name' == key) = false := by simpa using hname
          rw [List.map_cons, if_neg hkey, List.lookup_cons, List.lookup_cons]
          simpa [hbeq] using ih

/-- Putting the old address back restores everything. -/
theorem setTrampoline_restore (hnodup : (trampolines.map Prod.fst).Nodup) {name : String}
    {old : Option Nat} (hold : findTrampoline trampolines name = some old)
    (address : Option Nat) :
    setTrampoline (setTrampoline trampolines name address) name old = trampolines := by
  unfold findTrampoline at hold
  obtain ⟨before, after, rfl, -⟩ := List.lookup_eq_some_iff.mp hold
  -- the others have other names
  have hother : ∀ entry ∈ before ++ after, entry.1 ≠ name := by
    have hperm := (List.perm_middle.map Prod.fst).nodup_iff.mp hnodup
    intro entry hentry heq
    have hmem : entry.1 ∈ (before ++ after).map Prod.fst := List.mem_map_of_mem hentry
    rw [heq] at hmem
    exact (List.nodup_cons.mp hperm).1 hmem
  have hsame : ∀ part : TrampolineMap, (∀ entry ∈ part, entry ∈ before ++ after) →
      setTrampoline (setTrampoline part name address) name old = part := by
    intro part hpart
    unfold setTrampoline
    rw [List.map_map]
    refine (List.map_congr_left fun entry hentry => ?_).trans (List.map_id part)
    have hne := hother entry (hpart entry hentry)
    simp [hne]
  have hbefore := hsame before fun entry => List.mem_append_left after
  have hafter := hsame after fun entry => List.mem_append_right before
  simp only [setTrampoline, List.map_append, List.map_cons] at hbefore hafter ⊢
  rw [hbefore, hafter]
  simp

theorem slotsOf_set {name : String} {old : Option Nat}
    (hold : findTrampoline trampolines (mangling ++ name) = some old) (address : Option Nat) :
    slotsOf mangling (setTrampoline trampolines (mangling ++ name) address) =
      Function.update (slotsOf mangling trampolines) name address := by
  funext name'
  simp only [slotsOf, findTrampoline_set]
  by_cases hname : name' = name
  · subst hname
    simp [hold]
  · have hne : mangling ++ name' ≠ mangling ++ name := fun h => hname ((String.append_right_inj _).mp h)
    simp [hne, Function.update_of_ne hname, slotsOf]

end Map

/-! ### A task -/

section Task

variable {mangling : String} {prepared : Prepared} {failFastEnabled : Bool} {outcomes : Outcomes}

/-- The tests of a point all meet the same trampolines. -/
theorem runTests_trampolines (pointer : Pointer) (tests : List (Nat × Int))
    (atLeastOneTestFailed : Bool) (state : TaskState) :
    (runTests failFastEnabled outcomes pointer atLeastOneTestFailed tests state).trampolines =
      state.trampolines ∧
    ∀ run ∈ (runTests failFastEnabled outcomes pointer atLeastOneTestFailed tests state).runs,
      run ∈ state.runs ∨ run.pointer = pointer ∧ run.trampolines = state.trampolines := by
  induction tests generalizing atLeastOneTestFailed state with
  | nil => exact ⟨rfl, fun run hrun => .inl hrun⟩
  | cons entry tests ih =>
      obtain ⟨test, distance⟩ := entry
      rw [runTests]
      split
      · exact ih _ _
      · obtain ⟨htrampolines, hruns⟩ := ih (atLeastOneTestFailed ||
          (outcomes.result state.runs ⟨pointer, test, state.trampolines⟩).status ≠ .passed)
          { state with
            storage := state.storage ++ [⟨outcomes.result state.runs
              ⟨pointer, test, state.trampolines⟩, pointer.1, distance, test⟩]
            runs := state.runs ++ [⟨pointer, test, state.trampolines⟩] }
        refine ⟨htrampolines, fun run hrun => ?_⟩
        rcases hruns run hrun with hold | hnew
        · rcases List.mem_append.mp hold with hold | hlast
          · exact .inl hold
          · obtain rfl := List.mem_singleton.mp hlast
            exact .inr ⟨rfl, rfl⟩
        · exact .inr hnew

/-- A point leaves the trampolines as it has found them, and its tests run with the
    trampoline of its function redirected. -/
theorem runMutant_spec {trampolineName : Pointer → String} {state : TaskState} {pointer : Pointer}
    {old address : Option Nat} (hnodup : (state.trampolines.map Prod.fst).Nodup)
    (hold : findTrampoline state.trampolines (mangling ++ trampolineName pointer) = some old)
    (haddress : getSymbol mangling prepared.module (mangling ++ pointer.1.uniqueIdentifier) =
      address) :
    ∃ state', runMutant mangling prepared failFastEnabled outcomes trampolineName state pointer =
        some state' ∧
      state'.trampolines = state.trampolines ∧
      ∀ run ∈ state'.runs, run ∈ state.runs ∨ run.pointer = pointer ∧
        slotsOf mangling run.trampolines =
          Function.update (slotsOf mangling state.trampolines) (trampolineName pointer) address := by
  obtain ⟨tested, htested⟩ : ∃ tested, tested = runTests failFastEnabled outcomes pointer false
    pointer.1.reachableTests { state with
      trampolines := setTrampoline state.trampolines (mangling ++ trampolineName pointer) address } :=
    ⟨_, rfl⟩
  obtain ⟨htrampolines, hruns⟩ := @runTests_trampolines failFastEnabled outcomes pointer
    pointer.1.reachableTests false { state with
      trampolines := setTrampoline state.trampolines (mangling ++ trampolineName pointer) address }
  rw [← htested] at htrampolines hruns
  refine ⟨⟨setTrampoline tested.trampolines (mangling ++ trampolineName pointer) old, tested.storage,
    tested.runs⟩, ?_, ?_, ?_⟩
  · simp only [runMutant, hold, haddress, Option.bind_eq_bind, Option.bind_some, ← htested]
  · simp only [htrampolines]
    exact setTrampoline_restore hnodup hold address
  · intro run hrun
    refine (hruns run hrun).imp_right fun hnew => ⟨hnew.1, ?_⟩
    rw [hnew.2, slotsOf_set hold]

/-- What the sandbox reports depends on the point and the test only. -/
def fixedOutcomes (inputs : Driver.Inputs) : Outcomes where
  result _ run := inputs.mutantResult run.pointer.1 run.test
  valid _ run := inputs.valid run.pointer.1 run.test

theorem runTests_storage (inputs : Driver.Inputs) (pointer : Pointer) (tests : List (Nat × Int))
    (atLeastOneTestFailed : Bool) (state : TaskState) :
    (runTests inputs.failFastEnabled (fixedOutcomes inputs) pointer atLeastOneTestFailed tests
      state).storage =
      state.storage ++ Driver.runTests inputs pointer.1 atLeastOneTestFailed tests := by
  induction tests generalizing atLeastOneTestFailed state with
  | nil => simp [runTests, Driver.runTests]
  | cons entry tests ih =>
      obtain ⟨test, distance⟩ := entry
      rw [runTests, Driver.runTests]
      split
      · rw [ih, List.append_assoc]
        rfl
      · rw [ih, List.append_assoc]
        rfl

/-- A task stores what the driver's model of it says. -/
theorem execute_storage (inputs : Driver.Inputs) {trampolineName : Pointer → String}
    {mutatedFunctionNames : List String} {range : List Pointer} {state : TaskState}
    (h : execute mangling prepared inputs.failFastEnabled (fixedOutcomes inputs) trampolineName
      mutatedFunctionNames range = some state) :
    state.storage = range.flatMap fun pointer => Driver.executeMutant inputs pointer.1 := by
  have hloop : ∀ (rest : List Pointer) (state state' : TaskState),
      rest.foldlM (runMutant mangling prepared inputs.failFastEnabled (fixedOutcomes inputs)
        trampolineName) state = some state' →
      state'.storage = state.storage ++ rest.flatMap fun pointer =>
        Driver.executeMutant inputs pointer.1 := by
    intro rest
    induction rest with
    | nil =>
        intro state state' heq
        cases heq
        simp
    | cons pointer rest ih =>
        intro state state' heq
        rw [List.foldlM_cons] at heq
        obtain ⟨state₁, hrun, hrest⟩ := Option.bind_eq_some_iff.mp heq
        obtain ⟨old, -, hrun⟩ := Option.bind_eq_some_iff.mp hrun
        cases hrun
        rw [ih _ _ hrest, List.flatMap_cons, ← List.append_assoc]
        simp only [runTests_storage, Driver.executeMutant]
  obtain ⟨trampolines, -, hrest⟩ := Option.bind_eq_some_iff.mp h
  have hstorage := hloop range _ _ hrest
  rwa [List.nil_append] at hstorage

end Task

section Execution

variable {mutation : BodyMutation} {addressOf : Nat → Nat} {pointers : List Pointer}
  {bitcode : Bitcode} {names : Names} (h : Named mutation addressOf pointers bitcode names)
  (mangling : String)

include h

/-- A trampoline for each function that has a mutant, with the address of its copy. -/
def fixedTrampolines (mangling : String) (addressOf : Nat → Nat) (pointers : List Pointer)
    (bitcode : Bitcode) : TrampolineMap :=
  (originals addressOf pointers).map fun k =>
    (mangling ++ trampolineName bitcode k, some (copyOf addressOf pointers bitcode k))

omit h in
theorem names_fixedTrampolines : (fixedTrampolines mangling addressOf pointers bitcode).map Prod.fst =
    (originals addressOf pointers).map fun k => mangling ++ trampolineName bitcode k := by
  rw [fixedTrampolines, List.map_map]
  rfl

/-- Fixing up the trampolines gives them the addresses of the copies. -/
theorem Named.fixupOriginalFunctions_eq :
    fixupOriginalFunctions mangling (prepare mutation addressOf pointers bitcode).module
      (allocateTrampolines mangling (trampolineNames bitcode.uniqueIdentifier bitcode.module
        (getMutationPointsMap addressOf pointers))) =
      some (fixedTrampolines mangling addressOf pointers bitcode) := by
  have hnames : trampolineNames bitcode.uniqueIdentifier bitcode.module
      (getMutationPointsMap addressOf pointers) =
        (originals addressOf pointers).map (trampolineName bitcode) := by
    rw [originals, List.map_map]
    rfl
  have hnodup : ((originals addressOf pointers).map (trampolineName bitcode)).Nodup :=
    originals_nodup.map_on fun k hk k' hk' => trampolineName_inj h.fresh hk hk'
  rw [hnames, allocateTrampolines_eq hnodup, fixupOriginalFunctions, List.map_map, List.mapM_map]
  refine DynamicCallTree.mapM_eq_some_map fun k hk => ?_
  have hsymbol : getSymbol mangling (prepare mutation addressOf pointers bitcode).module
      (originalNameOf (mangling ++ trampolineName bitcode k)) =
        some (copyOf addressOf pointers bitcode k) := by
    rw [trampolineName, originalNameOf_trampoline]
    exact h.getSymbol_copy mangling (List.getElem?_idxOf hk)
  simp only [Function.comp_apply, hsymbol, Option.bind_eq_bind, Option.bind_some]

theorem Named.findTrampoline_fixed {k : Nat} (hk : k ∈ originals addressOf pointers) :
    findTrampoline (fixedTrampolines mangling addressOf pointers bitcode)
      (mangling ++ trampolineName bitcode k) = some (some (copyOf addressOf pointers bitcode k)) :=
  Naming.lookup_map_of_mem (fun _ hk _ hk' heq =>
    trampolineName_inj h.fresh hk hk' ((String.append_right_inj _).mp heq)) hk

theorem Named.slotsOf_fixed : slotsOf mangling (fixedTrampolines mangling addressOf pointers bitcode) =
    originalSlots mutation addressOf pointers bitcode := by
  funext name
  by_cases hname : ∃ k ∈ originals addressOf pointers, trampolineName bitcode k = name
  · obtain ⟨k, hk, rfl⟩ := hname
    rw [slotsOf, h.findTrampoline_fixed mangling hk, (h.landing_copy hk).1]
    rfl
  · have hne : ∀ k ∈ originals addressOf pointers, trampolineName bitcode k ≠ name :=
      fun k hk heq => hname ⟨k, hk, heq⟩
    have hnone : findTrampoline (fixedTrampolines mangling addressOf pointers bitcode)
        (mangling ++ name) = none :=
      Naming.lookup_map_eq_none fun k hk heq => hne k hk ((String.append_right_inj _).mp heq)
    rw [slotsOf, hnone, originalSlots_of_ne hne]
    rfl

/-- After they have been fixed up, the trampolines hold the addresses of the copies. -/
theorem Named.exists_fixed : ∃ trampolines,
    fixupOriginalFunctions mangling (prepare mutation addressOf pointers bitcode).module
      (allocateTrampolines mangling (trampolineNames bitcode.uniqueIdentifier bitcode.module
        (getMutationPointsMap addressOf pointers))) = some trampolines ∧
    (trampolines.map Prod.fst).Nodup ∧
    (∀ k ∈ originals addressOf pointers, ∃ old,
      findTrampoline trampolines (mangling ++ trampolineName bitcode k) = some old) ∧
    slotsOf mangling trampolines = originalSlots mutation addressOf pointers bitcode := by
  refine ⟨_, h.fixupOriginalFunctions_eq mangling, ?_,
    fun k hk => ⟨_, h.findTrampoline_fixed mangling hk⟩, h.slotsOf_fixed mangling⟩
  rw [names_fixedTrampolines]
  exact originals_nodup.map_on fun k hk k' hk' heq =>
    trampolineName_inj h.fresh hk hk' ((String.append_right_inj _).mp heq)

/-- Whatever the points and the outcomes are, the task ends as it has begun. -/
theorem Named.execute_spec (failFastEnabled : Bool) (outcomes : Outcomes) (range : List Pointer)
    (hrange : ∀ pointer ∈ range, pointer ∈ pointers) :
    ∃ state, execute mangling (prepare mutation addressOf pointers bitcode) failFastEnabled outcomes
        (fun pointer => trampolineName bitcode pointer.1.originalFunction)
        (trampolineNames bitcode.uniqueIdentifier bitcode.module
          (getMutationPointsMap addressOf pointers)) range = some state ∧
      slotsOf mangling state.trampolines = originalSlots mutation addressOf pointers bitcode ∧
      ∀ run ∈ state.runs, run.pointer ∈ range ∧
        slotsOf mangling run.trampolines =
          mutantSlots mutation addressOf pointers bitcode run.pointer := by
  obtain ⟨trampolines, hfixed, hnodup, hfind, hslots⟩ := h.exists_fixed mangling
  -- the loop, from any state with these trampolines
  have hloop : ∀ (rest : List Pointer) (state : TaskState), (∀ pointer ∈ rest, pointer ∈ pointers) →
      state.trampolines = trampolines → ∃ state', rest.foldlM (runMutant mangling
          (prepare mutation addressOf pointers bitcode) failFastEnabled outcomes
          (fun pointer => trampolineName bitcode pointer.1.originalFunction)) state = some state' ∧
        state'.trampolines = trampolines ∧ ∀ run ∈ state'.runs, run ∈ state.runs ∨
          run.pointer ∈ rest ∧ slotsOf mangling run.trampolines =
            mutantSlots mutation addressOf pointers bitcode run.pointer := by
    intro rest
    induction rest with
    | nil => exact fun state _ hstate => ⟨state, rfl, hstate, fun run hrun => .inl hrun⟩
    | cons pointer rest ih =>
        intro state hrest hstate
        obtain ⟨hpointer, hrest⟩ := List.forall_mem_cons.mp hrest
        obtain ⟨old, hold⟩ := hfind _ (mem_originals.mpr ⟨pointer, hpointer, rfl⟩)
        obtain ⟨j, hj⟩ := List.getElem?_of_mem
          ((@mem_clonedPointers addressOf pointers pointer).mpr hpointer)
        have haddress := h.getSymbol_clone mangling hj
        rw [← (h.layout.clone j pointer hj).1] at haddress
        obtain ⟨state₁, hrun, htrampolines, hruns⟩ := @runMutant_spec mangling
          (prepare mutation addressOf pointers bitcode) failFastEnabled outcomes
          (fun pointer => trampolineName bitcode pointer.1.originalFunction) state pointer old _
          (hstate ▸ hnodup) (hstate ▸ hold) haddress
        obtain ⟨state₂, hrun', htrampolines', hruns'⟩ := ih state₁ hrest (htrampolines.trans hstate)
        refine ⟨state₂, by rw [List.foldlM_cons, hrun]; exact hrun', htrampolines', ?_⟩
        intro run hmem
        rcases hruns' run hmem with hold | ⟨hlater, hslots'⟩
        · refine (hruns run hold).imp_right ?_
          rintro ⟨rfl, hslots'⟩
          exact ⟨List.mem_cons_self, by rw [hslots', hstate, hslots]; rfl⟩
        · exact .inr ⟨List.mem_cons_of_mem _ hlater, hslots'⟩
  obtain ⟨state, hrun, htrampolines, hruns⟩ := hloop range ⟨trampolines, [], []⟩ hrange rfl
  refine ⟨state, ?_, by rw [htrampolines, hslots], fun run hmem => ?_⟩
  · rw [execute, hfixed]
    exact hrun
  · exact (hruns run hmem).resolve_left List.not_mem_nil

end Execution

/-- Compares the argument with a number. -/
def comparison (name : String) (value : Nat) : Function where
  name := name
  type := ⟨.int 1, [.int 32], false⟩
  blocks :=
    [[.compute (.icmp 32) [.argument 0, .constant (.int 32 value)] 0, .ret (some (.register 0))]]

/-- Function `k` compares its argument with `k`. -/
def comparisons (names : List String) : Bitcode where
  module := {
    identifier := "testee.bc"
    functions := names.zipIdx.map fun entry => comparison entry.1 entry.2
    globals := [] }
  uniqueIdentifier := "testee"

/-- One point for each of the functions. -/
def comparisonPointers (names : List String) : List Pointer :=
  names.zipIdx.map fun entry =>
    (MutationPoint.create negateConditionMutator (some (.cmp .icmpEq .icmpNe)) ⟨entry.2, 0, 0⟩
      (.compute (.icmp 32) [.argument 0, .constant (.int 32 entry.2)] 0) 0 (comparisons names),
      entry.2)

def negateComparison : Instruction → Instruction
  | .compute (.icmp 32) operands dest => .compute (.icmp 33) operands dest
  | instruction => instruction

def negateCondition : BodyMutation where
  apply point blocks := blocks.modify point.address.basicBlockIndex fun block =>
    block.modify point.address.instructionIndex negateComparison
  nonempty point blocks h := by rwa [Ne, List.modify_eq_nil_iff]

theorem pointsOn_comparisons (names : List String) :
    PointsOn negateCondition (comparisonPointers names) (comparisons names) where
  positions := by
    rw [comparisonPointers, List.map_map]
    have hpositions : Prod.snd ∘ (fun entry : String × Nat =>
        ((MutationPoint.create negateConditionMutator (some (.cmp .icmpEq .icmpNe)) ⟨entry.2, 0, 0⟩
          (.compute (.icmp 32) [.argument 0, .constant (.int 32 entry.2)] 0) 0 (comparisons names),
          entry.2) : Pointer)) = Prod.snd := rfl
    rw [hpositions, List.zipIdx_map_snd]
    exact List.nodup_range'
  closed := by
    intro function hfunction
    obtain ⟨entry, -, rfl⟩ := List.mem_map.mp hfunction
    simp [Closed, comparison, RefersTo, Instruction.operands]
  point := by
    intro pointer hpointer
    obtain ⟨entry, hentry, rfl⟩ := List.mem_map.mp hpointer
    have hname := List.mem_zipIdx_iff_getElem?.mp hentry
    refine ⟨comparison entry.1 entry.2, ?_, by simp [comparison], rfl, ?_⟩
    · simp [comparisons, MutationPoint.create, hname]
    · simp [Closed, comparison, negateCondition, negateComparison, MutationPoint.create, RefersTo,
        Instruction.operands]

/-- If function 1 calls a copy of function 0, its argument is compared with 0. -/
theorem shows_other_function {m : Module} {slots : String → Option Nat} {trampoline name : String}
    (hfunction : m.functions[1]? = some { comparison "" 1 with
      blocks := [trampolineBlock (comparison "" 1) trampoline] })
    (hcopy : m.functions[4]? = some (comparison name 0)) (hslot : slots trampoline = some 4) :
    [.finished (.returned (0 : Int)) ()] ∈ behaviour integers m slots 1 [(1 : Int)] () := by
  let args : List integers.Val := [(1 : Int)]
  let world : integers.World := ()
  let differs : integers.Val := (0 : Int)
  have hbody : body m 1 = [trampolineBlock (comparison "" 1) trampoline] := by simp [body, hfunction]
  have hbody' : body m 4 = (comparison "" 0).blocks := by
    rw [body, hcopy]
    rfl
  have hstart : call m (.code 1) args [] world = .running [.code 1 (.start args)] world := by
    simp only [call, Content.function?, hfunction]
    rfl
  have hcall : call m (.code 4) args [.code 1 (waiting args 4)] world =
      .running [.code 4 (.start args), .code 1 (waiting args 4)] world := by
    simp only [call, Content.function?, hcopy]
    rfl
  have hlength : (comparison "" 1).type.params.length ≤ args.length := Nat.le_refl 1
  show Shows (step m slots) observe (call m (.code 1) args [] world) _
  rw [hstart]
  -- load, call, compare, return, and return again
  refine .later (b := .running [.code 1 (waiting args 4)] world) ?_ ?_
  · rw [step, hbody, execute_load hslot]
    rfl
  refine .later (b := .running [.code 4 (.start args), .code 1 (waiting args 4)] world) ?_ ?_
  · rw [step, hbody, execute_call args hlength, ← hcall]
    rfl
  refine .later (b := .running [.code 4 ((Activation.start args).write 0 (.value differs)).next,
    .code 1 (waiting args 4)] world) ?_ ?_
  · rw [step, hbody']
    rfl
  refine .later (b := .returning (.returned differs) [.code 1 (waiting args 4)] world) ?_ ?_
  · rw [step, hbody']
    rfl
  refine .later (b := .running [.code 1 ((waiting args 4).write 1 (.value differs)).next] world) ?_ ?_
  · rw [step, hbody, afterCall_returned]
    rfl
  refine .later (b := .returning (.returned differs) [] world) ?_ ?_
  · rw [step, hbody, execute_ret]
    rfl
  exact .here (.nil _)

end Mull.MutantExecution
