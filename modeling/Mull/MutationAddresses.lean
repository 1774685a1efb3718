import Mathlib.Data.Nat.Pairing
import Mull.Lib.MachineInt
import Mull.MutantExecution

/-!
# Addresses of instructions

A mutation point keeps the numbers of its function, its block and its instruction.  When
the passes have copied, emptied and rewritten functions, the point knows its clone by a
pointer, but it finds the original body by a name: that of the copy, put together from the
function's name and the file's identifier.

So every point mutates its own instruction, in whatever order the mutations are applied.
But the original is found again only if the copies could be given the names they asked for
(`addresses_stay_iff`).
-/

namespace Mull.MutationAddresses

open IR Mutators MutatorsFactory MutationPoints Schemata MachineInt

/-! ### Addresses -/

/-- The instruction at a position of a module. -/
def instructionAt (m : Module) (position : MutationPointAddress) : Option Instruction :=
  m.functions[position.functionIndex]?.bind fun function => position.findInstruction function.blocks

/-- Where functions, blocks and instructions lie in memory: different ones at different
    places. -/
structure Memory where
  function : Nat → Nat
  block : Nat → Nat → Nat
  instruction : MutationPointAddress → Nat
  function_injective : Function.Injective function
  block_injective : ∀ f, Function.Injective (block f)
  instruction_injective : Function.Injective instruction

/-- The number of a value in a container, which is the container's size if it is not there. -/
def getIndex (container : List Nat) (value : Nat) : Nat := container.idxOf value

/-- An index as an `int`; nothing stands at a negative one. -/
def narrow (index : Nat) : Option Nat :=
  if 0 ≤ toInt index then some (toInt index).toNat else none

/-- The constructor of an address. -/
def createAddress (functionIndex basicBlockIndex instructionIndex : Nat) :
    Option MutationPointAddress := do
  let functionIndex ← narrow functionIndex
  let basicBlockIndex ← narrow basicBlockIndex
  let instructionIndex ← narrow instructionIndex
  some ⟨functionIndex, basicBlockIndex, instructionIndex⟩

section Addresses

variable (memory : Memory) (m : Module)

def addressFromInstruction (position : MutationPointAddress) : Option MutationPointAddress :=
  let blocks := (m.functions[position.functionIndex]?.map Function.blocks).getD []
  let block := blocks[position.basicBlockIndex]?.getD []
  createAddress
    (getIndex ((List.range m.functions.length).map memory.function)
      (memory.function position.functionIndex))
    (getIndex ((List.range blocks.length).map (memory.block position.functionIndex))
      (memory.block position.functionIndex position.basicBlockIndex))
    (getIndex ((List.range block.length).map fun i =>
        memory.instruction { position with instructionIndex := i })
      (memory.instruction position))

/-- `findInstruction`, in a module: where the instruction lies. -/
def findInstruction (address : MutationPointAddress) : Option Nat :=
  (instructionAt m address).map fun _ => memory.instruction address

/-- The address of an instruction leads back to it. -/
def FoundAgain : Prop :=
  ∀ position, (instructionAt m position).isSome → ∃ address,
    addressFromInstruction memory m position = some address ∧
    findInstruction memory m address = some (memory.instruction position)

/-- Instructions with one identifier are one instruction. -/
def IdentifiersDiffer : Prop :=
  ∀ position position' address address', (instructionAt m position).isSome →
    (instructionAt m position').isSome →
    addressFromInstruction memory m position = some address →
    addressFromInstruction memory m position' = some address' →
    address.identifier = address'.identifier → position = position'

/-- All positions fit in `int`. -/
def Small : Prop :=
  ∀ position, (instructionAt m position).isSome → (position.functionIndex : Int) ≤ intMax ∧
    (position.basicBlockIndex : Int) ≤ intMax ∧ (position.instructionIndex : Int) ≤ intMax

variable {memory m}

theorem narrow_eq_self_iff {index : Nat} : narrow index = some index ↔ (index : Int) ≤ intMax := by
  unfold narrow
  constructor
  · intro h
    split at h
    · rename_i hnonneg
      have heq : toInt index = index := by
        have := Option.some.inj h
        omega
      rw [← heq]
      exact toInt_le_intMax index
    · cases h
  · intro hle
    rw [toInt_of_le hle]
    simp

theorem getIndex_map_range {f : Nat → Nat} (hf : Function.Injective f) {n k : Nat} (hk : k < n) :
    getIndex ((List.range n).map f) (f k) = k := by
  have hnodup : ((List.range n).map f).Nodup := List.nodup_range.map hf
  have hlt : k < ((List.range n).map f).length := by simpa using hk
  have hget : ((List.range n).map f)[k] = f k := by simp
  rw [getIndex, ← hget, hnodup.idxOf_getElem k hlt]

/-- The indices are those of the position, as far as they fit. -/
theorem addressFromInstruction_eq {position : MutationPointAddress}
    (h : (instructionAt m position).isSome) :
    addressFromInstruction memory m position =
      createAddress position.functionIndex position.basicBlockIndex position.instructionIndex := by
  obtain ⟨instruction, hinstruction⟩ := Option.isSome_iff_exists.mp h
  obtain ⟨function, hfunction, hfind⟩ := Option.bind_eq_some_iff.mp hinstruction
  obtain ⟨block, hblock, hget⟩ := Option.bind_eq_some_iff.mp hfind
  have hinjective : Function.Injective fun i =>
      memory.instruction { position with instructionIndex := i } := fun i j heq => by
    simpa using memory.instruction_injective heq
  have hposition := @getIndex_map_range (fun i =>
    memory.instruction { position with instructionIndex := i }) hinjective block.length
    position.instructionIndex (List.getElem?_eq_some_iff.mp hget).1
  simp only [addressFromInstruction, hfunction, hblock, Option.map_some, Option.getD_some,
    getIndex_map_range memory.function_injective (List.getElem?_eq_some_iff.mp hfunction).1,
    getIndex_map_range (memory.block_injective _) (List.getElem?_eq_some_iff.mp hblock).1,
    hposition]

theorem addressFromInstruction_of_small (hsmall : Small m) {position : MutationPointAddress}
    (h : (instructionAt m position).isSome) :
    addressFromInstruction memory m position = some position := by
  obtain ⟨hfunction, hblock, hinstruction⟩ := hsmall position h
  simp [addressFromInstruction_eq h, createAddress, narrow_eq_self_iff.mpr hfunction,
    narrow_eq_self_iff.mpr hblock, narrow_eq_self_iff.mpr hinstruction]

/-- An address that leads back to its instruction was not narrowed. -/
theorem foundAgain_iff_small : FoundAgain memory m ↔ Small m := by
  constructor
  · intro hfound position h
    obtain ⟨address, haddress, hfind⟩ := hfound position h
    obtain ⟨instruction, -, hsame⟩ := Option.map_eq_some_iff.mp hfind
    obtain rfl : address = position := memory.instruction_injective hsame
    rw [addressFromInstruction_eq h, createAddress] at haddress
    simp only [Option.bind_eq_bind, Option.bind_eq_some_iff] at haddress
    obtain ⟨f, hf, b, hb, i, hi, heq⟩ := haddress
    obtain rfl := Option.some.inj heq
    exact ⟨narrow_eq_self_iff.mp hf, narrow_eq_self_iff.mp hb, narrow_eq_self_iff.mp hi⟩
  · intro hsmall position h
    obtain ⟨instruction, hinstruction⟩ := Option.isSome_iff_exists.mp h
    exact ⟨position, addressFromInstruction_of_small hsmall h, by
      rw [findInstruction, hinstruction, Option.map_some]⟩

theorem identifiersDiffer_of_small (hsmall : Small m) : IdentifiersDiffer memory m := by
  intro position position' address address' h h' haddress haddress' hidentifier
  rw [addressFromInstruction_of_small hsmall h] at haddress
  rw [addressFromInstruction_of_small hsmall h'] at haddress'
  obtain rfl := Option.some.inj haddress
  obtain rfl := Option.some.inj haddress'
  exact (@address_eq_of_identifier [] [] position position' (by rw [hidentifier])).2

end Addresses

/-! ### After the passes -/

section Pipeline

variable (memory : Memory) (mutation : BodyMutation) (addressOf : Nat → Nat) (bitcode : Bitcode)
  (pointers : List Pointer)

/-- The file after the passes, when some mutations have been applied, in this order. -/
def appliedTo (done : List Pointer) : Prepared :=
  let redirected := redirect addressOf pointers bitcode
  { redirected with
    module := done.foldl (applyMutation mutation redirected.mutatedFunction) redirected.module }

/-- The function that `getOriginalValue` looks into; `none` if there is none of the name. -/
def originalBody (bitcodeIdentifier : String) (prepared : Prepared) (pointer : Pointer) :
    Option Nat :=
  match prepared.mutatedFunction pointer.2 with
  | none => some pointer.1.originalFunction
  | some _ => prepared.module.getFunction (getOriginalFunctionName
      (functionName prepared.module pointer.1.originalFunction) bitcodeIdentifier)

/-- `getOriginalValue`: the position of the value. -/
def getOriginalValue (bitcodeIdentifier : String) (prepared : Prepared) (pointer : Pointer) :
    Option MutationPointAddress :=
  (originalBody bitcodeIdentifier prepared pointer).map fun function =>
    { pointer.1.address with functionIndex := function }

/-- A function that `CloneFunction` made from function `k`, for a point or to keep the body. -/
def IsCopyOf (k f : Nat) : Prop :=
  (∃ j pointer, (clonedPointers addressOf pointers)[j]? = some pointer ∧
    pointer.1.originalFunction = k ∧ f = clonePosition bitcode j) ∨
  ∃ i, (originals addressOf pointers)[i]? = some k ∧ f = copyPosition addressOf pointers bitcode i

/-- A point that a mutator of the factory made for the instruction at a position. -/
structure PointFor (pointer : Pointer) (position : MutationPointAddress) : Prop where
  mutator : pointer.1.mutator ∈ registered
  instruction : (instructionAt bitcode.module position).isSome
  address : addressFromInstruction memory bitcode.module position = some pointer.1.address
  function : pointer.1.originalFunction = position.functionIndex
  identifier : pointer.1.uniqueIdentifier =
    uniqueIdentifier bitcode.uniqueIdentifier pointer.1.address pointer.1.mutator

/-- The original value of a point is an unmodified copy of its instruction. -/
def OriginalPresent (prepared : Prepared) (pointer : Pointer) (position : MutationPointAddress) :
    Prop :=
  ∃ value, getOriginalValue bitcode.uniqueIdentifier prepared pointer = some value ∧
    IsCopyOf addressOf bitcode pointers position.functionIndex value.functionIndex ∧
    instructionAt prepared.module value = instructionAt bitcode.module position

/-- Applying a point changes one function: the clone that this point has alone, in which its
    address leads to the copy of its instruction. -/
def ActsOnOwnClone (prepared : Prepared) (pointer : Pointer) (position : MutationPointAddress) :
    Prop :=
  ∃ f function, prepared.mutatedFunction pointer.2 = some f ∧
    (∀ pointer' ∈ pointers, prepared.mutatedFunction pointer'.2 = some f → pointer' = pointer) ∧
    prepared.module.functions[f]? = some function ∧
    pointer.1.address.findInstruction function.blocks = instructionAt bitcode.module position ∧
    applyMutation mutation prepared.mutatedFunction prepared.module pointer =
      prepared.module.setFunction f
        { function with blocks := mutation.apply pointer.1 function.blocks }

/-- Addresses stay valid through the pipeline, whichever points have been applied. -/
structure AddressesStay (positionOf : Pointer → MutationPointAddress) : Prop where
  found : FoundAgain memory bitcode.module
  identifiers : IdentifiersDiffer memory bitcode.module
  original : ∀ done ⊆ pointers, ∀ pointer ∈ pointers,
    OriginalPresent addressOf bitcode pointers
      (appliedTo mutation addressOf bitcode pointers done) pointer (positionOf pointer)
  applies : ∀ done ⊆ pointers, ∀ pointer ∈ pointers, pointer ∉ done →
    ActsOnOwnClone mutation bitcode pointers
      (appliedTo mutation addressOf bitcode pointers done) pointer (positionOf pointer)

/-- The copies of the mutated functions can have the names they ask for. -/
structure NamesFree : Prop where
  free : ∀ pointer ∈ pointers, getOriginalFunctionName
    (functionName bitcode.module pointer.1.originalFunction) bitcode.uniqueIdentifier ∉
      bitcode.module.names
  distinct : ∀ pointer ∈ pointers, ∀ pointer' ∈ pointers,
    functionName bitcode.module pointer.1.originalFunction =
      functionName bitcode.module pointer'.1.originalFunction →
    pointer.1.originalFunction = pointer'.1.originalFunction

variable {memory mutation addressOf bitcode pointers}

theorem NamesFree.distinct_originals (hfree : NamesFree bitcode pointers) :
    ∀ k ∈ originals addressOf pointers, ∀ k' ∈ originals addressOf pointers,
      functionName bitcode.module k = functionName bitcode.module k' → k = k' := by
  intro k hk k' hk' heq
  obtain ⟨pointer, hpointer, rfl⟩ := mem_originals.mp hk
  obtain ⟨pointer', hpointer', rfl⟩ := mem_originals.mp hk'
  exact hfree.distinct pointer hpointer pointer' hpointer' heq

/-- With all points applied in their order, the file is prepared. -/
theorem appliedTo_pointers :
    appliedTo mutation addressOf bitcode pointers pointers =
      prepare mutation addressOf pointers bitcode := rfl

theorem getFunction_eq (m : Module) (name : String) :
    m.getFunction name = (m.functions.map Function.name).findIdx? fun x => x = name := by
  rw [Module.getFunction, List.findIdx?_map]
  rfl

theorem map_name_congr {m m' : Module}
    (h : ∀ k : Nat, m.functions[k]?.map Function.name = m'.functions[k]?.map Function.name) :
    m.functions.map Function.name = m'.functions.map Function.name :=
  List.ext_getElem? fun k => by rw [List.getElem?_map, List.getElem?_map, h]

theorem map_name_applyMutations {mutatedFunction : Nat → Option Nat} {m : Module}
    (done : List Pointer) :
    (done.foldl (applyMutation mutation mutatedFunction) m).functions.map Function.name =
      m.functions.map Function.name := by
  induction done generalizing m with
  | nil => rfl
  | cons first rest ih =>
      rw [List.foldl_cons, ih]
      refine map_name_congr fun k => ?_
      rw [applyMutation_functions, Option.map_map]
      congr 1
      funext function
      simp only [Function.comp_apply]
      split <;> rfl

/-- The passes with what they have added. -/
structure Passed (addressOf : Nat → Nat) (pointers : List Pointer) (bitcode : Bitcode)
    (clones copies : List Function) (trampoline : Nat → String) (redirected : Module) : Prop
    extends Stages addressOf pointers bitcode clones copies trampoline redirected where
  redirect : redirect addressOf pointers bitcode = ⟨redirected,
    cloneOf bitcode.module.functions.length (clonedPointers addressOf pointers)⟩
  nodup : (pointers.map Prod.snd).Nodup
  valid : ∀ pointer ∈ pointers, pointer.1.originalFunction < bitcode.module.functions.length
  mutator : ∀ pointer ∈ pointers, ∃ address, ∃ mutator ∈ registered,
    pointer.1.uniqueIdentifier = uniqueIdentifier bitcode.uniqueIdentifier address mutator

namespace Passed

variable {clones copies : List Function} {trampoline : Nat → String} {redirected : Module}
  (h : Passed addressOf pointers bitcode clones copies trampoline redirected)

include h

/-- The names that the passes leave; no mutation changes them. -/
theorem map_name_appliedTo (done : List Pointer) :
    (appliedTo mutation addressOf bitcode pointers done).module.functions.map Function.name =
      bitcode.module.functions.map Function.name ++ clones.map Function.name ++
        copies.map Function.name := by
  simp only [appliedTo, map_name_applyMutations, h.redirect, ← List.map_append]
  refine @map_name_congr redirected
    { redirected with functions := bitcode.module.functions ++ clones ++ copies } fun k => ?_
  rw [h.functions, Option.map_map]
  congr 1
  funext function
  simp only [Function.comp_apply]
  split <;> rfl

theorem mutatedFunction_eq_some_iff {done : List Pointer} {p f : Nat} :
    (appliedTo mutation addressOf bitcode pointers done).mutatedFunction p = some f ↔
      ∃ j pointer, (clonedPointers addressOf pointers)[j]? = some pointer ∧ pointer.2 = p ∧
        f = clonePosition bitcode j := by
  simp only [appliedTo, h.redirect]
  exact cloneOf_eq_some_iff (nodup_clonedPointers h.nodup)

theorem exists_clone (done : List Pointer) {pointer : Pointer} (hpointer : pointer ∈ pointers) :
    ∃ j, (clonedPointers addressOf pointers)[j]? = some pointer ∧
      (appliedTo mutation addressOf bitcode pointers done).mutatedFunction pointer.2 =
        some (clonePosition bitcode j) := by
  obtain ⟨j, hj⟩ := List.getElem?_of_mem
    ((@mem_clonedPointers addressOf pointers pointer).mpr hpointer)
  exact ⟨j, hj, h.mutatedFunction_eq_some_iff.mpr ⟨j, pointer, hj, rfl, rfl⟩⟩

theorem functionName_appliedTo (done : List Pointer) {k : Nat}
    (hk : k < bitcode.module.functions.length) :
    functionName (appliedTo mutation addressOf bitcode pointers done).module k =
      functionName bitcode.module k := by
  refine functionName_congr ?_
  rw [← List.getElem?_map, h.map_name_appliedTo, List.append_assoc,
    List.getElem?_append_left (by rwa [List.length_map]), List.getElem?_map]

/-- No clone has the name that a copy asks for. -/
theorem original_not_mem_clones (name : String) :
    getOriginalFunctionName name bitcode.uniqueIdentifier ∉ clones.map Function.name := by
  intro hmem
  obtain ⟨clone, hclone, hname⟩ := List.mem_map.mp hmem
  obtain ⟨j, hj⟩ := List.getElem?_of_mem hclone
  have hlt : j < (clonedPointers addressOf pointers).length := by
    rw [← h.length_clones]
    exact (List.getElem?_eq_some_iff.mp hj).1
  have hpointer := List.getElem?_eq_getElem hlt
  obtain ⟨function, taken, -, hget, -⟩ := h.cloned.copy j _ _ (getElem?_cloneRequests hpointer)
  obtain ⟨address, mutator, hmutator, hidentifier⟩ :=
    h.mutator _ (mem_clonedPointers.mp (List.mem_of_getElem? hpointer))
  rw [hj] at hget
  obtain rfl := Option.some.inj hget
  rw [hidentifier] at hname
  exact uniqueName_identifier_ne_original hmutator taken hname

section NamesFree

variable (hfree : NamesFree bitcode pointers)

include hfree

/-- Neither the module nor a clone has a name that a copy asks for. -/
theorem original_new {k : Nat} (hk : k ∈ originals addressOf pointers) :
    getOriginalFunctionName (functionName bitcode.module k) bitcode.uniqueIdentifier ∉
      bitcode.module.names ++ clones.map Function.name := by
  intro hmem
  obtain ⟨pointer, hpointer, rfl⟩ := mem_originals.mp hk
  rcases List.mem_append.mp hmem with hold | hclone
  · exact hfree.free pointer hpointer hold
  · exact h.original_not_mem_clones _ hclone

theorem copyName_eq {i k : Nat} (hi : (originals addressOf pointers)[i]? = some k) :
    copies[i]?.map Function.name =
      some (getOriginalFunctionName (functionName bitcode.module k) bitcode.uniqueIdentifier) :=
  h.copyName_of_new hfree.distinct_originals (fun _ hk => h.original_new hfree hk) hi

/-- One copy has the name that the copy of `k` asks for. -/
theorem eq_of_copyName {i j k : Nat} (hi : (originals addressOf pointers)[i]? = some k)
    (hj : (copies.map Function.name)[j]? =
      some (getOriginalFunctionName (functionName bitcode.module k) bitcode.uniqueIdentifier)) :
    j = i := by
  have hlt : j < (originals addressOf pointers).length := by
    rw [← h.length_copies]
    simpa using (List.getElem?_eq_some_iff.mp hj).1
  have hk' := List.getElem?_eq_getElem hlt
  rw [List.getElem?_map, h.copyName_eq hfree hk'] at hj
  have hsame : (originals addressOf pointers)[j] = k :=
    hfree.distinct_originals _ (List.mem_of_getElem? hk') _ (List.mem_of_getElem? hi)
      (getOriginalFunctionName_inj (Option.some.inj hj))
  refine (List.getElem?_inj hlt originals_nodup).mp ?_
  rw [hk', hi, hsame]

/-- A copy is found by the name it asked for, if the names are free. -/
theorem getFunction_copy (done : List Pointer) {i k : Nat}
    (hi : (originals addressOf pointers)[i]? = some k) :
    (appliedTo mutation addressOf bitcode pointers done).module.getFunction
        (getOriginalFunctionName (functionName bitcode.module k) bitcode.uniqueIdentifier) =
      some (copyPosition addressOf pointers bitcode i) := by
  rw [getFunction_eq, h.map_name_appliedTo]
  have hlength : copyPosition addressOf pointers bitcode i =
      (bitcode.module.functions.map Function.name ++ clones.map Function.name).length + i := by
    rw [copyPosition, List.length_append, List.length_map, List.length_map, h.length_clones]
  refine MutantExecution.findIdx?_unique (x := getOriginalFunctionName
    (functionName bitcode.module k) bitcode.uniqueIdentifier) ?_ (by simp) fun j y hy hname => ?_
  · rw [hlength, List.getElem?_append_right (by omega), Nat.add_sub_cancel_left,
      List.getElem?_map, h.copyName_eq hfree hi]
  · obtain rfl : y = getOriginalFunctionName (functionName bitcode.module k)
        bitcode.uniqueIdentifier := by simpa using hname
    by_cases hj : j < (bitcode.module.functions.map Function.name ++
        clones.map Function.name).length
    · -- the name is that of no older function
      rw [List.getElem?_append_left hj] at hy
      refine absurd ?_ (h.original_new hfree (List.mem_of_getElem? hi))
      rcases List.mem_append.mp (List.mem_of_getElem? hy) with hold | hclone
      · exact List.mem_append_left _ (List.mem_append_left _ hold)
      · exact List.mem_append_right _ hclone
    · rw [List.getElem?_append_right (by omega)] at hy
      have := h.eq_of_copyName hfree hi hy
      omega

end NamesFree

/-- A function that was found under the name of a copy of `k`, and is one, shows that the
    name was free. -/
theorem copyPosition_of_getFunction {done : List Pointer} {k f : Nat}
    (hfind : (appliedTo mutation addressOf bitcode pointers done).module.getFunction
        (getOriginalFunctionName (functionName bitcode.module k) bitcode.uniqueIdentifier) = some f)
    (hcopy : IsCopyOf addressOf bitcode pointers k f) :
    getOriginalFunctionName (functionName bitcode.module k) bitcode.uniqueIdentifier ∉
        bitcode.module.names ∧
      ∃ i, (originals addressOf pointers)[i]? = some k ∧
        f = copyPosition addressOf pointers bitcode i := by
  rw [getFunction_eq, h.map_name_appliedTo] at hfind
  obtain ⟨hlt, hname, -⟩ := List.findIdx?_eq_some_iff_getElem.mp hfind
  have hget := List.getElem?_eq_getElem hlt
  rw [of_decide_eq_true hname, List.append_assoc] at hget
  rcases hcopy with ⟨j, pointer, hj, -, rfl⟩ | ⟨i, hi, rfl⟩
  · -- not a clone: its name is another one
    have hlength : j < (clones.map Function.name).length := by
      rw [List.length_map, h.length_clones]
      exact (List.getElem?_eq_some_iff.mp hj).1
    rw [clonePosition, List.getElem?_append_right (by simp), List.length_map,
      Nat.add_sub_cancel_left, List.getElem?_append_left hlength] at hget
    exact absurd (List.mem_of_getElem? hget) (h.original_not_mem_clones _)
  · refine ⟨fun hmem => ?_, i, hi, rfl⟩
    obtain ⟨function, taken, -, hcopied, htaken, -⟩ :=
      h.copied.copy i _ _ (getElem?_originalRequests hi)
    have hlength : copyPosition addressOf pointers bitcode i =
        (bitcode.module.functions.map Function.name ++ clones.map Function.name).length + i := by
      rw [copyPosition, List.length_append, List.length_map, List.length_map, h.length_clones]
    rw [hlength, ← List.append_assoc, List.getElem?_append_right (by omega),
      Nat.add_sub_cancel_left, List.getElem?_map, hcopied] at hget
    -- the copy was not renamed, so nothing in the module has its name
    refine Module.uniqueName_eq_iff.mp (Option.some.inj hget) (htaken _ ?_)
    rcases List.mem_append.mp hmem with hfunction | hglobal
    · rw [Module.names, List.map_append]
      exact List.mem_append_left _ (List.mem_append_left _ hfunction)
    · exact List.mem_append_right _ hglobal

/-- A copy is not touched by the mutations. -/
theorem instructionAt_copy {done : List Pointer} {i k : Nat}
    (hi : (originals addressOf pointers)[i]? = some k) (address : MutationPointAddress) :
    instructionAt (appliedTo mutation addressOf bitcode pointers done).module
        { address with functionIndex := copyPosition addressOf pointers bitcode i } =
      instructionAt bitcode.module { address with functionIndex := k } := by
  have hk : k < bitcode.module.functions.length :=
    lt_of_mem_originals h.valid k (List.mem_of_getElem? hi)
  obtain ⟨function, taken, hfunction, hcopy, -⟩ :=
    h.copied.copy i _ _ (getElem?_originalRequests hi)
  rw [List.getElem?_append_left hk] at hfunction
  have hget : (appliedTo mutation addressOf bitcode pointers done).module.functions[copyPosition
      addressOf pointers bitcode i]? = copies[i]? := by
    rw [← h.getElem?_copy h.valid i]
    simp only [appliedTo, h.redirect]
    refine applyMutations_functions_of_ne fun pointer _ hclone => ?_
    obtain ⟨j, q, hj, -, heq⟩ := (cloneOf_eq_some_iff (nodup_clonedPointers h.nodup)).mp hclone
    have := (List.getElem?_eq_some_iff.mp hj).1
    simp only [copyPosition] at heq
    omega
  simp only [instructionAt, hget, hcopy, hfunction, Option.bind_some,
    MutationPointAddress.findInstruction]

/-- A clone is not touched by the mutations of other points. -/
theorem getElem?_clone_appliedTo {done : List Pointer} (hdone : done ⊆ pointers) {j : Nat}
    {pointer : Pointer} (hj : (clonedPointers addressOf pointers)[j]? = some pointer)
    (hnot : pointer ∉ done) : ∃ name,
      (appliedTo mutation addressOf bitcode pointers done).module.functions[clonePosition bitcode j]? =
        bitcode.module.functions[pointer.1.originalFunction]?.map fun function =>
          { function with name := name } := by
  have hlt : j < clones.length := h.length_clones ▸ (List.getElem?_eq_some_iff.mp hj).1
  obtain ⟨function, taken, hfunction, hclone, -⟩ := h.cloned.copy j _ _ (getElem?_cloneRequests hj)
  refine ⟨Module.uniqueName taken pointer.1.uniqueIdentifier, ?_⟩
  rw [hfunction, Option.map_some, ← hclone, ← h.getElem?_clone h.valid hlt]
  simp only [appliedTo, h.redirect]
  refine applyMutations_functions_of_ne fun pointer' hpointer' hsame => hnot ?_
  obtain ⟨j', q, hj', hq, heq⟩ := (cloneOf_eq_some_iff (nodup_clonedPointers h.nodup)).mp hsame
  obtain rfl : j' = j := by
    simp only [clonePosition] at heq
    omega
  obtain rfl : pointer = q := Option.some.inj (hj.symm.trans hj')
  have hpointer := mem_clonedPointers.mp (List.mem_of_getElem? hj)
  rwa [List.inj_on_of_nodup_map h.nodup hpointer (hdone hpointer') hq]

end Passed

theorem PointFor.address_eq {pointer : Pointer} {position : MutationPointAddress}
    (h : PointFor memory bitcode pointer position) (hsmall : Small bitcode.module) :
    pointer.1.address = position := by
  have haddress := h.address
  rw [addressFromInstruction_of_small hsmall h.instruction] at haddress
  exact (Option.some.inj haddress).symm

theorem exists_passed {positionOf : Pointer → MutationPointAddress}
    (hnodup : (pointers.map Prod.snd).Nodup)
    (hpoints : ∀ pointer ∈ pointers, PointFor memory bitcode pointer (positionOf pointer)) :
    ∃ clones copies trampoline redirected,
      Passed addressOf pointers bitcode clones copies trampoline redirected := by
  have hvalid : ∀ pointer ∈ pointers,
      pointer.1.originalFunction < bitcode.module.functions.length := by
    intro pointer hpointer
    obtain ⟨instruction, hinstruction⟩ :=
      Option.isSome_iff_exists.mp (hpoints pointer hpointer).instruction
    obtain ⟨function, hfunction, -⟩ := Option.bind_eq_some_iff.mp hinstruction
    rw [(hpoints pointer hpointer).function]
    exact (List.getElem?_eq_some_iff.mp hfunction).1
  obtain ⟨clones, copies, trampoline, redirected, hstages, hredirect⟩ :=
    @exists_stages addressOf pointers bitcode hnodup hvalid
  exact ⟨clones, copies, trampoline, redirected, hstages, hredirect, hnodup, hvalid,
    fun pointer hpointer => ⟨_, _, (hpoints pointer hpointer).mutator,
      (hpoints pointer hpointer).identifier⟩⟩

/-! ### When addresses stay valid -/

section Valid

variable {positionOf : Pointer → MutationPointAddress} {clones copies : List Function}
  {trampoline : Nat → String} {redirected : Module}
  (h : Passed addressOf pointers bitcode clones copies trampoline redirected)
  (hpoints : ∀ pointer ∈ pointers, PointFor memory bitcode pointer (positionOf pointer))

include h hpoints

theorem originalBody_eq {done : List Pointer} {pointer : Pointer} (hpointer : pointer ∈ pointers) :
    originalBody bitcode.uniqueIdentifier
        (appliedTo mutation addressOf bitcode pointers done) pointer =
      (appliedTo mutation addressOf bitcode pointers done).module.getFunction
        (getOriginalFunctionName (functionName bitcode.module (positionOf pointer).functionIndex)
          bitcode.uniqueIdentifier) := by
  obtain ⟨j, hj, hclone⟩ := h.exists_clone done hpointer
  rw [originalBody, hclone, ← (hpoints pointer hpointer).function,
    ← h.functionName_appliedTo done (h.valid pointer hpointer)]

/-- With free names the original of a point is present. -/
theorem originalPresent (hsmall : Small bitcode.module) (hfree : NamesFree bitcode pointers)
    (done : List Pointer) {pointer : Pointer} (hpointer : pointer ∈ pointers) :
    OriginalPresent addressOf bitcode pointers
      (appliedTo mutation addressOf bitcode pointers done) pointer (positionOf pointer) := by
  have hpoint := hpoints pointer hpointer
  have hk : (positionOf pointer).functionIndex ∈ originals addressOf pointers :=
    mem_originals.mpr ⟨pointer, hpointer, hpoint.function⟩
  obtain ⟨i, hi⟩ := List.getElem?_of_mem hk
  have haddress := hpoint.address_eq hsmall
  refine ⟨{ pointer.1.address with functionIndex := copyPosition addressOf pointers bitcode i }, ?_,
    .inr ⟨i, hi, rfl⟩, ?_⟩
  · rw [getOriginalValue, originalBody_eq h hpoints hpointer, h.getFunction_copy hfree done hi,
      Option.map_some]
  · rw [h.instructionAt_copy hi, haddress]

/-- Originals that are present show that the names were free. -/
theorem namesFree_of_original (horiginal : ∀ pointer ∈ pointers,
    OriginalPresent addressOf bitcode pointers
      (appliedTo mutation addressOf bitcode pointers []) pointer (positionOf pointer)) :
    NamesFree bitcode pointers := by
  have hcopies : ∀ pointer ∈ pointers, ∃ f,
      (appliedTo mutation addressOf bitcode pointers []).module.getFunction
        (getOriginalFunctionName (functionName bitcode.module pointer.1.originalFunction)
          bitcode.uniqueIdentifier) = some f ∧
      IsCopyOf addressOf bitcode pointers pointer.1.originalFunction f := by
    intro pointer hpointer
    obtain ⟨value, hvalue, hcopy, -⟩ := horiginal pointer hpointer
    obtain ⟨f, hf, rfl⟩ := Option.map_eq_some_iff.mp hvalue
    rw [originalBody_eq h hpoints hpointer] at hf
    rw [(hpoints pointer hpointer).function]
    exact ⟨f, hf, hcopy⟩
  constructor
  · intro pointer hpointer
    obtain ⟨f, hf, hcopy⟩ := hcopies pointer hpointer
    exact (h.copyPosition_of_getFunction hf hcopy).1
  · intro pointer hpointer pointer' hpointer' hname
    obtain ⟨f, hf, hcopy⟩ := hcopies pointer hpointer
    obtain ⟨f', hf', hcopy'⟩ := hcopies pointer' hpointer'
    obtain ⟨-, i, hi, rfl⟩ := h.copyPosition_of_getFunction hf hcopy
    obtain ⟨-, i', hi', rfl⟩ := h.copyPosition_of_getFunction hf' hcopy'
    -- one name leads to one copy
    rw [hname, hf'] at hf
    obtain rfl : i' = i := by
      have := Option.some.inj hf
      simp only [copyPosition] at this
      omega
    exact Option.some.inj (hi.symm.trans hi')

/-- A point that has not been applied acts on its own clone. -/
theorem actsOnOwnClone (hsmall : Small bitcode.module) {done : List Pointer}
    (hdone : done ⊆ pointers) {pointer : Pointer} (hpointer : pointer ∈ pointers)
    (hnot : pointer ∉ done) :
    ActsOnOwnClone mutation bitcode pointers
      (appliedTo mutation addressOf bitcode pointers done) pointer (positionOf pointer) := by
  have hpoint := hpoints pointer hpointer
  have haddress := hpoint.address_eq hsmall
  obtain ⟨j, hj, hclone⟩ := h.exists_clone done hpointer
  obtain ⟨name, hget⟩ := h.getElem?_clone_appliedTo hdone hj hnot
  obtain ⟨instruction, hinstruction⟩ := Option.isSome_iff_exists.mp hpoint.instruction
  obtain ⟨function, hfunction, hfind⟩ := Option.bind_eq_some_iff.mp hinstruction
  rw [hpoint.function, hfunction, Option.map_some] at hget
  refine ⟨clonePosition bitcode j, _, hclone, ?_, hget, ?_, ?_⟩
  · intro pointer' hpointer' hsame
    obtain ⟨j', q, hj', hq, heq⟩ := h.mutatedFunction_eq_some_iff.mp hsame
    obtain rfl : j' = j := by
      simp only [clonePosition] at heq
      omega
    obtain rfl : pointer = q := Option.some.inj (hj.symm.trans hj')
    exact (List.inj_on_of_nodup_map h.nodup hpointer hpointer' hq).symm
  · rw [haddress, hfind, hinstruction]
  · simp only [applyMutation, hclone, hget]

end Valid

/-- **Addresses stay valid through the pipeline exactly if positions fit in `int` and the
    copies of the originals can have the names they ask for.**  Two functions without names
    ask for one name: the second copy is renamed, and the points of the second function take
    the body of the first for their original. -/
theorem addresses_stay_iff (memory : Memory) (mutation : BodyMutation) (addressOf : Nat → Nat)
    (bitcode : Bitcode) (pointers : List Pointer) (positionOf : Pointer → MutationPointAddress)
    (hnodup : (pointers.map Prod.snd).Nodup)
    (hpoints : ∀ pointer ∈ pointers, PointFor memory bitcode pointer (positionOf pointer)) :
    AddressesStay memory mutation addressOf bitcode pointers positionOf ↔
      Small bitcode.module ∧ NamesFree bitcode pointers := by
  obtain ⟨clones, copies, trampoline, redirected, hpassed⟩ :=
    @exists_passed memory addressOf bitcode pointers positionOf hnodup hpoints
  constructor
  · intro hstay
    exact ⟨foundAgain_iff_small.mp hstay.found, namesFree_of_original hpassed hpoints
      (hstay.original [] (List.nil_subset _))⟩
  · rintro ⟨hsmall, hfree⟩
    exact ⟨foundAgain_iff_small.mpr hsmall, identifiersDiffer_of_small hsmall,
      fun done _ pointer hpointer => originalPresent hpassed hpoints hsmall hfree done hpointer,
      fun done hdone pointer hpointer hnot =>
        actsOnOwnClone hpassed hpoints hsmall hdone hpointer hnot⟩

end Pipeline

/-! ### Comparisons -/

open MutantExecution

/-- Modules with lists that are short enough. -/
theorem small_of_length {m : Module} (hfunctions : (m.functions.length : Int) ≤ intMax)
    (hblocks : ∀ function ∈ m.functions, (function.blocks.length : Int) ≤ intMax ∧
      ∀ block ∈ function.blocks, (block.length : Int) ≤ intMax) : Small m := by
  intro position h
  obtain ⟨instruction, hinstruction⟩ := Option.isSome_iff_exists.mp h
  obtain ⟨function, hfunction, hfind⟩ := Option.bind_eq_some_iff.mp hinstruction
  obtain ⟨block, hblock, hget⟩ := Option.bind_eq_some_iff.mp hfind
  obtain ⟨hlength, hshort⟩ := hblocks function (List.mem_of_getElem? hfunction)
  have hf := (List.getElem?_eq_some_iff.mp hfunction).1
  have hb := (List.getElem?_eq_some_iff.mp hblock).1
  have hi := (List.getElem?_eq_some_iff.mp hget).1
  have hblockLength := hshort block (List.mem_of_getElem? hblock)
  omega

/-- Everything lies where its numbers are. -/
def memory : Memory where
  function f := f
  block _ b := b
  instruction position :=
    Nat.pair position.functionIndex (Nat.pair position.basicBlockIndex position.instructionIndex)
  function_injective _ _ h := h
  block_injective _ _ _ h := h
  instruction_injective position position' h := by
    obtain ⟨hfunction, hrest⟩ := Nat.pair_eq_pair.mp h
    obtain ⟨hblock, hinstruction⟩ := Nat.pair_eq_pair.mp hrest
    cases position
    cases position'
    simp_all

theorem small_comparisons {names : List String} (hnames : (names.length : Int) ≤ intMax) :
    Small (comparisons names).module := by
  refine small_of_length ?_ fun function hfunction => ?_
  · simpa [comparisons] using hnames
  · obtain ⟨entry, -, rfl⟩ := List.mem_map.mp hfunction
    simp [comparison, intMax]

theorem pointFor_comparisons {names : List String} (hnames : (names.length : Int) ≤ intMax)
    {pointer : Pointer} (hpointer : pointer ∈ comparisonPointers names) :
    PointFor memory (comparisons names) pointer pointer.1.address := by
  obtain ⟨entry, hentry, rfl⟩ := List.mem_map.mp hpointer
  have hname := List.mem_zipIdx_iff_getElem?.mp hentry
  have hinstruction : (instructionAt (comparisons names).module ⟨entry.2, 0, 0⟩).isSome := by
    simp [instructionAt, comparisons, hname, comparison, MutationPointAddress.findInstruction]
  exact ⟨by simp [MutationPoint.create, registered], hinstruction,
    addressFromInstruction_of_small (small_comparisons hnames) hinstruction, rfl, rfl⟩

/-- With a name for the function, the addresses stay valid. -/
theorem addresses_stay_named : AddressesStay memory negateCondition (fun f => f)
    (comparisons ["is_zero"]) (comparisonPointers ["is_zero"]) (·.1.address) := by
  refine (addresses_stay_iff memory negateCondition (fun f => f) (comparisons ["is_zero"])
    (comparisonPointers ["is_zero"]) (·.1.address) (List.nodup_singleton _)
    fun pointer hpointer => pointFor_comparisons (by decide) hpointer).mpr
    ⟨small_comparisons (by decide), ?_, ?_⟩
  · decide +kernel
  · decide +kernel

/-- Two functions without names: the points of the second find the body of the first. -/
theorem not_addresses_stay_unnamed :
    ((comparisonPointers ["", ""]).map Prod.snd).Nodup ∧
    (∀ pointer ∈ comparisonPointers ["", ""],
      PointFor memory (comparisons ["", ""]) pointer pointer.1.address) ∧
    ¬ AddressesStay memory negateCondition (fun f => f) (comparisons ["", ""])
      (comparisonPointers ["", ""]) (·.1.address) := by
  have hnodup : ((comparisonPointers ["", ""]).map Prod.snd).Nodup := by decide +kernel
  have hpoints : ∀ pointer ∈ comparisonPointers ["", ""],
      PointFor memory (comparisons ["", ""]) pointer pointer.1.address :=
    fun pointer hpointer => pointFor_comparisons (by decide) hpointer
  refine ⟨hnodup, hpoints, fun hstay => ?_⟩
  obtain ⟨clones, copies, trampoline, redirected, hpassed⟩ :=
    @exists_passed memory (fun f => f) (comparisons ["", ""]) (comparisonPointers ["", ""])
      (·.1.address) hnodup hpoints
  have hfree := namesFree_of_original hpassed hpoints (hstay.original [] (List.nil_subset _))
  revert hfree
  rintro ⟨-, hdistinct⟩
  revert hdistinct
  decide +kernel

end Mull.MutationAddresses
