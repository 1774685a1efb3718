import Mull.MutatorsFactory

/-!
# Mutation points

A mutation point is a place in a bitcode file at which a mutator can be applied.  Its
identifier is the name of the function that will hold the mutant, and is put together
from the identifiers of the file, of the place and of the mutator.  The file, the place
and the mutator can be read off from it, but not the low-level mutation.
-/

namespace Mull.MutationPoints

open IR Mutators MutatorsFactory

/-! ### Addresses -/

/-- The position of an instruction: the function in its module, the basic block in the
    function and the instruction in the block. -/
structure MutationPointAddress where
  functionIndex : Nat
  basicBlockIndex : Nat
  instructionIndex : Nat
deriving DecidableEq, Repr

namespace MutationPointAddress

def identifier (address : MutationPointAddress) : String :=
  toString address.functionIndex ++ "_" ++ toString address.basicBlockIndex ++ "_" ++
    toString address.instructionIndex

/-- `findInstruction`, in the body of a function. -/
def findInstruction (address : MutationPointAddress) (blocks : List Block) : Option Instruction :=
  blocks[address.basicBlockIndex]?.bind fun block => block[address.instructionIndex]?

theorem toList_identifier (address : MutationPointAddress) :
    address.identifier.toList = ((toString address.functionIndex).toList ++
      '_' :: (toString address.basicBlockIndex).toList) ++
      '_' :: (toString address.instructionIndex).toList := by
  simp [identifier]

end MutationPointAddress

/-- The addresses of the instructions of a function, in order. -/
def instructionAddresses (functionIndex : Nat) (blocks : List Block) :
    List MutationPointAddress :=
  blocks.zipIdx.flatMap fun (block, b) =>
    (List.range block.length).map fun i => ⟨functionIndex, b, i⟩

/-! ### Bitcode files and points -/

/-- A module with the identifier that was made from its contents. -/
structure Bitcode where
  module : Module
  uniqueIdentifier : String
deriving DecidableEq, Repr

/-- The files of a program.  A module is identified by the digest of its contents, and
    `addBitcode` refuses a second one with the same digest. -/
structure Program where
  bitcode : List Bitcode
  distinct : (bitcode.map Bitcode.uniqueIdentifier).Nodup

/-- A mutation point; `bitcode` is the position of its file in the program. -/
structure MutationPoint where
  mutator : Mutator
  irMutator : Option IRMutation
  address : MutationPointAddress
  bitcode : Nat
  originalFunction : Nat
  replacement : String
  diagnostics : String
  uniqueIdentifier : String
  reachableTests : List (Nat × Int)
deriving DecidableEq, Repr

def uniqueIdentifier (bitcodeIdentifier : String) (address : MutationPointAddress)
    (mutator : Mutator) : String :=
  bitcodeIdentifier ++ "_" ++ address.identifier ++ "_" ++ mutator.uniqueIdentifier

/-- The name of the function that a call calls; empty if there is none. -/
def calledFunctionName (m : Module) (instruction : Instruction) : String :=
  match instruction.callee? with
  | some (.function f) => (m.functions[f]?.map Function.name).getD ""
  | _ => ""

/-- The constructor of a mutation point. -/
def MutationPoint.create (mutator : Mutator) (irMutator : Option IRMutation)
    (address : MutationPointAddress) (instruction : Instruction) (b : Nat) (bitcode : Bitcode) :
    MutationPoint where
  mutator := mutator
  irMutator := irMutator
  address := address
  bitcode := b
  originalFunction := address.functionIndex
  replacement := (mutator.texts.render irMutator (calledFunctionName bitcode.module instruction)).1
  diagnostics := (mutator.texts.render irMutator (calledFunctionName bitcode.module instruction)).2
  uniqueIdentifier := MutationPoints.uniqueIdentifier bitcode.uniqueIdentifier address mutator
  reachableTests := []

def getTrampolineName (functionName bitcodeIdentifier : String) : String :=
  functionName ++ "_" ++ bitcodeIdentifier ++ "_trampoline"

def getOriginalFunctionName (functionName bitcodeIdentifier : String) : String :=
  functionName ++ "_" ++ bitcodeIdentifier ++ "_original"

/-! ### What the identifier tells -/

/-- The identifiers of the mutators are evaluated once, for all that is needed of them. -/
theorem registered_identifiers : (registered.map fun mutator => mutator.uniqueIdentifier.toList).all
    (fun cs => cs.all (fun c => !c.isDigit) && !"_original".toList.isSuffixOf ('_' :: cs)) = true := by
  decide +kernel

theorem registered_no_digits :
    ∀ mutator ∈ registered, ∀ c ∈ mutator.uniqueIdentifier.toList, c.isDigit = false := by
  intro mutator hmutator c hc
  have hall := List.all_eq_true.mp registered_identifiers _ (List.mem_map_of_mem hmutator)
  simp only [Bool.and_eq_true, List.all_eq_true] at hall
  simpa using hall.1 c hc

theorem registered_not_original : ∀ mutator ∈ registered,
    ¬ "_original".toList <:+ '_' :: mutator.uniqueIdentifier.toList := by
  intro mutator hmutator hsuffix
  have hall := List.all_eq_true.mp registered_identifiers _ (List.mem_map_of_mem hmutator)
  simp only [Bool.and_eq_true, List.isSuffixOf_iff_suffix.mpr hsuffix] at hall
  exact absurd hall.2 (by decide)

theorem original_no_digits : ∀ c ∈ "_original".toList, ¬ c.isDigit = true := by
  have hall : "_original".toList.all (fun c => !c.isDigit) = true := by decide
  intro c hc
  simpa using List.all_eq_true.mp hall c hc

theorem underscore_not_mem_toString (n : Nat) : '_' ∉ (toString n).toList := by
  intro hmem
  have hdigit := Naming.isDigit_of_mem_toString hmem
  revert hdigit
  decide

theorem MutationPointAddress.eq_of_digits {address address' : MutationPointAddress}
    (hfunction : (toString address.functionIndex).toList =
      (toString address'.functionIndex).toList)
    (hblock : (toString address.basicBlockIndex).toList =
      (toString address'.basicBlockIndex).toList)
    (hinstruction : (toString address.instructionIndex).toList =
      (toString address'.instructionIndex).toList) : address = address' := by
  cases address
  cases address'
  simp only [MutationPointAddress.mk.injEq]
  exact ⟨Naming.toString_toList_inj hfunction, Naming.toString_toList_inj hblock,
    Naming.toString_toList_inj hinstruction⟩

theorem address_eq_of_identifier {bitcode bitcode' : List Char}
    {address address' : MutationPointAddress}
    (h : bitcode ++ '_' :: address.identifier.toList =
      bitcode' ++ '_' :: address'.identifier.toList) : bitcode = bitcode' ∧ address = address' := by
  have hshape : ∀ (cs : List Char) (a : MutationPointAddress), cs ++ '_' :: a.identifier.toList =
      ((cs ++ '_' :: (toString a.functionIndex).toList) ++
        '_' :: (toString a.basicBlockIndex).toList) ++ '_' :: (toString a.instructionIndex).toList := by
    intro cs a
    simp [MutationPointAddress.toList_identifier]
  -- the three numbers are split off from the right
  rw [hshape, hshape] at h
  obtain ⟨h, hinstruction⟩ := Naming.split_at_last_eq (underscore_not_mem_toString _)
    (underscore_not_mem_toString _) h
  obtain ⟨h, hblock⟩ := Naming.split_at_last_eq (underscore_not_mem_toString _)
    (underscore_not_mem_toString _) h
  obtain ⟨h, hfunction⟩ := Naming.split_at_last_eq (underscore_not_mem_toString _)
    (underscore_not_mem_toString _) h
  exact ⟨h, MutationPointAddress.eq_of_digits hfunction hblock hinstruction⟩

/-- An identifier up to its last digit, and the name of the mutator. -/
theorem uniqueIdentifier_shape (bitcode : String) (address : MutationPointAddress)
    (mutator : Mutator) : ∃ front digit, digit.isDigit = true ∧
      bitcode.toList ++ '_' :: address.identifier.toList = front ++ [digit] ∧
      (uniqueIdentifier bitcode address mutator).toList =
        front ++ digit :: '_' :: mutator.uniqueIdentifier.toList := by
  obtain ⟨digits, digit, hdigits, hdigit⟩ := Naming.toString_eq_append address.instructionIndex
  refine ⟨bitcode.toList ++ '_' :: (((toString address.functionIndex).toList ++
    '_' :: (toString address.basicBlockIndex).toList) ++ '_' :: digits), digit, hdigit, ?_, ?_⟩
  · rw [MutationPointAddress.toList_identifier, hdigits]
    simp only [List.append_assoc, List.cons_append]
  · simp only [uniqueIdentifier, String.toList_append, MutationPointAddress.toList_identifier, hdigits]
    simp

theorem no_digit_of_registered {mutator : Mutator} (h : mutator ∈ registered) :
    ∀ c ∈ '_' :: mutator.uniqueIdentifier.toList, ¬ c.isDigit = true := by
  intro c hc
  rcases List.mem_cons.mp hc with rfl | hc
  · decide
  · rw [registered_no_digits mutator h c hc]
    exact Bool.false_ne_true

/-- **The identifier of a point determines its file, its address and its mutator.** -/
theorem uniqueIdentifier_inj {bitcode bitcode' : String} {address address' : MutationPointAddress}
    {mutator mutator' : Mutator} (hmutator : mutator ∈ registered) (hmutator' : mutator' ∈ registered)
    (h : uniqueIdentifier bitcode address mutator = uniqueIdentifier bitcode' address' mutator') :
    bitcode = bitcode' ∧ address = address' ∧ mutator = mutator' := by
  obtain ⟨front, digit, hdigit, hfront, hlist⟩ := uniqueIdentifier_shape bitcode address mutator
  obtain ⟨front', digit', hdigit', hfront', hlist'⟩ :=
    uniqueIdentifier_shape bitcode' address' mutator'
  -- the address ends with the last digit of the identifier
  obtain ⟨rfl, rfl, hback⟩ := @Naming.split_at_last Char (fun c => c.isDigit = true) _ _ _ _ _ _
    hdigit hdigit' (no_digit_of_registered hmutator) (no_digit_of_registered hmutator')
    (hlist.symm.trans ((congrArg String.toList h).trans hlist'))
  obtain ⟨hbitcode, haddress⟩ := address_eq_of_identifier (hfront.trans hfront'.symm)
  exact ⟨String.toList_inj.mp hbitcode, haddress, eq_of_uniqueIdentifier hmutator hmutator'
    (String.toList_inj.mp (List.cons.inj hback).2)⟩

/-- No mutant is named like a copy of an original function, renamed or not. -/
theorem uniqueIdentifier_ne_original {bitcode functionName bitcodeIdentifier : String}
    {address : MutationPointAddress} {mutator : Mutator} (hmutator : mutator ∈ registered)
    (taken : List String) :
    Module.uniqueName taken (getOriginalFunctionName functionName bitcodeIdentifier) ≠
      uniqueIdentifier bitcode address mutator := by
  intro h
  obtain ⟨front, digit, hdigit, -, hlist⟩ := uniqueIdentifier_shape bitcode address mutator
  by_cases htaken : getOriginalFunctionName functionName bitcodeIdentifier ∈ taken
  · -- a renamed copy ends with a digit
    obtain ⟨k, hname, -⟩ := Module.uniqueName_of_mem htaken
    obtain ⟨digits, digit', hdigits, hdigit'⟩ := Naming.toString_eq_append (k + 1)
    rw [h] at hname
    have hend : front ++ digit :: '_' :: mutator.uniqueIdentifier.toList =
        ((getOriginalFunctionName functionName bitcodeIdentifier ++ ".").toList ++ digits) ++
          digit' :: [] := by
      rw [← hlist, hname, String.toList_append, hdigits, List.append_assoc]
    obtain ⟨-, -, hnil⟩ := @Naming.split_at_last Char (fun c => c.isDigit = true) _ _ _ _ _ _
      hdigit hdigit' (no_digit_of_registered hmutator) (by simp) hend
    cases hnil
  · rw [Module.uniqueName_of_not_mem htaken] at h
    refine registered_not_original mutator hmutator (@Naming.suffix_of_separator Char
      (fun c => c.isDigit = true) digit front _ (functionName ++ "_" ++ bitcodeIdentifier).toList _
      hdigit original_no_digits ?_)
    rw [← hlist, ← h, getOriginalFunctionName, String.toList_append]

/-- And no copy is named like a clone, renamed or not. -/
theorem uniqueName_identifier_ne_original {bitcode functionName bitcodeIdentifier : String}
    {address : MutationPointAddress} {mutator : Mutator} (hmutator : mutator ∈ registered)
    (taken : List String) :
    Module.uniqueName taken (uniqueIdentifier bitcode address mutator) ≠
      getOriginalFunctionName functionName bitcodeIdentifier := by
  intro h
  by_cases htaken : uniqueIdentifier bitcode address mutator ∈ taken
  · -- a renamed clone ends with a digit
    obtain ⟨k, hname, -⟩ := Module.uniqueName_of_mem htaken
    obtain ⟨digits, digit, hdigits, hdigit⟩ := Naming.toString_eq_append (k + 1)
    have hlast := congrArg (fun s : String => s.toList.getLast?) (hname.symm.trans h)
    have horiginal : "_original".toList.getLast? = some 'l' := by decide
    simp only [getOriginalFunctionName, String.toList_append, hdigits, List.getLast?_append,
      List.getLast?_singleton, horiginal, Option.some_or, Option.some.injEq] at hlast
    rw [hlast] at hdigit
    revert hdigit
    decide
  · rw [Module.uniqueName_of_not_mem htaken] at h
    refine @uniqueIdentifier_ne_original bitcode functionName bitcodeIdentifier address mutator
      hmutator [] ?_
    rw [Module.uniqueName_of_not_mem List.not_mem_nil, h]

end Mull.MutationPoints
