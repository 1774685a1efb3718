import Mathlib.Data.Finset.Sort
import Mathlib.Data.String.Basic
import Mull.Mutators

/-!
# The mutators factory

Mutators are asked for by name: by their own identifiers, or by the names of groups,
which hold mutators and other groups.  The names are expanded into an ordered set of
identifiers; each registered mutator in it is moved out of the factory, and the next
request starts by registering all of them again.
-/

namespace Mull.MutatorsFactory

open Mutators

/-! ### The registered mutators -/

/-- The mutators of `init`, in its order. -/
def registered : List Mutator :=
  [negateConditionMutator, replaceCallMutator, removeVoidFunctionMutator, scalarValueMutator,
    numberAssignConst, numberInitConst,
    addAssignToSubAssign, subAssignToAddAssign, mulAssignToDivAssign, divAssignToMulAssign,
    remAssignToDivAssign, andAssignToOrAssign, orAssignToAndAssign, xorAssignToOrAssign,
    lShiftAssignToRShiftAssign, rShiftAssignToLShiftAssign,
    preIncToPreDec, postIncToPostDec, preDecToPreInc, postDecToPostInc,
    unaryMinusToNoop, addToSub, subToAdd, mulToDiv, divToMul, remToDiv,
    bitwiseNotToNoop, bitwiseAndToOr, bitwiseOrToAnd, xorToOr, lShiftToRShift, rShiftToLShift,
    logicalAndToOr, logicalOrToAnd,
    equalToNotEqual, notEqualToEqual, lessOrEqualToGreaterThan, lessThanToGreaterOrEqual,
    greaterOrEqualToLessThan, greaterThanToLessOrEqual,
    lessOrEqualToLessThan, lessThanToLessOrEqual, greaterOrEqualToGreaterThan,
    greaterThanToGreaterOrEqual]

theorem registered_identifiers_nodup : (registered.map Mutator.uniqueIdentifier).Nodup := by
  decide +kernel

/-- A registered mutator is determined by its identifier. -/
theorem eq_of_uniqueIdentifier {mutator mutator' : Mutator} (h : mutator ∈ registered)
    (h' : mutator' ∈ registered) (heq : mutator.uniqueIdentifier = mutator'.uniqueIdentifier) :
    mutator = mutator' :=
  List.inj_on_of_nodup_map registered_identifiers_nodup h h' heq

/-! ### Groups -/

def identifiers (mutators : List Mutator) : List String := mutators.map Mutator.uniqueIdentifier

/-- The groups with their members. -/
def groupsMapping : List (String × List String) :=
  [("cxx_const_assignment", identifiers [numberAssignConst, numberInitConst]),
    ("cxx_bitwise_assignment", identifiers
      [andAssignToOrAssign, orAssignToAndAssign, xorAssignToOrAssign, lShiftAssignToRShiftAssign,
        rShiftAssignToLShiftAssign]),
    ("cxx_arithmetic_assignment", identifiers
      [addAssignToSubAssign, subAssignToAddAssign, mulAssignToDivAssign, divAssignToMulAssign,
        remAssignToDivAssign]),
    ("cxx_increment", identifiers [preIncToPreDec, postIncToPostDec]),
    ("cxx_decrement", identifiers [preDecToPreInc, postDecToPostInc]),
    ("cxx_arithmetic", identifiers
      [unaryMinusToNoop, addToSub, subToAdd, mulToDiv, divToMul, remToDiv]),
    ("cxx_bitwise", identifiers
      [bitwiseNotToNoop, bitwiseAndToOr, bitwiseOrToAnd, xorToOr, lShiftToRShift, rShiftToLShift]),
    ("cxx_logical", identifiers [logicalAndToOr, logicalOrToAnd]),
    ("cxx_comparison", identifiers
      [equalToNotEqual, notEqualToEqual, lessOrEqualToGreaterThan, lessThanToGreaterOrEqual,
        greaterOrEqualToLessThan, greaterThanToLessOrEqual]),
    ("cxx_boundary", identifiers
      [lessOrEqualToLessThan, lessThanToLessOrEqual, greaterOrEqualToGreaterThan,
        greaterThanToGreaterOrEqual]),
    ("cxx_assignment",
      ["cxx_bitwise_assignment", "cxx_arithmetic_assignment", "cxx_const_assignment"]),
    ("cxx_all",
      ["cxx_assignment", "cxx_increment", "cxx_decrement", "cxx_arithmetic", "cxx_comparison",
        "cxx_boundary", "cxx_bitwise"]),
    ("cxx_default", ["cxx_increment", "cxx_arithmetic", "cxx_comparison", "cxx_boundary"]),
    ("experimental", identifiers
      [negateConditionMutator, removeVoidFunctionMutator, scalarValueMutator, replaceCallMutator] ++
        ["cxx_logical"]),
    ("all", ["cxx_all", "experimental"])]

/-- `expandGroups`, with a bound on the depth of the recursion; `none` if it is too low. -/
def expandGroups (mapping : List (String × List String)) :
    Nat → List String → Finset String → Option (Finset String)
  | 0, groups, expandedGroups =>
      groups.foldlM (fun expandedGroups group =>
        if (mapping.lookup group).isSome then none else some (insert group expandedGroups))
        expandedGroups
  | depth + 1, groups, expandedGroups =>
      groups.foldlM (fun expandedGroups group =>
        match mapping.lookup group with
        | none => some (insert group expandedGroups)
        | some members => expandGroups mapping depth members expandedGroups)
        expandedGroups

/-! ### Requests -/

/-- The mutators that the factory holds, each under its own identifier. -/
structure Factory where
  mutatorsMapping : String → Option Mutator
  valid : ∀ identifier mutator, mutatorsMapping identifier = some mutator →
    mutator ∈ registered ∧ mutator.uniqueIdentifier = identifier

/-- The factory as it is constructed. -/
def Factory.empty : Factory := ⟨fun _ => none, fun _ _ h => by cases h⟩

/-- `mapping[ID] = make_unique<MutatorClass>()` for all registered mutators. -/
def initMapping (mutatorsMapping : String → Option Mutator) (identifier : String) :
    Option Mutator :=
  (registered.find? (·.uniqueIdentifier = identifier)).or (mutatorsMapping identifier)

def Factory.init (factory : Factory) : Factory where
  mutatorsMapping := initMapping factory.mutatorsMapping
  valid identifier mutator h := by
    rcases Option.or_eq_some_iff.mp h with hfind | ⟨-, hold⟩
    · exact ⟨List.mem_of_find?_eq_some hfind, by simpa using List.find?_some hfind⟩
    · exact factory.valid identifier mutator hold

/-- What a request has collected so far. -/
structure Selection where
  mutators : List Mutator
  warnings : List String
  factory : Factory

def Factory.erase (factory : Factory) (identifier : String) : Factory where
  mutatorsMapping := Function.update factory.mutatorsMapping identifier none
  valid identifier' mutator h := by
    by_cases heq : identifier' = identifier
    · rw [heq, Function.update_self] at h
      cases h
    · rw [Function.update_of_ne heq] at h
      exact factory.valid identifier' mutator h

/-- One iteration of the loop over the expanded groups. -/
def Selection.select (selection : Selection) (group : String) : Selection :=
  match selection.factory.mutatorsMapping group with
  | none => { selection with warnings := selection.warnings ++ ["Unknown mutator: " ++ group] }
  | some mutator =>
      { selection with
        mutators := selection.mutators ++ [mutator]
        factory := selection.factory.erase group }

/-- `MutatorsFactory::mutators`. -/
def Factory.mutators (factory : Factory) (groups : List String) : Option Selection :=
  let groups := if groups.isEmpty then ["cxx_default"] else groups
  (expandGroups groupsMapping groupsMapping.length groups ∅).map fun expandedGroups =>
    let selection := (expandedGroups.sort (· ≤ ·)).foldl Selection.select ⟨[], [], factory.init⟩
    if selection.mutators.isEmpty then
      { selection with warnings := selection.warnings ++ ["No valid mutators specified."] }
    else selection

/-! ### What is selected -/

/-- The registered mutator with an identifier. -/
def registeredUnder (identifier : String) : Option Mutator :=
  registered.find? (·.uniqueIdentifier = identifier)

theorem registeredUnder_eq_some_iff {identifier : String} {mutator : Mutator} :
    registeredUnder identifier = some mutator ↔
      mutator ∈ registered ∧ mutator.uniqueIdentifier = identifier := by
  constructor
  · intro h
    exact ⟨List.mem_of_find?_eq_some h, by simpa using List.find?_some h⟩
  · rintro ⟨hmem, rfl⟩
    unfold registeredUnder
    cases hfind : registered.find? (·.uniqueIdentifier = mutator.uniqueIdentifier) with
    | none => exact absurd (List.find?_eq_none.mp hfind mutator hmem) (by simp)
    | some found =>
      exact congrArg some (eq_of_uniqueIdentifier (List.mem_of_find?_eq_some hfind) hmem
        (by simpa using List.find?_some hfind))

/-- After `init` the factory holds all registered mutators, and nothing else. -/
theorem Factory.init_mutatorsMapping (factory : Factory) :
    factory.init.mutatorsMapping = registeredUnder := by
  funext identifier
  cases hget : factory.init.mutatorsMapping identifier with
  | none => exact (Option.or_eq_none_iff.mp hget).1.symm
  | some mutator => exact (registeredUnder_eq_some_iff.mpr (factory.init.valid _ _ hget)).symm

/-- The loop moves out what the factory holds under the names. -/
theorem foldl_select {selection : Selection} {groups : List String} (h : groups.Nodup) :
    (groups.foldl Selection.select selection).mutators =
      selection.mutators ++ groups.filterMap selection.factory.mutatorsMapping := by
  induction groups generalizing selection with
  | nil => simp
  | cons group groups ih =>
      obtain ⟨hnot, hnodup⟩ := List.nodup_cons.mp h
      rw [List.foldl_cons, ih hnodup]
      unfold Selection.select
      cases hget : selection.factory.mutatorsMapping group with
      | none => simp [hget]
      | some mutator =>
          -- the names still to come are not erased
          have hrest : groups.filterMap (selection.factory.erase group).mutatorsMapping =
              groups.filterMap selection.factory.mutatorsMapping := by
            refine List.filterMap_congr fun other hother => Function.update_of_ne ?_ _ _
            rintro rfl
            exact hnot hother
          simp [hget, hrest]

/-- The warning about an empty selection changes no mutator. -/
theorem Selection.mutators_warned (selection : Selection) (warning : String) :
    (if selection.mutators.isEmpty then
      { selection with warnings := selection.warnings ++ [warning] } else selection).mutators =
      selection.mutators := by
  split <;> rfl

/-- **A request returns registered mutators, each at most once.** -/
theorem Factory.mutators_registered {factory : Factory} {groups : List String}
    {selection : Selection} (h : factory.mutators groups = some selection) :
    (∀ mutator ∈ selection.mutators, mutator ∈ registered) ∧ selection.mutators.Nodup := by
  obtain ⟨expanded, -, rfl⟩ := Option.map_eq_some_iff.mp h
  rw [Selection.mutators_warned, foldl_select (Finset.sort_nodup _ _), List.nil_append]
  constructor
  · intro mutator hmem
    obtain ⟨identifier, -, hget⟩ := List.mem_filterMap.mp hmem
    exact (factory.init.valid identifier mutator hget).1
  · refine (Finset.sort_nodup _ _).filterMap fun identifier identifier' mutator hget hget' => ?_
    exact (factory.init.valid identifier mutator hget).2.symm.trans
      (factory.init.valid identifier' mutator hget').2

/-- A registered mutator is found by its identifier. -/
theorem Factory.mutators_singleton (factory : Factory) {mutator : Mutator}
    (hmem : mutator ∈ registered) (hgroup : groupsMapping.lookup mutator.uniqueIdentifier = none) :
    ∃ selection, factory.mutators [mutator.uniqueIdentifier] = some selection ∧
      selection.mutators = [mutator] := by
  have hinit : factory.init.mutatorsMapping mutator.uniqueIdentifier = some mutator := by
    rw [factory.init_mutatorsMapping]
    exact registeredUnder_eq_some_iff.mpr ⟨hmem, rfl⟩
  have hexpand : expandGroups groupsMapping groupsMapping.length [mutator.uniqueIdentifier] ∅ =
      some {mutator.uniqueIdentifier} := by
    change expandGroups groupsMapping (14 + 1) _ _ = _
    simp [expandGroups, hgroup]
  refine ⟨_, congrArg (Option.map _) hexpand, ?_⟩
  simp [Finset.sort_singleton, Selection.select, hinit]

end Mull.MutatorsFactory
