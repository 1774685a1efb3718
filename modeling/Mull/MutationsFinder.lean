import Mull.MutationPoint

/-!
# Finding mutation points

The functions that the tests reached are merged, filtered, and their instructions are
selected; then every mutator is asked for its points in every function.  A mutator with
several low-level mutations makes a point for each of them that can be applied to an
instruction, and all these points have the same identifier.  So the identifiers are
distinct exactly when at most one low-level mutation of a mutator applies to each
instruction.
-/

namespace Mull.MutationsFinder

open IR Mutators MutatorsFactory MutationPoints

/-! ### Reachable functions -/

/-- A function, given by its file and its position there, that a test reached. -/
structure ReachableFunction where
  function : Nat × Nat
  test : Nat
  distance : Int
deriving DecidableEq, Repr

structure FunctionUnderTest where
  function : Nat × Nat
  reachableTests : List (Nat × Int)
  selectedInstructions : List MutationPointAddress
deriving DecidableEq, Repr

/-- The first loop of `mergeReachableFunctions`: collecting the tests of each function. -/
def recordReachable (functionsMap : List FunctionUnderTest) (reachable : ReachableFunction) :
    List FunctionUnderTest :=
  if functionsMap.any (·.function = reachable.function) then
    functionsMap.map fun merged =>
      if merged.function = reachable.function then
        { merged with
          reachableTests := merged.reachableTests ++ [(reachable.test, reachable.distance)] }
      else merged
  else functionsMap ++ [⟨reachable.function, [(reachable.test, reachable.distance)], []⟩]

/-- The second loop: moving the functions out of the map, in the order in which they were
    reached. -/
def takeFunction (state : List FunctionUnderTest × List FunctionUnderTest)
    (reachable : ReachableFunction) : List FunctionUnderTest × List FunctionUnderTest :=
  match state.1.find? (·.function = reachable.function) with
  | none => state
  | some functionUnderTest =>
      (state.1.filter (·.function ≠ reachable.function), state.2 ++ [functionUnderTest])

def mergeReachableFunctions (functions : List ReachableFunction) : List FunctionUnderTest :=
  (functions.foldl takeFunction (functions.foldl recordReachable [], [])).2

/-- The body of a function of the program. -/
def body (program : Program) (function : Nat × Nat) : List Block :=
  ((program.bitcode[function.1]?.bind fun bitcode => bitcode.module.functions[function.2]?).map
    Function.blocks).getD []

/-- `selectInstructions`; a filter is given the file and the address of an instruction. -/
def selectInstructions (program : Program) (filters : List (Nat → MutationPointAddress → Bool))
    (functionUnderTest : FunctionUnderTest) : FunctionUnderTest :=
  { functionUnderTest with
    selectedInstructions := functionUnderTest.selectedInstructions ++
      (instructionAddresses functionUnderTest.function.2 (body program functionUnderTest.function)).filter
        fun address => filters.all fun shouldSkip => !shouldSkip functionUnderTest.function.1 address }

/-- The functions that the driver looks at. -/
def functionsUnderTest (program : Program) (reachable : List ReachableFunction)
    (functionFilters : List (Nat × Nat → Bool))
    (instructionFilters : List (Nat → MutationPointAddress → Bool)) : List FunctionUnderTest :=
  ((mergeReachableFunctions reachable).filter fun functionUnderTest =>
    functionFilters.all fun shouldSkip => !shouldSkip functionUnderTest.function).map
      (selectInstructions program instructionFilters)

/-! ### The search -/

/-- `isZero`; the bits of a floating-point constant are those of a double. -/
def isZero : Operand → Bool
  | .constant (.int _ value) => value = 0
  | .constant (.float bits) => bits % 2 ^ 63 = 0
  | _ => false

/-- The branch at an address, if there is a conditional one. -/
def branchAt (address : MutationPointAddress) : Instruction → Option ConditionalBranch
  | .condBr _ ifTrue ifFalse =>
      some ⟨address.basicBlockIndex, address.instructionIndex, ifTrue, ifFalse⟩
  | _ => none

section Search

variable (irm : IRMutation → Instruction → Bool)

/-- The points that a mutator makes at an instruction, each with its low-level mutation. -/
def mutationsAt (mutator : Mutator) (blocks : List Block) (address : MutationPointAddress)
    (instruction : Instruction) : List (Option IRMutation) :=
  match mutator.search with
  | .lowLevel lowLevelMutators =>
      (lowLevelMutators.filter fun mutation => canMutate irm mutation instruction).map some
  | .lowLevelOnZero lowLevelMutators =>
      (lowLevelMutators.filter fun mutation =>
        canMutate irm mutation instruction && instruction.operands[0]?.any isZero).map some
  | .logicalAnd =>
      if ((branchAt address instruction).bind
        (LogicalAndToOr.findPossibleMutationInBranch blocks)).isSome then [none] else []
  | .logicalOr =>
      if ((branchAt address instruction).bind
        (LogicalOrToAnd.findPossibleMutationInBranch blocks)).isSome then [none] else []

/-- The instructions that a mutator goes through: the selected ones, but all of them for
    the logical mutators. -/
def visitedInstructions (mutator : Mutator) (blocks : List Block)
    (functionUnderTest : FunctionUnderTest) : List MutationPointAddress :=
  match mutator.search with
  | .lowLevel _ | .lowLevelOnZero _ => functionUnderTest.selectedInstructions
  | .logicalAnd | .logicalOr => instructionAddresses functionUnderTest.function.2 blocks

/-- `getMutations`. -/
def getMutations (mutator : Mutator) (bitcode : Bitcode) (blocks : List Block)
    (functionUnderTest : FunctionUnderTest) : List MutationPoint :=
  (visitedInstructions mutator blocks functionUnderTest).flatMap fun address =>
    match address.findInstruction blocks with
    | none => []
    | some instruction =>
        (mutationsAt irm mutator blocks address instruction).map fun mutation =>
          .create mutator mutation address instruction functionUnderTest.function.1 bitcode

/-- The points of one function, with the tests that reach it. -/
def searchFunction (program : Program) (mutators : List Mutator)
    (functionUnderTest : FunctionUnderTest) : List MutationPoint :=
  match program.bitcode[functionUnderTest.function.1]? with
  | none => []
  | some bitcode =>
      mutators.flatMap fun mutator =>
        (getMutations irm mutator bitcode (body program functionUnderTest.function)
          functionUnderTest).map fun point =>
            { point with reachableTests := point.reachableTests ++ functionUnderTest.reachableTests }

/-- `getMutationPoints`; the tasks' results come in the order of the functions. -/
def getMutationPoints (program : Program) (mutators : List Mutator)
    (functions : List FunctionUnderTest) : List MutationPoint :=
  functions.flatMap (searchFunction irm program mutators)

end Search

/-! ### Distinct functions and instructions -/

theorem takeFunction_nodup {state : List FunctionUnderTest × List FunctionUnderTest}
    (hnodup : (state.2.map (·.function)).Nodup)
    (hdisjoint : ∀ f ∈ state.2, ∀ g ∈ state.1, f.function ≠ g.function)
    (reachable : ReachableFunction) :
    ((takeFunction state reachable).2.map (·.function)).Nodup ∧
      ∀ f ∈ (takeFunction state reachable).2, ∀ g ∈ (takeFunction state reachable).1,
        f.function ≠ g.function := by
  unfold takeFunction
  cases hfind : state.1.find? (·.function = reachable.function) with
  | none => exact ⟨hnodup, hdisjoint⟩
  | some found =>
      have hmem := List.mem_of_find?_eq_some hfind
      have hfunction : found.function = reachable.function := by
        simpa using List.find?_some hfind
      constructor
      · rw [List.map_append, List.nodup_append]
        refine ⟨hnodup, by simp, ?_⟩
        intro key hkey other hother
        obtain ⟨f, hf, rfl⟩ := List.mem_map.mp hkey
        obtain rfl : other = found.function := by simpa using hother
        exact hdisjoint f hf found hmem
      · intro f hf g hg
        obtain ⟨hg, hne⟩ := List.mem_filter.mp hg
        rcases List.mem_append.mp hf with hf | hf
        · exact hdisjoint f hf g hg
        · obtain rfl := List.mem_singleton.mp hf
          rw [hfunction]
          exact fun heq => by simp [heq] at hne

/-- Each function is merged into one. -/
theorem mergeReachableFunctions_nodup (functions : List ReachableFunction) :
    ((mergeReachableFunctions functions).map (·.function)).Nodup := by
  have hloop : ∀ (rest : List ReachableFunction)
      (state : List FunctionUnderTest × List FunctionUnderTest),
      (state.2.map (·.function)).Nodup →
      (∀ f ∈ state.2, ∀ g ∈ state.1, f.function ≠ g.function) →
      ((rest.foldl takeFunction state).2.map (·.function)).Nodup := by
    intro rest
    induction rest with
    | nil => exact fun _ hnodup _ => hnodup
    | cons reachable rest ih =>
        intro state hnodup hdisjoint
        obtain ⟨hnodup', hdisjoint'⟩ := takeFunction_nodup hnodup hdisjoint reachable
        exact ih _ hnodup' hdisjoint'
  exact hloop functions _ List.nodup_nil (by simp)

theorem mem_instructionAddresses {functionIndex : Nat} {blocks : List Block}
    {address : MutationPointAddress} (h : address ∈ instructionAddresses functionIndex blocks) :
    address.functionIndex = functionIndex := by
  obtain ⟨⟨block, b⟩, -, hmem⟩ := List.mem_flatMap.mp h
  obtain ⟨i, -, rfl⟩ := List.mem_map.mp hmem
  rfl

theorem instructionAddresses_nodup (functionIndex : Nat) (blocks : List Block) :
    (instructionAddresses functionIndex blocks).Nodup := by
  refine List.nodup_flatMap.mpr ⟨?_, ?_⟩
  · rintro ⟨block, b⟩ -
    exact List.nodup_range.map fun i j heq => by simpa using heq
  · -- different blocks have different numbers
    have hpairwise : List.Pairwise (· ≠ ·) (blocks.zipIdx.map Prod.snd) := by
      rw [List.zipIdx_map_snd]
      exact List.nodup_range'
    refine (List.pairwise_map.mp hpairwise).imp ?_
    rintro ⟨block, b⟩ ⟨block', b'⟩ hne address haddress haddress'
    obtain ⟨i, -, rfl⟩ := List.mem_map.mp haddress
    obtain ⟨i', -, heq⟩ := List.mem_map.mp haddress'
    simp only [MutationPointAddress.mk.injEq] at heq
    exact hne heq.2.1.symm

/-- What the driver makes sure of: the functions are distinct, and the selected
    instructions of each are distinct instructions of it. -/
structure Selected (program : Program) (functions : List FunctionUnderTest) : Prop where
  distinct : (functions.map (·.function)).Nodup
  instructions : ∀ f ∈ functions, f.selectedInstructions.Sublist
    (instructionAddresses f.function.2 (body program f.function))

theorem recordReachable_unselected {functionsMap : List FunctionUnderTest}
    (h : ∀ f ∈ functionsMap, f.selectedInstructions = []) (reachable : ReachableFunction) :
    ∀ f ∈ recordReachable functionsMap reachable, f.selectedInstructions = [] := by
  intro f hf
  unfold recordReachable at hf
  split at hf
  · obtain ⟨g, hg, rfl⟩ := List.mem_map.mp hf
    split <;> exact h g hg
  · rcases List.mem_append.mp hf with hf | hf
    · exact h f hf
    · rw [List.mem_singleton.mp hf]

theorem mem_takeFunction {reachable : List ReachableFunction}
    {state : List FunctionUnderTest × List FunctionUnderTest} {f : FunctionUnderTest}
    (h : f ∈ (reachable.foldl takeFunction state).2) : f ∈ state.1 ∨ f ∈ state.2 := by
  induction reachable generalizing state with
  | nil => exact .inr h
  | cons first reachable ih =>
      have hstep := ih h
      unfold takeFunction at hstep
      cases hfind : state.1.find? (·.function = first.function) with
      | none => simpa [hfind] using hstep
      | some found =>
          rw [hfind] at hstep
          rcases hstep with hmap | hout
          · exact .inl (List.mem_filter.mp hmap).1
          · rcases List.mem_append.mp hout with hout | hout
            · exact .inr hout
            · exact .inl (List.mem_singleton.mp hout ▸ List.mem_of_find?_eq_some hfind)

theorem mergeReachableFunctions_unselected (reachable : List ReachableFunction) :
    ∀ f ∈ mergeReachableFunctions reachable, f.selectedInstructions = [] := by
  have hrecord : ∀ (rest : List ReachableFunction) (functionsMap : List FunctionUnderTest),
      (∀ f ∈ functionsMap, f.selectedInstructions = []) →
      ∀ f ∈ rest.foldl recordReachable functionsMap, f.selectedInstructions = [] := by
    intro rest
    induction rest with
    | nil => exact fun _ h => h
    | cons first rest ih => exact fun _ h => ih _ (recordReachable_unselected h first)
  intro f hf
  rcases mem_takeFunction hf with hmap | hout
  · exact hrecord reachable [] (by simp) f hmap
  · cases hout

theorem functionsUnderTest_selected (program : Program) (reachable : List ReachableFunction)
    (functionFilters : List (Nat × Nat → Bool))
    (instructionFilters : List (Nat → MutationPointAddress → Bool)) :
    Selected program (functionsUnderTest program reachable functionFilters instructionFilters) where
  distinct := by
    rw [functionsUnderTest, List.map_map]
    exact (mergeReachableFunctions_nodup reachable).sublist (List.filter_sublist.map _)
  instructions f hf := by
    obtain ⟨g, hg, rfl⟩ := List.mem_map.mp hf
    have hnone := mergeReachableFunctions_unselected reachable g (List.mem_filter.mp hg).1
    simp only [selectInstructions, hnone, List.nil_append]
    exact List.filter_sublist

/-! ### Distinct identifiers -/

section Distinct

variable {irm : IRMutation → Instruction → Bool} {program : Program} {mutators : List Mutator}
  {functions : List FunctionUnderTest}

/-- What the identifier of a point is made of. -/
def place (point : MutationPoint) : Nat × MutationPointAddress × Mutator :=
  (point.bitcode, point.address, point.mutator)

/-- The identifier of a place. -/
def placeIdentifier (program : Program) (place : Nat × MutationPointAddress × Mutator) : String :=
  uniqueIdentifier ((program.bitcode[place.1]?.map Bitcode.uniqueIdentifier).getD "") place.2.1
    place.2.2

/-- How often a mutator finds a mutation at an address. -/
def mutationCount (irm : IRMutation → Instruction → Bool) (mutator : Mutator) (blocks : List Block)
    (address : MutationPointAddress) : Nat :=
  match address.findInstruction blocks with
  | none => 0
  | some instruction => (mutationsAt irm mutator blocks address instruction).length

theorem map_place_getMutations (mutator : Mutator) (bitcode : Bitcode) (blocks : List Block)
    (f : FunctionUnderTest) :
    (getMutations irm mutator bitcode blocks f).map place =
      (visitedInstructions mutator blocks f).flatMap fun address =>
        List.replicate (mutationCount irm mutator blocks address) (f.function.1, address, mutator) := by
  rw [getMutations, List.map_flatMap]
  refine List.flatMap_congr fun address _ => ?_
  unfold mutationCount
  cases address.findInstruction blocks with
  | none => rfl
  | some instruction =>
      rw [List.map_map, ← List.map_const']
      rfl

theorem mem_searchFunction {f : FunctionUnderTest} {point : MutationPoint}
    (h : point ∈ searchFunction irm program mutators f) :
    ∃ bitcode, program.bitcode[f.function.1]? = some bitcode ∧ point.bitcode = f.function.1 ∧
      point.mutator ∈ mutators ∧
      point.address ∈ visitedInstructions point.mutator (body program f.function) f ∧
      (point.address.findInstruction (body program f.function)).isSome ∧
      point.originalFunction = point.address.functionIndex ∧
      point.uniqueIdentifier =
        uniqueIdentifier bitcode.uniqueIdentifier point.address point.mutator := by
  unfold searchFunction at h
  cases hget : program.bitcode[f.function.1]? with
  | none => simp [hget] at h
  | some bitcode =>
      rw [hget] at h
      obtain ⟨mutator, hmutator, hpoint⟩ := List.mem_flatMap.mp h
      obtain ⟨found, hfound, rfl⟩ := List.mem_map.mp hpoint
      obtain ⟨address, hvisited, hfound⟩ := List.mem_flatMap.mp hfound
      cases hinstruction : address.findInstruction (body program f.function) with
      | none => simp [hinstruction] at hfound
      | some instruction =>
          rw [hinstruction] at hfound
          obtain ⟨mutation, -, rfl⟩ := List.mem_map.mp hfound
          exact ⟨bitcode, rfl, rfl, hmutator, hvisited, by simp [MutationPoint.create, hinstruction],
            rfl, rfl⟩

theorem visitedInstructions_sublist {mutator : Mutator} {f : FunctionUnderTest} {blocks : List Block}
    (h : f.selectedInstructions.Sublist (instructionAddresses f.function.2 blocks)) :
    (visitedInstructions mutator blocks f).Sublist (instructionAddresses f.function.2 blocks) := by
  unfold visitedInstructions
  split
  · exact h
  · exact h
  · exact List.Sublist.refl _
  · exact List.Sublist.refl _

/-- At most one low-level mutation of each mutator applies to each selected instruction. -/
def OneMutationEach (irm : IRMutation → Instruction → Bool) (program : Program)
    (mutators : List Mutator) (functions : List FunctionUnderTest) : Prop :=
  ∀ f ∈ functions, f.function.1 < program.bitcode.length → ∀ mutator ∈ mutators,
    ∀ address ∈ f.selectedInstructions, ∀ instruction,
      address.findInstruction (body program f.function) = some instruction →
        (mutationsAt irm mutator (body program f.function) address instruction).length ≤ 1

theorem mutationsAt_length_le_one (irm : IRMutation → Instruction → Bool) {mutator : Mutator}
    (blocks : List Block) (hsearch : mutator.search = .logicalAnd ∨ mutator.search = .logicalOr)
    (address : MutationPointAddress) (instruction : Instruction) :
    (mutationsAt irm mutator blocks address instruction).length ≤ 1 := by
  rcases hsearch with hsearch | hsearch <;> simp only [mutationsAt, hsearch] <;> split <;> simp

/-- The logical mutators make at most one point at a branch; so only the selected
    instructions matter. -/
theorem mutationCount_le_iff {mutator : Mutator} {blocks : List Block} {f : FunctionUnderTest} :
    (∀ address ∈ visitedInstructions mutator blocks f,
      mutationCount irm mutator blocks address ≤ 1) ↔
    ∀ address ∈ f.selectedInstructions, ∀ instruction,
      address.findInstruction blocks = some instruction →
        (mutationsAt irm mutator blocks address instruction).length ≤ 1 := by
  have hcount : ∀ address, mutationCount irm mutator blocks address ≤ 1 ↔
      ∀ instruction, address.findInstruction blocks = some instruction →
        (mutationsAt irm mutator blocks address instruction).length ≤ 1 := by
    intro address
    unfold mutationCount
    cases address.findInstruction blocks <;> simp
  simp only [hcount]
  unfold visitedInstructions
  cases hsearch : mutator.search with
  | lowLevel lowLevelMutators => exact Iff.rfl
  | lowLevelOnZero lowLevelMutators => exact Iff.rfl
  | logicalAnd =>
      have hone := mutationsAt_length_le_one irm blocks (.inl hsearch)
      simp [hone]
  | logicalOr =>
      have hone := mutationsAt_length_le_one irm blocks (.inr hsearch)
      simp [hone]

theorem nodup_searchFunction_iff {f : FunctionUnderTest} (hmutators : mutators.Nodup)
    (hselected : f.selectedInstructions.Sublist
      (instructionAddresses f.function.2 (body program f.function))) :
    ((searchFunction irm program mutators f).map place).Nodup ↔
      (f.function.1 < program.bitcode.length → ∀ mutator ∈ mutators,
        ∀ address ∈ f.selectedInstructions, ∀ instruction,
          address.findInstruction (body program f.function) = some instruction →
            (mutationsAt irm mutator (body program f.function) address instruction).length ≤ 1) := by
  unfold searchFunction
  cases hget : program.bitcode[f.function.1]? with
  | none => simp [List.getElem?_eq_none_iff.mp hget]
  | some bitcode =>
      have hlt := (List.getElem?_eq_some_iff.mp hget).1
      simp only [hlt, true_imp_iff, List.map_flatMap, List.map_map]
      -- the tests are no part of the place
      have hplace : ∀ mutator, (getMutations irm mutator bitcode (body program f.function) f).map
          (place ∘ fun point : MutationPoint =>
            { point with reachableTests := point.reachableTests ++ f.reachableTests }) =
          (visitedInstructions mutator (body program f.function) f).flatMap fun address =>
            List.replicate (mutationCount irm mutator (body program f.function) address)
              (f.function.1, address, mutator) :=
        fun mutator => map_place_getMutations mutator bitcode _ f
      simp only [hplace]
      have hvisited : ∀ mutator, (visitedInstructions mutator (body program f.function) f).Nodup :=
        fun mutator => (instructionAddresses_nodup _ _).sublist (visitedInstructions_sublist hselected)
      rw [List.nodup_flatMap]
      constructor
      · rintro ⟨hnodup, -⟩ mutator hmutator
        apply mutationCount_le_iff.mp
        intro address haddress
        exact List.nodup_replicate.mp ((List.nodup_flatMap.mp (hnodup mutator hmutator)).1 address
          haddress)
      · intro hone
        refine ⟨fun mutator hmutator => List.nodup_flatMap.mpr ⟨?_, ?_⟩, ?_⟩
        · intro address haddress
          exact List.nodup_replicate.mpr
            (mutationCount_le_iff.mpr (hone mutator hmutator) address haddress)
        · refine (hvisited mutator).imp ?_
          intro address address' hne entry hentry hentry'
          have heq := (List.eq_of_mem_replicate hentry).symm.trans (List.eq_of_mem_replicate hentry')
          exact hne (by simpa using heq)
        · refine hmutators.imp ?_
          intro mutator mutator' hne entry hentry hentry'
          obtain ⟨address, -, hentry⟩ := List.mem_flatMap.mp hentry
          obtain ⟨address', -, hentry'⟩ := List.mem_flatMap.mp hentry'
          have heq := (List.eq_of_mem_replicate hentry).symm.trans (List.eq_of_mem_replicate hentry')
          simp only [Prod.mk.injEq] at heq
          exact hne heq.2.2

theorem nodup_places_iff (hselected : Selected program functions) (hmutators : mutators.Nodup) :
    ((getMutationPoints irm program mutators functions).map place).Nodup ↔
      OneMutationEach irm program mutators functions := by
  rw [getMutationPoints, List.map_flatMap, List.nodup_flatMap]
  refine ⟨fun h f hf => (nodup_searchFunction_iff hmutators (hselected.instructions f hf)).mp (h.1 f hf),
    fun h => ⟨fun f hf => (nodup_searchFunction_iff hmutators (hselected.instructions f hf)).mpr
      (h f hf), ?_⟩⟩
  -- the place names the function
  have hpairwise := (List.pairwise_map.mp hselected.distinct)
  refine hpairwise.imp_of_mem ?_
  intro f g hf hg hne entry hentry hentry'
  obtain ⟨point, hpoint, rfl⟩ := List.mem_map.mp hentry
  obtain ⟨point', hpoint', heq⟩ := List.mem_map.mp hentry'
  obtain ⟨-, -, hbitcode, -, hvisited, -⟩ := mem_searchFunction hpoint
  obtain ⟨-, -, hbitcode', -, hvisited', -⟩ := mem_searchFunction hpoint'
  simp only [place, Prod.mk.injEq] at heq
  have haddress := mem_instructionAddresses
    ((visitedInstructions_sublist (hselected.instructions f hf)).subset hvisited)
  have haddress' := mem_instructionAddresses
    ((visitedInstructions_sublist (hselected.instructions g hg)).subset hvisited')
  apply hne
  refine Prod.ext ?_ ?_
  · rw [← hbitcode, ← hbitcode', heq.1]
  · rw [← haddress, ← haddress', heq.2.1]

/-- The points found, seen from outside: each lies in a file of the program, at an
    instruction of a function there, and has a registered mutator. -/
structure Found (program : Program) (point : MutationPoint) : Prop where
  bitcode : ∃ bitcode, program.bitcode[point.bitcode]? = some bitcode ∧
    point.uniqueIdentifier = uniqueIdentifier bitcode.uniqueIdentifier point.address point.mutator
  mutator : point.mutator ∈ registered
  function : point.originalFunction = point.address.functionIndex
  instruction : (point.address.findInstruction
    (body program (point.bitcode, point.originalFunction))).isSome

theorem found_of_mem (hselected : Selected program functions)
    (hmutators : ∀ mutator ∈ mutators, mutator ∈ registered) {point : MutationPoint}
    (h : point ∈ getMutationPoints irm program mutators functions) : Found program point := by
  obtain ⟨f, hf, hpoint⟩ := List.mem_flatMap.mp h
  obtain ⟨bitcode, hget, hbitcode, hmutator, hvisited, hinstruction, hfunction, hidentifier⟩ :=
    mem_searchFunction hpoint
  have haddress := mem_instructionAddresses
    ((visitedInstructions_sublist (hselected.instructions f hf)).subset hvisited)
  refine ⟨⟨bitcode, hbitcode ▸ hget, hidentifier⟩, hmutators _ hmutator, hfunction, ?_⟩
  rw [hbitcode, hfunction, haddress]
  exact hinstruction

theorem Found.identifier_eq {point : MutationPoint} (h : Found program point) :
    point.uniqueIdentifier = placeIdentifier program (place point) := by
  obtain ⟨bitcode, hget, hidentifier⟩ := h.bitcode
  rw [hidentifier]
  simp [placeIdentifier, place, hget]

/-- Points of different places have different identifiers. -/
theorem Found.place_eq {point point' : MutationPoint} (h : Found program point)
    (h' : Found program point') (heq : point.uniqueIdentifier = point'.uniqueIdentifier) :
    place point = place point' := by
  obtain ⟨bitcode, hget, hidentifier⟩ := h.bitcode
  obtain ⟨bitcode', hget', hidentifier'⟩ := h'.bitcode
  rw [hidentifier, hidentifier'] at heq
  obtain ⟨hsame, haddress, hmutator⟩ := uniqueIdentifier_inj h.mutator h'.mutator heq
  have hposition : point.bitcode = point'.bitcode := by
    refine (List.getElem?_inj ?_ program.distinct).mp ?_
    · rw [List.length_map]
      exact (List.getElem?_eq_some_iff.mp hget).1
    · rw [List.getElem?_map, List.getElem?_map, hget, hget', Option.map_some, Option.map_some, hsame]
  simp [place, hposition, haddress, hmutator]

/-- **The identifiers are distinct exactly when no mutator applies twice to one
    instruction.** -/
theorem nodup_identifiers_iff (hselected : Selected program functions)
    (hmutators : ∀ mutator ∈ mutators, mutator ∈ registered) (hnodup : mutators.Nodup) :
    ((getMutationPoints irm program mutators functions).map (·.uniqueIdentifier)).Nodup ↔
      OneMutationEach irm program mutators functions := by
  rw [← nodup_places_iff hselected hnodup]
  have hfound : ∀ point ∈ getMutationPoints irm program mutators functions, Found program point :=
    fun point hpoint => found_of_mem hselected hmutators hpoint
  have hmap : (getMutationPoints irm program mutators functions).map (·.uniqueIdentifier) =
      ((getMutationPoints irm program mutators functions).map place).map
        (placeIdentifier program) := by
    rw [List.map_map]
    exact List.map_congr_left fun point hpoint => (hfound point hpoint).identifier_eq
  rw [hmap]
  refine ⟨List.Nodup.of_map _, fun h => h.map_on ?_⟩
  intro entry hentry entry' hentry' heq
  obtain ⟨point, hpoint, rfl⟩ := List.mem_map.mp hentry
  obtain ⟨point', hpoint', rfl⟩ := List.mem_map.mp hentry'
  refine (hfound point hpoint).place_eq (hfound point' hpoint') ?_
  rw [(hfound point hpoint).identifier_eq, (hfound point' hpoint').identifier_eq, heq]

end Distinct

end Mull.MutationsFinder
