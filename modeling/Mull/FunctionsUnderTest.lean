import Mull.Driver
import Mull.Lib.Grouping
import Mull.LogicalMutators

/-!
# Functions under test

`mergeReachableFunctions` turns the list of reached functions into one `FunctionUnderTest`
for each function.  It reads the list twice: first it collects the tests of each function in
a map in the order of the functions' addresses, then it moves the entries out of the map in
the order of the list, and stops when the map is empty.  What comes out is a stable grouping
of the list (`mergeReachableFunctions_stableGrouping`).

Then the instructions of the function are selected that no filter skips.  All mutators but
two look at the selected instructions only; the two logical mutators look at every
instruction of the function (`filters_bind_iff`).
-/

namespace Mull.FunctionsUnderTest

open IR Mutators MutatorsFactory MutationPoints MutationsFinder Grouping

/-! ### Merging -/

/-- The second loop of `mergeReachableFunctions`, with its early exit. -/
def collectFunctions (functionsMap functionsUnderTest : List FunctionUnderTest) :
    List ReachableFunction → List FunctionUnderTest
  | [] => functionsUnderTest
  | reachable :: rest =>
      if functionsMap.isEmpty then functionsUnderTest
      else
        match functionsMap.find? (·.function = reachable.function) with
        | none => collectFunctions functionsMap functionsUnderTest rest
        | some functionUnderTest =>
            collectFunctions (functionsMap.filter (·.function ≠ reachable.function))
              (functionsUnderTest ++ [functionUnderTest]) rest

/-- `mergeReachableFunctions`, with the map in the order of the functions' addresses. -/
def mergeReachableFunctions (addressOf : Nat × Nat → Nat) (functions : List ReachableFunction) :
    List FunctionUnderTest :=
  collectFunctions (functions.foldl (Driver.recordReachableAt addressOf) []) [] functions

/-- An empty map gives nothing more. -/
theorem foldl_takeFunction_nil (functionsUnderTest : List FunctionUnderTest)
    (rest : List ReachableFunction) :
    rest.foldl takeFunction ([], functionsUnderTest) = ([], functionsUnderTest) := by
  induction rest with
  | nil => rfl
  | cons reachable rest ih => exact ih

/-- Stopping early makes no difference. -/
theorem collectFunctions_eq (functionsMap functionsUnderTest : List FunctionUnderTest)
    (rest : List ReachableFunction) :
    collectFunctions functionsMap functionsUnderTest rest =
      (rest.foldl takeFunction (functionsMap, functionsUnderTest)).2 := by
  induction rest generalizing functionsMap functionsUnderTest with
  | nil => rfl
  | cons reachable rest ih =>
      rw [collectFunctions, List.foldl_cons]
      split
      · rename_i hempty
        rw [List.isEmpty_iff.mp hempty, takeFunction, List.find?_nil]
        exact (congrArg Prod.snd (foldl_takeFunction_nil functionsUnderTest rest)).symm
      · rw [takeFunction]
        cases functionsMap.find? (·.function = reachable.function) with
        | none => exact ih _ _
        | some functionUnderTest => exact ih _ _

theorem mergeReachableFunctions_eq (addressOf : Nat × Nat → Nat)
    (functions : List ReachableFunction) :
    mergeReachableFunctions addressOf functions =
      MutationsFinder.mergeReachableFunctions functions := by
  rw [mergeReachableFunctions, collectFunctions_eq, ← Driver.mergeReachableFunctionsAt_eq addressOf,
    Driver.mergeReachableFunctionsAt]

/-! ### The map after the first loop -/

/-- The entry of the map for a function, after a list of reached functions. -/
def entry (functions : List ReachableFunction) (function : Nat × Nat) : FunctionUnderTest :=
  ⟨function, (group ReachableFunction.function functions function).map fun reachable =>
    (reachable.test, reachable.distance), []⟩

theorem entry_concat (functions : List ReachableFunction) (reachable : ReachableFunction)
    (function : Nat × Nat) :
    entry (functions ++ [reachable]) function =
      if function = reachable.function then
        { entry functions function with
          reachableTests := (entry functions function).reachableTests ++
            [(reachable.test, reachable.distance)] }
      else entry functions function := by
  rw [entry, entry, group_concat]
  by_cases hfunction : function = reachable.function
  · rw [if_pos hfunction.symm, if_pos hfunction, List.map_append]
    rfl
  · rw [if_neg (Ne.symm hfunction), if_neg hfunction]

/-- The map has an entry for each function that was reached. -/
theorem foldl_recordReachable (functions : List ReachableFunction) :
    functions.foldl recordReachable [] =
      (keys ReachableFunction.function functions).map (entry functions) := by
  induction functions using List.reverseRecOn with
  | nil => rfl
  | append_singleton functions reachable ih =>
      rw [List.foldl_append, List.foldl_cons, List.foldl_nil, ih, keys_concat, recordReachable]
      have hany : ((keys ReachableFunction.function functions).map (entry functions)).any
          (·.function = reachable.function) = true ↔
            reachable.function ∈ functions.map ReachableFunction.function := by
        rw [← mem_keys, List.any_map, List.any_eq_true]
        constructor
        · rintro ⟨function, hfunction, heq⟩
          obtain rfl : function = reachable.function := of_decide_eq_true heq
          exact hfunction
        · exact fun hfunction => ⟨_, hfunction, by simp [entry]⟩
      simp only [hany]
      split
      · rw [List.map_map]
        exact List.map_congr_left fun function _ => (entry_concat functions reachable function).symm
      · rename_i hnew
        have hkept : ∀ function ∈ keys ReachableFunction.function functions,
            entry (functions ++ [reachable]) function = entry functions function := by
          intro function hfunction
          rw [entry_concat, if_neg]
          rintro rfl
          exact hnew (mem_keys.mp hfunction)
        rw [List.map_append, List.map_congr_left hkept, List.map_singleton, entry_concat, if_pos rfl,
          entry, group_eq_nil hnew]
        rfl

/-! ### The rest of the map during the second loop -/

/-- What is left in the map, and what has been taken out, after a part of the list. -/
def taken (entryOf : Nat × Nat → FunctionUnderTest) (functions : List (Nat × Nat))
    (done : List ReachableFunction) : List FunctionUnderTest × List FunctionUnderTest :=
  ((functions.filter (· ∉ done.map ReachableFunction.function)).map entryOf,
    (keys ReachableFunction.function done).map entryOf)

theorem find?_map_entry {entryOf : Nat × Nat → FunctionUnderTest}
    (hentry : ∀ function, (entryOf function).function = function) (functions : List (Nat × Nat))
    (function : Nat × Nat) :
    (functions.map entryOf).find? (·.function = function) =
      if function ∈ functions then some (entryOf function) else none := by
  induction functions with
  | nil => rfl
  | cons first functions ih =>
      rw [List.map_cons, List.find?_cons, hentry, ih]
      by_cases hfirst : first = function
      · simp [hfirst]
      · simp [hfirst, Ne.symm hfirst]

/-- **The map and the result share out the functions:** the ones met already are in the
    result, in the order of their first occurrence, and the others are in the map. -/
theorem foldl_takeFunction {entryOf : Nat × Nat → FunctionUnderTest}
    (hentry : ∀ function, (entryOf function).function = function) {functions : List (Nat × Nat)}
    {done : List ReachableFunction} (hdone : ∀ r ∈ done, r.function ∈ functions) :
    done.foldl takeFunction (functions.map entryOf, []) = taken entryOf functions done := by
  induction done using List.reverseRecOn with
  | nil => simp [taken, keys]
  | append_singleton done reachable ih =>
      have hmem := hdone reachable (List.mem_append_right _ (List.mem_singleton_self _))
      have hfind := find?_map_entry hentry
        (functions.filter (· ∉ done.map ReachableFunction.function)) reachable.function
      rw [List.foldl_append, List.foldl_cons, List.foldl_nil,
        ih fun r hr => hdone r (List.mem_append_left _ hr), takeFunction, taken, hfind]
      simp only [List.mem_filter, decide_eq_true_eq]
      by_cases hold : reachable.function ∈ done.map ReachableFunction.function
      · -- the function was taken before
        rw [if_neg fun hboth => hboth.2 hold, taken, keys_concat, if_pos hold]
        refine Prod.ext (congrArg (List.map entryOf) ?_) rfl
        refine List.filter_congr fun function _ => ?_
        by_cases heq : function = reachable.function
        · simp [heq, hold]
        · simp [heq]
      · rw [if_pos (by simpa [hmem] using hold), taken, keys_concat, if_neg hold]
        simp only [List.map_append, List.map_singleton, List.filter_map, List.filter_filter]
        congr 2
        refine List.filter_congr fun function _ => ?_
        simp only [Function.comp_apply, hentry, List.mem_append, List.mem_singleton]
        by_cases heq : function = reachable.function
        · simp [heq]
        · simp [heq]

theorem mergeReachableFunctions_eq_keys (addressOf : Nat × Nat → Nat)
    (functions : List ReachableFunction) :
    mergeReachableFunctions addressOf functions =
      (keys ReachableFunction.function functions).map (entry functions) := by
  rw [mergeReachableFunctions_eq, MutationsFinder.mergeReachableFunctions, foldl_recordReachable,
    foldl_takeFunction (fun _ => rfl) fun r hr => mem_keys.mpr (List.mem_map_of_mem hr)]
  rfl

/-- One entry for each function that was reached, in the order in which the functions were
    first reached, with the tests of its own entries in their order. -/
structure StableGrouping (functions : List ReachableFunction) (merged : List FunctionUnderTest) :
    Prop where
  reached : ∀ function, function ∈ merged.map FunctionUnderTest.function ↔
    function ∈ functions.map ReachableFunction.function
  once : (merged.map FunctionUnderTest.function).Nodup
  ordered : (merged.map FunctionUnderTest.function).Pairwise fun function function' =>
    functions.findIdx (·.function = function) < functions.findIdx (·.function = function')
  reachableTests : ∀ functionUnderTest ∈ merged, functionUnderTest.reachableTests =
    (functions.filter (·.function = functionUnderTest.function)).map fun reachable =>
      (reachable.test, reachable.distance)
  entries : (merged.flatMap fun functionUnderTest => functionUnderTest.reachableTests.map fun test =>
    (⟨functionUnderTest.function, test.1, test.2⟩ : ReachableFunction)).Perm functions

/-- **The merged functions are a stable grouping of the reached ones,** wherever the
    functions lie in memory. -/
theorem mergeReachableFunctions_stableGrouping (addressOf : Nat × Nat → Nat)
    (functions : List ReachableFunction) :
    StableGrouping functions (mergeReachableFunctions addressOf functions) := by
  rw [mergeReachableFunctions_eq_keys]
  have hfunctions : ((keys ReachableFunction.function functions).map (entry functions)).map
      FunctionUnderTest.function = keys ReachableFunction.function functions := by
    rw [List.map_map]
    exact List.map_id _
  have hentries : ((keys ReachableFunction.function functions).map (entry functions)).flatMap
      (fun functionUnderTest => functionUnderTest.reachableTests.map fun test =>
        (⟨functionUnderTest.function, test.1, test.2⟩ : ReachableFunction)) =
      (keys ReachableFunction.function functions).flatMap
        (group ReachableFunction.function functions) := by
    rw [List.flatMap_map]
    refine List.flatMap_congr fun function _ => ?_
    simp only [entry, List.map_map]
    -- an entry is its function with its test and distance
    have hself : ∀ reachable ∈ group ReachableFunction.function functions function,
        (⟨function, reachable.test, reachable.distance⟩ : ReachableFunction) = reachable := by
      intro reachable hmem
      have hfunction : reachable.function = function := by simpa using (List.mem_filter.mp hmem).2
      rw [← hfunction]
    calc _ = (group ReachableFunction.function functions function).map id :=
          List.map_congr_left hself
      _ = _ := List.map_id _
  constructor
  case reached => exact fun function => by rw [hfunctions, mem_keys]
  case once =>
    rw [hfunctions]
    exact keys_nodup ReachableFunction.function functions
  case ordered =>
    rw [hfunctions]
    exact keys_ordered ReachableFunction.function functions
  case reachableTests =>
    intro functionUnderTest hmem
    obtain ⟨function, -, rfl⟩ := List.mem_map.mp hmem
    rfl
  case entries =>
    rw [hentries]
    exact flatMap_group_perm ReachableFunction.function functions

/-! ### Selected instructions -/

/-- One of the filters skips the instruction. -/
def isSkipped (filters : List (Nat → MutationPointAddress → Bool)) (function : Nat × Nat)
    (address : MutationPointAddress) : Bool :=
  filters.any fun shouldSkip => shouldSkip function.1 address

/-- At the address is a branch for which the search of a logical mutator finds a second
    one.  The other mutators do not search for pairs of branches. -/
def startsPair (mutator : Mutator) (blocks : List Block) (address : MutationPointAddress) : Bool :=
  ((address.findInstruction blocks).bind (branchAt address)).any fun branch =>
    match mutator.search with
    | .lowLevel _ | .lowLevelOnZero _ => false
    | .logicalAnd => (LogicalAndToOr.findPossibleMutationInBranch blocks branch).isSome
    | .logicalOr => (LogicalOrToAnd.findPossibleMutationInBranch blocks branch).isSome

theorem mem_selectInstructions {program : Program}
    {filters : List (Nat → MutationPointAddress → Bool)} {function : Nat × Nat}
    {reachableTests : List (Nat × Int)} {address : MutationPointAddress} :
    address ∈ (selectInstructions program filters
        ⟨function, reachableTests, []⟩).selectedInstructions ↔
      address ∈ instructionAddresses function.2 (body program function) ∧
        isSkipped filters function address = false := by
  simp [selectInstructions, isSkipped]

section

variable {irm : IRMutation → Instruction → Bool} {mutator : Mutator} {bitcode : Bitcode}
  {blocks : List Block} {functionUnderTest : FunctionUnderTest}

/-- The points are at the visited instructions to which a mutation can be applied. -/
theorem exists_point_iff {address : MutationPointAddress} :
    (∃ point ∈ getMutations irm mutator bitcode blocks functionUnderTest,
        point.address = address) ↔
      address ∈ visitedInstructions mutator blocks functionUnderTest ∧
        ∃ instruction, address.findInstruction blocks = some instruction ∧
          mutationsAt irm mutator blocks address instruction ≠ [] := by
  constructor
  · rintro ⟨point, hpoint, rfl⟩
    obtain ⟨visited, hvisited, hmade⟩ := List.mem_flatMap.mp hpoint
    cases hinstruction : visited.findInstruction blocks with
    | none => simp [hinstruction] at hmade
    | some instruction =>
        rw [hinstruction] at hmade
        obtain ⟨mutation, hmutation, rfl⟩ := List.mem_map.mp hmade
        exact ⟨hvisited, instruction, hinstruction, List.ne_nil_of_mem hmutation⟩
  · rintro ⟨hvisited, instruction, hinstruction, hmutations⟩
    obtain ⟨mutation, hmutation⟩ := List.exists_mem_of_ne_nil _ hmutations
    refine ⟨.create mutator mutation address instruction functionUnderTest.function.1 bitcode,
      List.mem_flatMap.mpr ⟨address, hvisited, ?_⟩, rfl⟩
    rw [hinstruction]
    exact List.mem_map_of_mem hmutation

/-- A logical mutator makes a point at every branch that starts a pair. -/
theorem exists_point_iff_startsPair
    (hlogical : mutator.search = .logicalAnd ∨ mutator.search = .logicalOr)
    {address : MutationPointAddress} :
    (∃ point ∈ getMutations irm mutator bitcode blocks functionUnderTest,
        point.address = address) ↔
      address ∈ instructionAddresses functionUnderTest.function.2 blocks ∧
        startsPair mutator blocks address = true := by
  have hvisited : visitedInstructions mutator blocks functionUnderTest =
      instructionAddresses functionUnderTest.function.2 blocks := by
    rcases hlogical with h | h
    · rw [visitedInstructions, h]
    · rw [visitedInstructions, h]
  have hpair : ∀ instruction, address.findInstruction blocks = some instruction →
      (mutationsAt irm mutator blocks address instruction ≠ [] ↔
        startsPair mutator blocks address = true) := by
    intro instruction hinstruction
    unfold mutationsAt startsPair
    rw [hinstruction, Option.bind_some]
    rcases hlogical with h | h
    · rw [h]
      cases branchAt address instruction <;> simp [Option.isSome_iff_ne_none]
    · rw [h]
      cases branchAt address instruction <;> simp [Option.isSome_iff_ne_none]
  rw [exists_point_iff, hvisited]
  refine and_congr_right fun _ => ?_
  constructor
  · rintro ⟨instruction, hinstruction, hmutations⟩
    exact (hpair instruction hinstruction).mp hmutations
  · intro hstarts
    cases hinstruction : address.findInstruction blocks with
    | none => simp [startsPair, hinstruction] at hstarts
    | some instruction => exact ⟨instruction, rfl, (hpair instruction hinstruction).mpr hstarts⟩

/-- The other mutators look at the selected instructions, and search for no pairs. -/
theorem lowLevel_of_not_logical
    (hlowLevel : ¬(mutator.search = .logicalAnd ∨ mutator.search = .logicalOr)) :
    visitedInstructions mutator blocks functionUnderTest = functionUnderTest.selectedInstructions ∧
      ∀ address, startsPair mutator blocks address = false := by
  cases hsearch : mutator.search with
  | lowLevel => exact ⟨by rw [visitedInstructions, hsearch], by simp [startsPair, hsearch]⟩
  | lowLevelOnZero => exact ⟨by rw [visitedInstructions, hsearch], by simp [startsPair, hsearch]⟩
  | logicalAnd => exact absurd (.inl hsearch) hlowLevel
  | logicalOr => exact absurd (.inr hsearch) hlowLevel

end

/-- **The filters bind a mutator exactly if no skipped branch starts a pair that it searches
    for.** -/
theorem filters_bind_iff (irm : IRMutation → Instruction → Bool) (mutator : Mutator)
    (program : Program) (bitcode : Bitcode) (function : Nat × Nat)
    (reachableTests : List (Nat × Int)) (filters : List (Nat → MutationPointAddress → Bool)) :
    (∀ point ∈ getMutations irm mutator bitcode (body program function)
        (selectInstructions program filters ⟨function, reachableTests, []⟩),
      ∀ shouldSkip ∈ filters, shouldSkip function.1 point.address = false) ↔
    ∀ address ∈ instructionAddresses function.2 (body program function),
      isSkipped filters function address = true →
        startsPair mutator (body program function) address = false := by
  have hskipped : ∀ address, (∀ shouldSkip ∈ filters, shouldSkip function.1 address = false) ↔
      isSkipped filters function address = false := by
    intro address
    rw [isSkipped, List.any_eq_false]
    simp
  simp only [hskipped]
  by_cases hlogical : mutator.search = .logicalAnd ∨ mutator.search = .logicalOr
  · constructor
    · intro hpoints address haddress hskip
      by_contra hstarts
      obtain ⟨point, hpoint, rfl⟩ := (@exists_point_iff_startsPair irm mutator bitcode _
        (selectInstructions program filters ⟨function, reachableTests, []⟩) hlogical address).mpr
        ⟨haddress, Bool.eq_true_of_not_eq_false hstarts⟩
      exact absurd (hpoints point hpoint) (by rw [hskip]; exact Bool.noConfusion)
    · intro hbranches point hpoint
      obtain ⟨haddress, hstarts⟩ := (exists_point_iff_startsPair hlogical).mp ⟨point, hpoint, rfl⟩
      by_contra hskip
      exact absurd hstarts (by
        rw [hbranches _ haddress (Bool.eq_true_of_not_eq_false hskip)]
        exact Bool.noConfusion)
  · obtain ⟨hvisited, hnone⟩ := lowLevel_of_not_logical hlogical
    refine iff_of_true ?_ fun address _ _ => hnone address
    intro point hpoint
    have hselected := (exists_point_iff.mp ⟨point, hpoint, rfl⟩).1
    rw [hvisited] at hselected
    exact (mem_selectInstructions.mp hselected).2

/-- A program with the one function `return a && b`. -/
def conjunctionProgram : Program where
  bitcode := [⟨⟨"conjunction.bc", [conjunction], []⟩, "0123456789abcdef"⟩]
  distinct := List.nodup_singleton _

/-- The first branch of `a && b` is skipped, and still mutated. -/
theorem not_filters_bind_conjunction :
    ¬ ∀ mutator ∈ registered, ∀ (irm : IRMutation → Instruction → Bool) (program : Program)
      (bitcode : Bitcode) (function : Nat × Nat) (reachableTests : List (Nat × Int))
      (filters : List (Nat → MutationPointAddress → Bool)),
      ∀ point ∈ getMutations irm mutator bitcode (body program function)
          (selectInstructions program filters ⟨function, reachableTests, []⟩),
        ∀ shouldSkip ∈ filters, shouldSkip function.1 point.address = false := by
  intro hbind
  obtain ⟨point, hpoint, haddress⟩ := (@exists_point_iff_startsPair (fun _ _ => false) logicalAndToOr
    ⟨⟨"conjunction.bc", [conjunction], []⟩, "0123456789abcdef"⟩ (body conjunctionProgram (0, 0))
    (selectInstructions conjunctionProgram [fun _ address => address = ⟨0, 0, 0⟩]
      ⟨(0, 0), [(0, 1)], []⟩) (.inl rfl) ⟨0, 0, 0⟩).mpr ⟨by decide, by decide⟩
  have hbound := hbind logicalAndToOr (by decide) (fun _ _ => false) conjunctionProgram _ (0, 0)
    [(0, 1)] [fun _ address => address = ⟨0, 0, 0⟩] point hpoint _ (List.mem_singleton_self _)
  exact of_decide_eq_false hbound haddress

end Mull.FunctionsUnderTest
