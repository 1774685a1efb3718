import Mull.MutationsFinder
import Mull.OriginalTestExecution
import Mull.ProgressProtocol
import Mull.SchemataLayout

/-!
# The driver

`Driver::Run` passes the functions and mutation points of a program through a sequence of
stages, each of which is executed by a `TaskExecutor` with a configured number of workers.
Some of the stages keep their items in maps whose order is that of the functions'
addresses in memory.

Neither shows in the result, as long as every stage can be executed at all
(`sameResults_iff`): a stage with too many items for the arithmetic of `taskBatches` never
ends.
-/

namespace Mull.TaskExecutor

open FairRounds

variable {α β : Type}

/-! ### Stages -/

/-- `execute` starts, ends under every fair schedule, and leaves `output` whatever the
    schedule was. -/
def Executes (f : α → List β) (input : List α) (tasks : Nat) (output : List β) : Prop :=
  ∃ m, launch input.length tasks [] = some m ∧
    (∃ k, ∀ rounds : List (List Thread), k ≤ rounds.length →
      (∀ round ∈ rounds, IsRound (threads m.workers.length) round) →
      (run (step f input) m rounds.flatten).Finished) ∧
    ∀ schedule, (run (step f input) m schedule).Finished →
      (run (step f input) m schedule).result (path input.length tasks) [] = output

/-- The threads can be joined only if all items were handed out. -/
theorem handedOut_of_finished (f : α → List β) {input : List α} {tasks : Nat} (htasks : 1 ≤ tasks)
    {m : Machine β} (h : launch input.length tasks [] = some m) {schedule : List Thread}
    (hfinished : (run (step f input) m schedule).Finished) :
    handedOut input.length tasks = input.length := by
  by_cases hpos : input.length = 0
  · have hle := handedOut_le input.length tasks
    omega
  · obtain ⟨base, ranges, hcovered, hinv⟩ := run_invariants f hpos htasks h
    obtain ⟨hmachine, hreporter⟩ := hinv schedule
    unfold Machine.ReporterInv at hreporter
    rw [hfinished.2] at hreporter
    have hsum := hmachine.sum_counters_le
    have hle := handedOut_le input.length tasks
    omega

/-- **A stage has one output, the items' outputs in order, if the sizes fit,** and none
    otherwise. -/
theorem executes_iff (f : α → List β) (input : List α) {tasks : Nat} (htasks : 1 ≤ tasks)
    (output : List β) :
    Executes f input tasks output ↔ Fits input.length tasks ∧ output = input.flatMap f := by
  constructor
  · rintro ⟨m, hlaunch, ⟨k, hfair⟩, hresult⟩
    have hfinished := hfair (List.replicate k (threads m.workers.length))
      (by rw [List.length_replicate])
      (fun round hround t ht => by rwa [List.eq_of_mem_replicate hround])
    have hall := handedOut_of_finished f htasks hlaunch hfinished
    refine ⟨(fits_iff_launch htasks _).mpr ⟨⟨m, hlaunch⟩, hall⟩, ?_⟩
    rw [← hresult _ hfinished, result_of_finished f htasks hlaunch hall hfinished, List.nil_append]
  · rintro ⟨hfits, rfl⟩
    obtain ⟨⟨m, hlaunch⟩, hall⟩ := (fits_iff_launch htasks []).mp hfits
    refine ⟨m, hlaunch, finished_of_launch f hlaunch hall, fun schedule hfinished => ?_⟩
    rw [result_of_finished f htasks hlaunch hall hfinished, List.nil_append]

/-- The filters one after another, each a stage of its own. -/
inductive Filtered (tasks : Nat) : List (α → Bool) → List α → List α → Prop
  | nil (items : List α) : Filtered tasks [] items items
  | cons {shouldSkip : α → Bool} {filters : List (α → Bool)} {items next kept : List α}
      (hstage : Executes (fun item => if shouldSkip item then [] else [item]) items tasks next)
      (hrest : Filtered tasks filters next kept) : Filtered tasks (shouldSkip :: filters) items kept

/-- The items that no filter skips. -/
def keep (filters : List (α → Bool)) (items : List α) : List α :=
  items.filter fun item => filters.all fun shouldSkip => !shouldSkip item

/-- Every filter gets a number of items that can be executed. -/
def FiltersFit (tasks : Nat) : List (α → Bool) → List α → Prop
  | [], _ => True
  | shouldSkip :: filters, items =>
      Fits items.length tasks ∧ FiltersFit tasks filters (items.filter fun item => !shouldSkip item)

theorem flatMap_skip (shouldSkip : α → Bool) (items : List α) :
    (items.flatMap fun item => if shouldSkip item then [] else [item]) =
      items.filter fun item => !shouldSkip item := by
  induction items with
  | nil => rfl
  | cons item items ih =>
      rw [List.flatMap_cons, ih, List.filter_cons]
      cases shouldSkip item <;> rfl

theorem keep_cons (shouldSkip : α → Bool) (filters : List (α → Bool)) (items : List α) :
    keep (shouldSkip :: filters) items =
      keep filters (items.filter fun item => !shouldSkip item) := by
  rw [keep, keep, List.filter_filter]
  congr 1
  funext item
  rw [List.all_cons, Bool.and_comm]

theorem filtered_iff {tasks : Nat} (htasks : 1 ≤ tasks) {filters : List (α → Bool)}
    {items kept : List α} :
    Filtered tasks filters items kept ↔ FiltersFit tasks filters items ∧ kept = keep filters items := by
  induction filters generalizing items with
  | nil =>
      constructor
      · rintro ⟨⟩
        exact ⟨trivial, by simp [keep]⟩
      · rintro ⟨-, rfl⟩
        simpa [keep] using Filtered.nil items
  | cons shouldSkip filters ih =>
      rw [FiltersFit, keep_cons]
      constructor
      · rintro (_ | ⟨hstage, hrest⟩)
        obtain ⟨hfits, rfl⟩ := (executes_iff _ _ htasks _).mp hstage
        rw [flatMap_skip] at hrest
        obtain ⟨hfilters, rfl⟩ := ih.mp hrest
        exact ⟨⟨hfits, hfilters⟩, rfl⟩
      · rintro ⟨⟨hfits, hfilters⟩, rfl⟩
        refine .cons ((executes_iff _ _ htasks _).mpr ⟨hfits, rfl⟩) ?_
        rw [flatMap_skip]
        exact ih.mpr ⟨hfilters, rfl⟩

end Mull.TaskExecutor

namespace Mull.Driver

open IR Mutators MutationPoints MutationsFinder TaskExecutor

/-! ### A map in the order of addresses -/

section Merge

variable (addressOf : Nat × Nat → Nat)

/-- `recordReachable`, on a map that is kept in the order of addresses. -/
def recordReachableAt (functionsMap : List FunctionUnderTest)
    (reachable : MutationsFinder.ReachableFunction) : List FunctionUnderTest :=
  if functionsMap.any (·.function = reachable.function) then
    functionsMap.map fun merged =>
      if merged.function = reachable.function then
        { merged with
          reachableTests := merged.reachableTests ++ [(reachable.test, reachable.distance)] }
      else merged
  else
    functionsMap.takeWhile (addressOf ·.function < addressOf reachable.function) ++
      ⟨reachable.function, [(reachable.test, reachable.distance)], []⟩ ::
      functionsMap.dropWhile (addressOf ·.function < addressOf reachable.function)

/-- `mergeReachableFunctions`, with the map as it lies in memory. -/
def mergeReachableFunctionsAt (functions : List MutationsFinder.ReachableFunction) :
    List FunctionUnderTest :=
  (functions.foldl takeFunction (functions.foldl (recordReachableAt addressOf) [], [])).2

variable {addressOf}

/-- Two orders of one map. -/
structure SameMap (map map' : List FunctionUnderTest) : Prop where
  perm : map.Perm map'
  nodup : (map.map (·.function)).Nodup

theorem SameMap.any_eq {map map' : List FunctionUnderTest} (h : SameMap map map')
    (p : FunctionUnderTest → Bool) : map.any p = map'.any p := by
  rw [Bool.eq_iff_iff, List.any_eq_true, List.any_eq_true]
  exact ⟨fun ⟨x, hx, hp⟩ => ⟨x, h.perm.mem_iff.mp hx, hp⟩,
    fun ⟨x, hx, hp⟩ => ⟨x, h.perm.mem_iff.mpr hx, hp⟩⟩

theorem SameMap.record {map map' : List FunctionUnderTest} (h : SameMap map map')
    (reachable : MutationsFinder.ReachableFunction) :
    SameMap (recordReachableAt addressOf map reachable) (recordReachable map' reachable) := by
  unfold recordReachableAt recordReachable
  rw [← h.any_eq]
  split
  · refine ⟨h.perm.map _, ?_⟩
    have hkeys : (map.map fun merged =>
        if merged.function = reachable.function then
          { merged with
            reachableTests := merged.reachableTests ++ [(reachable.test, reachable.distance)] }
        else merged).map (·.function) = map.map (·.function) := by
      rw [List.map_map]
      refine List.map_congr_left fun merged _ => ?_
      simp only [Function.comp_apply]
      split <;> rfl
    rw [hkeys]
    exact h.nodup
  · rename_i hnew
    have hperm := @List.perm_middle _
      (⟨reachable.function, [(reachable.test, reachable.distance)], []⟩ : FunctionUnderTest)
      (map.takeWhile (addressOf ·.function < addressOf reachable.function))
      (map.dropWhile (addressOf ·.function < addressOf reachable.function))
    rw [List.takeWhile_append_dropWhile] at hperm
    refine ⟨hperm.trans ((h.perm.cons _).trans (List.perm_append_singleton _ _).symm), ?_⟩
    refine ((hperm.map _).nodup_iff).mpr (List.nodup_cons.mpr ⟨fun hmem => hnew ?_, h.nodup⟩)
    obtain ⟨other, hother, heq⟩ := List.mem_map.mp hmem
    exact List.any_eq_true.mpr ⟨other, hother, by simpa using heq⟩

/-- A search by function finds the same entry in both orders. -/
theorem SameMap.find?_eq {map map' : List FunctionUnderTest} (h : SameMap map map')
    (function : Nat × Nat) :
    map.find? (·.function = function) = map'.find? (·.function = function) := by
  cases hfind : map.find? (·.function = function) with
  | none =>
      symm
      rw [List.find?_eq_none] at hfind ⊢
      exact fun x hx => hfind x (h.perm.mem_iff.mpr hx)
  | some entry =>
      have hmem := List.mem_of_find?_eq_some hfind
      have hfunction : entry.function = function := by simpa using List.find?_some hfind
      cases hfind' : map'.find? (·.function = function) with
      | none =>
          have hnone := List.find?_eq_none.mp hfind' entry (h.perm.mem_iff.mp hmem)
          simp [hfunction] at hnone
      | some entry' =>
          have hmem' := h.perm.mem_iff.mpr (List.mem_of_find?_eq_some hfind')
          have hfunction' : entry'.function = function := by simpa using List.find?_some hfind'
          rw [List.inj_on_of_nodup_map h.nodup hmem hmem' (hfunction.trans hfunction'.symm)]

theorem SameMap.take {map map' functions : List FunctionUnderTest} (h : SameMap map map')
    (reachable : MutationsFinder.ReachableFunction) :
    SameMap (takeFunction (map, functions) reachable).1 (takeFunction (map', functions) reachable).1 ∧
      (takeFunction (map, functions) reachable).2 = (takeFunction (map', functions) reachable).2 := by
  unfold takeFunction
  rw [h.find?_eq reachable.function]
  cases map'.find? (·.function = reachable.function) with
  | none => exact ⟨h, rfl⟩
  | some entry => exact ⟨⟨h.perm.filter _, h.nodup.sublist (List.filter_sublist.map _)⟩, rfl⟩

/-- **The order of the addresses does not show in the merged functions.** -/
theorem mergeReachableFunctionsAt_eq (addressOf : Nat × Nat → Nat)
    (functions : List MutationsFinder.ReachableFunction) :
    mergeReachableFunctionsAt addressOf functions = mergeReachableFunctions functions := by
  have hrecord : ∀ (rest : List MutationsFinder.ReachableFunction) (map map' : List FunctionUnderTest),
      SameMap map map' →
      SameMap (rest.foldl (recordReachableAt addressOf) map) (rest.foldl recordReachable map') := by
    intro rest
    induction rest with
    | nil => exact fun _ _ h => h
    | cons reachable rest ih => exact fun map map' h => ih _ _ (h.record reachable)
  have htake : ∀ (rest : List MutationsFinder.ReachableFunction)
      (map map' done : List FunctionUnderTest), SameMap map map' →
      (rest.foldl takeFunction (map, done)).2 = (rest.foldl takeFunction (map', done)).2 := by
    intro rest
    induction rest with
    | nil => exact fun _ _ _ _ => rfl
    | cons reachable rest ih =>
        intro map map' done h
        obtain ⟨hmap, hdone⟩ := @SameMap.take map map' done h reachable
        rw [List.foldl_cons, List.foldl_cons, ← Prod.mk.eta (p := takeFunction (map, done) reachable),
          ← Prod.mk.eta (p := takeFunction (map', done) reachable), hdone]
        exact ih _ _ _ hmap
  exact htake functions _ _ [] (hrecord functions [] [] ⟨.refl _, List.nodup_nil⟩)

end Merge

/-! ### Inputs -/

/-- The numbers of workers. -/
structure Parallelization where
  workers : Nat
  testExecutionWorkers : Nat
  mutantExecutionWorkers : Nat
  workers_pos : 1 ≤ workers
  testExecutionWorkers_pos : 1 ≤ testExecutionWorkers
  mutantExecutionWorkers_pos : 1 ≤ mutantExecutionWorkers

structure ExecutionResult where
  status : ExecutionStatus
  exitStatus : Int
  runningTime : Int
  stdoutOutput : String
  stderrOutput : String
deriving DecidableEq, Repr

def ExecutionResult.initial : ExecutionResult := ⟨.invalid, 0, 0, "", ""⟩

structure MutationResult where
  result : ExecutionResult
  mutationPoint : MutationPoint
  distance : Int
  test : Nat
deriving DecidableEq, Repr

/-- A function of the program, by its file and its position there. -/
abbrev FunctionId := Nat × Nat

/-- What two runs have in common: the program and its tests, the filters and mutators,
    which are pure, and what the sandbox would report for each test and each mutant. -/
structure Inputs where
  program : Program
  functions : List (DynamicCallTree.CallTreeFunction FunctionId)
  phony : functions.head? = some ⟨none, none⟩
  tests : List (DynamicCallTree.Test FunctionId)
  originalResult : Nat → ExecutionResult
  events : Nat → List DynamicCallTree.Event
  inRange : ∀ test ∈ tests, DynamicCallTree.InRange functions.length (events test.id)
  leaves : ∀ test ∈ tests, DynamicCallTree.LeavesNonEmpty 0 (events test.id)
  maxDistance : Int
  functionFilters : List (FunctionId → Bool)
  instructionFilters : List (Nat → MutationPointAddress → Bool)
  mutationFilters : List (MutationPoint → Bool)
  irm : IRMutation → Instruction → Bool
  mutators : List Mutator
  mutation : Schemata.BodyMutation
  dryRunEnabled : Bool
  failFastEnabled : Bool
  mutantResult : MutationPoint → Nat → ExecutionResult
  valid : ∀ point test, (mutantResult point test).status ≠ .invalid

section Stages

variable (inputs : Inputs)

/-- What `OriginalTestExecutionTask` emits for a test. -/
def reached (test : DynamicCallTree.Test FunctionId) : List MutationsFinder.ReachableFunction :=
  match DynamicCallTree.record .initial (inputs.events test.id) with
  | none => []
  | some info =>
      match DynamicCallTree.emitted inputs.functions inputs.maxDistance
          ⟨test, (inputs.originalResult test.id).status, info⟩ with
      | .error _ => []
      | .ok storage => storage.filterMap fun reachable =>
          reachable.function.map fun function => ⟨function, reachable.test.id, reachable.distance⟩

/-- The loop of `MutantExecutionTask` over the tests of a point. -/
def runTests (point : MutationPoint) : Bool → List (Nat × Int) → List MutationResult
  | _, [] => []
  | atLeastOneTestFailed, (test, distance) :: reachableTests =>
      if inputs.failFastEnabled && atLeastOneTestFailed then
        ⟨{ ExecutionResult.initial with status := .failFast }, point, distance, test⟩ ::
          runTests point atLeastOneTestFailed reachableTests
      else
        ⟨inputs.mutantResult point test, point, distance, test⟩ ::
          runTests point
            (atLeastOneTestFailed || (inputs.mutantResult point test).status ≠ .passed)
            reachableTests

def executeMutant (point : MutationPoint) : List MutationResult :=
  runTests inputs point false point.reachableTests

/-- `DryRunMutantExecutionTask`. -/
def dryRunMutant (point : MutationPoint) : List MutationResult :=
  point.reachableTests.map fun (test, distance) =>
    ⟨{ ExecutionResult.initial with
        status := .dryRun
        runningTime := (inputs.originalResult test).runningTime * 10 }, point, distance, test⟩

/-- A bitcode file on its way through the preparation of the mutants. -/
structure BitcodeItem where
  position : Nat
  bitcode : Bitcode
  prepared : Schemata.Prepared

/-- The stages of `normalRunMutations` before the mutants are run: every file is cloned,
    stripped, redirected, mutated and compiled. -/
def Prepares (parallelization : Parallelization) (addressOf : FunctionId → Nat)
    (points : List MutationPoint) (compiled : List BitcodeItem) : Prop :=
  let mutationPoints := fun b =>
    Schemata.getMutationPointsMap (fun f => addressOf (b, f)) (Schemata.pointersOf points b)
  ∃ cloned deleted redirected : List BitcodeItem, ∃ applied : List MutationPoint,
    Executes (fun (bitcode, b) => [⟨b, bitcode, Schemata.cloneFunctions (mutationPoints b)
      ⟨bitcode.module, fun _ => none⟩⟩]) inputs.program.bitcode.zipIdx parallelization.workers
      cloned ∧
    Executes (fun item => [{ item with prepared := { item.prepared with
      module := Schemata.deleteFunctions item.bitcode.uniqueIdentifier
        (mutationPoints item.position) item.prepared.module } }]) cloned
      parallelization.workers deleted ∧
    Executes (fun item => [{ item with prepared := { item.prepared with
      module := Schemata.insertTrampolines item.bitcode.uniqueIdentifier
        (mutationPoints item.position) item.prepared.module } }]) deleted
      parallelization.workers redirected ∧
    -- one task applies the mutations, in the order of the points
    Executes (fun point => [point]) points 1 applied ∧
    Executes (fun item => [item]) (redirected.map fun item =>
      { item with prepared := { item.prepared with
        module := (Schemata.pointersOf applied item.position).foldl
          (Schemata.applyMutation inputs.mutation item.prepared.mutatedFunction)
          item.prepared.module } }) parallelization.workers compiled

/-- `findMutationPoints`. -/
def FindsMutationPoints (parallelization : Parallelization) (addressOf : FunctionId → Nat)
    (found : List MutationPoint) : Prop :=
  if inputs.tests = [] then found = []
  else
    ∃ reachable functionsUnderTest selected,
      Executes (reached inputs) inputs.tests parallelization.testExecutionWorkers reachable ∧
      Filtered parallelization.workers
        (inputs.functionFilters.map fun shouldSkip functionUnderTest =>
          shouldSkip functionUnderTest.function)
        (mergeReachableFunctionsAt addressOf reachable) functionsUnderTest ∧
      Executes (fun functionUnderTest =>
          [selectInstructions inputs.program inputs.instructionFilters functionUnderTest])
        functionsUnderTest parallelization.workers selected ∧
      Executes (searchFunction inputs.irm inputs.program inputs.mutators) selected
        parallelization.workers found

/-- `runMutations`. -/
def RunsMutations (parallelization : Parallelization) (addressOf : FunctionId → Nat)
    (points : List MutationPoint) (results : List MutationResult) : Prop :=
  if points = [] then results = []
  else if inputs.dryRunEnabled then
    Executes (dryRunMutant inputs) points parallelization.workers results
  else
    (∃ compiled, Prepares inputs parallelization addressOf points compiled) ∧
      Executes (executeMutant inputs) points parallelization.mutantExecutionWorkers results

/-- `Driver::Run` ends, whatever the schedules of its stages are, with these mutation
    points and these results.  What the object files contain is left out. -/
def Runs (parallelization : Parallelization) (addressOf : FunctionId → Nat)
    (points : List MutationPoint) (results : List MutationResult) : Prop :=
  (∃ objectFiles, Executes (fun _ => [()]) inputs.program.bitcode parallelization.workers
    objectFiles) ∧
  ∃ found, FindsMutationPoints inputs parallelization addressOf found ∧
    Filtered parallelization.workers inputs.mutationFilters found points ∧
    RunsMutations inputs parallelization addressOf points results

/-- Two runs that differ in the numbers of workers and in the addresses of the functions
    come to the same mutation points and results. -/
def SameResults (parallelization parallelization' : Parallelization)
    (addressOf addressOf' : FunctionId → Nat) : Prop :=
  ∃ points results, Runs inputs parallelization addressOf points results ∧
    Runs inputs parallelization' addressOf' points results

/-! ### What a run comes to -/

/-- The functions that the tests reached. -/
def reachableFunctions : List MutationsFinder.ReachableFunction :=
  inputs.tests.flatMap (reached inputs)

def foundPoints : List MutationPoint :=
  getMutationPoints inputs.irm inputs.program inputs.mutators
    (functionsUnderTest inputs.program (reachableFunctions inputs) inputs.functionFilters
      inputs.instructionFilters)

def mutationPoints : List MutationPoint := keep inputs.mutationFilters (foundPoints inputs)

def mutationResults : List MutationResult :=
  (mutationPoints inputs).flatMap
    (if inputs.dryRunEnabled then dryRunMutant inputs else executeMutant inputs)

/-- Every stage gets a number of items that can be split among its workers. -/
structure StagesFit (parallelization : Parallelization) : Prop where
  bitcode : Fits inputs.program.bitcode.length parallelization.workers
  tests : Fits inputs.tests.length parallelization.testExecutionWorkers
  functionFilters : FiltersFit parallelization.workers
    (inputs.functionFilters.map fun shouldSkip functionUnderTest =>
      shouldSkip functionUnderTest.function)
    (mergeReachableFunctions (reachableFunctions inputs))
  functions : Fits (functionsUnderTest inputs.program (reachableFunctions inputs)
    inputs.functionFilters inputs.instructionFilters).length parallelization.workers
  mutationFilters : FiltersFit parallelization.workers inputs.mutationFilters (foundPoints inputs)
  mutants : Fits (mutationPoints inputs).length
    (if inputs.dryRunEnabled then parallelization.workers
      else parallelization.mutantExecutionWorkers)

variable {inputs} {parallelization : Parallelization} {addressOf : FunctionId → Nat}

theorem flatMap_singleton_eq {α β : Type} (f : α → β) (items : List α) :
    (items.flatMap fun item => [f item]) = items.map f := by
  induction items with
  | nil => rfl
  | cons item items ih => rw [List.flatMap_cons, ih]; rfl

/-- The preparation can be executed if the files can, and then it leaves every file as
    `Schemata.prepare` does. -/
theorem prepares_iff {points : List MutationPoint} {compiled : List BitcodeItem} :
    Prepares inputs parallelization addressOf points compiled ↔
      Fits inputs.program.bitcode.length parallelization.workers ∧
      compiled = inputs.program.bitcode.zipIdx.map fun (bitcode, b) =>
        ⟨b, bitcode, Schemata.prepare inputs.mutation (fun f => addressOf (b, f))
          (Schemata.pointersOf points b) bitcode⟩ := by
  have hpos := parallelization.workers_pos
  unfold Prepares
  simp only [executes_iff _ _ hpos, executes_iff _ _ (Nat.le_refl 1), flatMap_singleton_eq]
  constructor
  · rintro ⟨cloned, deleted, redirected, applied, ⟨hfits, rfl⟩, ⟨-, rfl⟩, ⟨-, rfl⟩, ⟨-, rfl⟩, -, rfl⟩
    rw [List.length_zipIdx] at hfits
    refine ⟨hfits, ?_⟩
    simp only [List.map_map, List.map_id']
    rfl
  · rintro ⟨hfits, rfl⟩
    refine ⟨_, _, _, _, ⟨by simpa using hfits, rfl⟩, ⟨by simpa using hfits, rfl⟩,
      ⟨by simpa using hfits, rfl⟩, ⟨.inl rfl, rfl⟩, by simpa using hfits, ?_⟩
    simp only [List.map_map, List.map_id']
    rfl

/-- The stages that look for mutation points fit. -/
def SearchFits (inputs : Inputs) (parallelization : Parallelization) : Prop :=
  Fits inputs.tests.length parallelization.testExecutionWorkers ∧
  FiltersFit parallelization.workers
    (inputs.functionFilters.map fun shouldSkip functionUnderTest =>
      shouldSkip functionUnderTest.function)
    (mergeReachableFunctions (reachableFunctions inputs)) ∧
  Fits (functionsUnderTest inputs.program (reachableFunctions inputs) inputs.functionFilters
    inputs.instructionFilters).length parallelization.workers

theorem functionsUnderTest_eq (program : Program)
    (reachable : List MutationsFinder.ReachableFunction) (functionFilters : List (FunctionId → Bool))
    (instructionFilters : List (Nat → MutationPointAddress → Bool)) :
    functionsUnderTest program reachable functionFilters instructionFilters =
      (keep (functionFilters.map fun shouldSkip functionUnderTest =>
          shouldSkip functionUnderTest.function) (mergeReachableFunctions reachable)).map
        (selectInstructions program instructionFilters) := by
  simp only [functionsUnderTest, keep, List.all_map]
  rfl

theorem fits_zero (tasks : Nat) : Fits 0 tasks := .inr (.inl (Nat.zero_le _))

theorem filtersFit_nil {α : Type} (tasks : Nat) (filters : List (α → Bool)) :
    FiltersFit tasks filters [] := by
  induction filters with
  | nil => trivial
  | cons shouldSkip filters ih => exact ⟨fits_zero tasks, ih⟩

theorem findsMutationPoints_iff {found : List MutationPoint} :
    FindsMutationPoints inputs parallelization addressOf found ↔
      SearchFits inputs parallelization ∧ found = foundPoints inputs := by
  have hpos := parallelization.workers_pos
  unfold FindsMutationPoints
  by_cases htests : inputs.tests = []
  · -- without tests nothing is reached, and no stage has an item
    have hreachable : reachableFunctions inputs = [] := by rw [reachableFunctions, htests]; rfl
    have hfunctions : functionsUnderTest inputs.program [] inputs.functionFilters
        inputs.instructionFilters = [] := rfl
    have hfound : foundPoints inputs = [] := by
      rw [foundPoints, hreachable, hfunctions]
      rfl
    have hfits : SearchFits inputs parallelization := by
      refine ⟨by rw [htests]; exact fits_zero _, ?_, ?_⟩
      · rw [hreachable]
        exact filtersFit_nil _ _
      · rw [hreachable, hfunctions]
        exact fits_zero _
    rw [if_pos htests, hfound]
    exact ⟨fun h => ⟨hfits, h⟩, fun h => h.2⟩
  · simp only [htests, if_false, executes_iff _ _ hpos, filtered_iff hpos, flatMap_singleton_eq,
      executes_iff _ _ parallelization.testExecutionWorkers_pos, mergeReachableFunctionsAt_eq,
      SearchFits, foundPoints, getMutationPoints, functionsUnderTest_eq, List.length_map,
      reachableFunctions]
    constructor
    · rintro ⟨reachable, filtered, selected, ⟨htestsFit, rfl⟩, ⟨hfilters, rfl⟩, ⟨hselect, rfl⟩, -, rfl⟩
      exact ⟨⟨htestsFit, hfilters, hselect⟩, rfl⟩
    · rintro ⟨⟨htestsFit, hfilters, hselect⟩, rfl⟩
      exact ⟨_, _, _, ⟨htestsFit, rfl⟩, ⟨hfilters, rfl⟩, ⟨hselect, rfl⟩,
        by rw [List.length_map]; exact hselect, rfl⟩

theorem runsMutations_iff (hbitcode : Fits inputs.program.bitcode.length parallelization.workers)
    {points : List MutationPoint} {results : List MutationResult} :
    RunsMutations inputs parallelization addressOf points results ↔
      Fits points.length (if inputs.dryRunEnabled then parallelization.workers
        else parallelization.mutantExecutionWorkers) ∧
      results = points.flatMap
        (if inputs.dryRunEnabled then dryRunMutant inputs else executeMutant inputs) := by
  unfold RunsMutations
  by_cases hpoints : points = []
  · simp [hpoints, fits_zero]
  · rw [if_neg hpoints]
    by_cases hdry : inputs.dryRunEnabled
    · simp only [hdry, if_true]
      exact executes_iff _ _ parallelization.workers_pos _
    · simp only [hdry, Bool.false_eq_true, if_false,
        executes_iff _ _ parallelization.mutantExecutionWorkers_pos]
      exact and_iff_right ⟨_, prepares_iff.mpr ⟨hbitcode, rfl⟩⟩

/-- **A run comes to one result, which the inputs determine, if all stages fit,** and to none
    otherwise. -/
theorem runs_iff {points : List MutationPoint} {results : List MutationResult} :
    Runs inputs parallelization addressOf points results ↔
      StagesFit inputs parallelization ∧ points = mutationPoints inputs ∧
        results = mutationResults inputs := by
  have hpos := parallelization.workers_pos
  unfold Runs
  simp only [executes_iff _ _ hpos, findsMutationPoints_iff, filtered_iff hpos]
  constructor
  · rintro ⟨⟨objectFiles, hbitcode, -⟩, found, ⟨⟨htests, hfilters, hfunctions⟩, rfl⟩,
      ⟨hmutations, rfl⟩, hruns⟩
    obtain ⟨hmutants, rfl⟩ := (runsMutations_iff hbitcode).mp hruns
    exact ⟨⟨hbitcode, htests, hfilters, hfunctions, hmutations, hmutants⟩, rfl, rfl⟩
  · rintro ⟨hfit, rfl, rfl⟩
    exact ⟨⟨_, hfit.bitcode, rfl⟩, _, ⟨⟨hfit.tests, hfit.functionFilters, hfit.functions⟩, rfl⟩,
      ⟨hfit.mutationFilters, rfl⟩, (runsMutations_iff hfit.bitcode).mpr ⟨hfit.mutants, rfl⟩⟩

/-- No test is lost to a failed assertion: what is reached is what the task emits. -/
theorem reached_eq {test : DynamicCallTree.Test FunctionId} (h : test ∈ inputs.tests) :
    ∃ info storage, DynamicCallTree.record .initial (inputs.events test.id) = some info ∧
      DynamicCallTree.emitted inputs.functions inputs.maxDistance
        ⟨test, (inputs.originalResult test.id).status, info⟩ = .ok storage ∧
      reached inputs test = storage.filterMap fun reachable =>
        reachable.function.map fun function => ⟨function, reachable.test.id, reachable.distance⟩ := by
  have hrange := inputs.inRange test h
  have hempty : DynamicCallTree.LeavesNonEmpty
      DynamicCallTree.InstrumentationInfo.initial.callstack.length (inputs.events test.id) :=
    inputs.leaves test h
  obtain ⟨info, hrun⟩ := DynamicCallTree.exists_record hrange hempty
  obtain ⟨order, hrec⟩ := DynamicCallTree.recorded_of_record hrange hrun
  have hpositive : 0 < inputs.functions.length := by
    have hphony := inputs.phony
    cases hfunctions : inputs.functions with
    | nil => simp [hfunctions] at hphony
    | cons first rest => simp
  obtain ⟨done, -, -, htree⟩ :=
    DynamicCallTree.createCallTree_spec (hrec.leveled hpositive) inputs.phony le_rfl
  obtain ⟨storage, hstorage⟩ : ∃ storage, DynamicCallTree.emitted inputs.functions
      inputs.maxDistance ⟨test, (inputs.originalResult test.id).status, info⟩ = .ok storage := by
    simp only [DynamicCallTree.emitted, DynamicCallTree.reachableFunctions,
      DynamicCallTree.getReachableFunctions, htree]
    split <;> exact ⟨_, rfl⟩
  exact ⟨info, storage, hrun, hstorage, by simp only [reached, hrun, hstorage]⟩

end Stages

/-- **Two runs come to the same results exactly when all their stages fit.**  The numbers
    of workers and the addresses of the functions do not show in the mutation points, in
    their tests or in the results; but a stage whose items `taskBatches` cannot split never
    ends. -/
theorem sameResults_iff (inputs : Inputs) (parallelization parallelization' : Parallelization)
    (addressOf addressOf' : FunctionId → Nat) :
    SameResults inputs parallelization parallelization' addressOf addressOf' ↔
      StagesFit inputs parallelization ∧ StagesFit inputs parallelization' := by
  unfold SameResults
  simp only [runs_iff]
  constructor
  · rintro ⟨points, results, ⟨hfit, -⟩, hfit', -⟩
    exact ⟨hfit, hfit'⟩
  · rintro ⟨hfit, hfit'⟩
    exact ⟨_, _, ⟨hfit, rfl, rfl⟩, hfit', rfl, rfl⟩

/-- `2 ^ 32 + 2` runs of a test that does nothing. -/
def manyTests : Inputs where
  program := ⟨[⟨⟨"test.bc", [⟨"test_nothing", ⟨.void, [], false⟩, [[.ret none]]⟩], []⟩,
    "test_d41d8cd9"⟩], List.nodup_singleton _⟩
  functions := [⟨none, none⟩, ⟨some (0, 0), none⟩]
  phony := rfl
  tests := List.replicate 4294967298 ⟨0, some (0, 0)⟩
  originalResult _ := { ExecutionResult.initial with status := .passed }
  events _ := [.enter 1, .leave 1]
  inRange _ _ := by simp [DynamicCallTree.InRange, DynamicCallTree.Event.functionIndex]
  leaves _ _ := by simp [DynamicCallTree.LeavesNonEmpty]
  maxDistance := 128
  functionFilters := []
  instructionFilters := []
  mutationFilters := []
  irm _ _ := false
  mutators := []
  mutation := ⟨fun _ blocks => blocks, fun _ _ h => h⟩
  dryRunEnabled := false
  failFastEnabled := false
  mutantResult _ _ := { ExecutionResult.initial with status := .passed }
  valid _ _ := by simp

/-- Everything in one thread, and tests on two. -/
def oneWorker : Parallelization := ⟨1, 1, 1, le_rfl, le_rfl, le_rfl⟩

def twoTestWorkers : Parallelization := ⟨1, 2, 1, le_rfl, by decide, le_rfl⟩

/-- With two workers the stage that runs the tests never ends. -/
theorem not_sameResults_manyTests :
    ¬ SameResults manyTests oneWorker twoTestWorkers (fun f => f.2) (fun f => f.2) := by
  rintro ⟨points, results, -, hruns⟩
  have hfits := (runs_iff.mp hruns).1.tests
  have hlength : manyTests.tests.length = 4294967298 := List.length_replicate
  rw [hlength] at hfits
  revert hfits
  unfold Fits twoTestWorkers
  decide

end Mull.Driver
