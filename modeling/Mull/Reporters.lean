import Mathlib.Data.Finset.Card
import Mathlib.Data.List.TakeWhile
import Mull.MutantExecution

/-!
# Killed and survived mutants

The reporters call a mutant killed if one of its results has another status than `Passed`.
The results come from tests that were executed, but also stand in for tests that were not:
after a failed one with fail-fast, and for all tests in a dry run.

With fail-fast that changes no verdict (`failFast_keeps_verdicts`): the stand-ins follow a
real failure.  In a dry run there is none, and still every mutant is reported as killed
(`killed_exactly_iff`).
-/

namespace Mull.Reporters

open Mutators MutationPoints Driver

/-! ### Verdicts -/

/-- Both reporters have this function. -/
def mutantSurvived (status : ExecutionStatus) : Bool := status = .passed

/-- The loop over the results, in both reporters. -/
def killedMutants (results : List MutationResult) : Finset MutationPoint :=
  results.foldl (fun killed result =>
    if !mutantSurvived result.result.status then insert result.mutationPoint killed else killed) ∅

/-- What `IDEReporter` prints. -/
inductive Output where
  | info (text : String)
  | mutant (mutant : MutationPoint) (survived : Bool)
deriving DecidableEq, Repr

namespace IDEReporter

/-- `reportResults`, up to the score in percent. -/
def reportResults (showKilled : Bool) (points : List MutationPoint) (results : List MutationResult) :
    List Output :=
  if points = [] then [.info "No mutants found. Mutation score: infinitely high"]
  else
    let survivedMutantsCount := points.length - (killedMutants results).card
    let killedMutantsCount := (killedMutants results).card
    let killed := if showKilled && decide (killedMutantsCount > 0) then
        .info ("Killed mutants (" ++ toString killedMutantsCount ++ "/" ++
          toString points.length ++ "):") ::
        (points.filter (· ∈ killedMutants results)).map (.mutant · false)
      else []
    let survived := if survivedMutantsCount > 0 then
        .info ("Survived mutants (" ++ toString survivedMutantsCount ++ "/" ++
          toString points.length ++ "):") ::
        (points.filter (· ∉ killedMutants results)).map (.mutant · true)
      else [.info "All mutations have been killed"]
    killed ++ survived

/-- The mutants that are printed as survived. -/
def survivedMutants (outputs : List Output) : List MutationPoint :=
  outputs.filterMap fun
    | .mutant mutant true => some mutant
    | _ => none

end IDEReporter

namespace MutationTestingElementsReporter

/-- The status of a mutant in `createFiles`. -/
def status (killedMutants : Finset MutationPoint) (mutationPoint : MutationPoint) : String :=
  if mutationPoint ∉ killedMutants then "Survived" else "Killed"

/-- The mutants with their statuses, as the report lists them for each file. -/
def mutantsEntries (points : List MutationPoint) (results : List MutationResult) :
    List (MutationPoint × String) :=
  points.map fun mutationPoint => (mutationPoint, status (killedMutants results) mutationPoint)

end MutationTestingElementsReporter

theorem mem_killedMutants {results : List MutationResult} {point : MutationPoint} :
    point ∈ killedMutants results ↔
      ∃ result ∈ results, result.mutationPoint = point ∧ result.result.status ≠ .passed := by
  have hloop : ∀ (rest : List MutationResult) (killed : Finset MutationPoint),
      point ∈ rest.foldl (fun killed result =>
        if !mutantSurvived result.result.status then insert result.mutationPoint killed
        else killed) killed ↔
      point ∈ killed ∨
        ∃ result ∈ rest, result.mutationPoint = point ∧ result.result.status ≠ .passed := by
    intro rest
    induction rest with
    | nil => simp
    | cons result rest ih =>
        intro killed
        rw [List.foldl_cons, ih, List.exists_mem_cons_iff, ← or_assoc]
        refine or_congr_left ?_
        by_cases hpassed : result.result.status = .passed
        · simp [mutantSurvived, hpassed]
        · simp [mutantSurvived, hpassed, or_comm, eq_comm]
  rw [killedMutants, hloop results ∅, or_iff_right (Finset.notMem_empty point)]

/-- Killed are the points with a result that is not `Passed`. -/
theorem mem_killedMutants_flatMap {points : List MutationPoint}
    {task : MutationPoint → List MutationResult}
    (htask : ∀ point, ∀ result ∈ task point, result.mutationPoint = point) {point : MutationPoint} :
    point ∈ killedMutants (points.flatMap task) ↔
      point ∈ points ∧ ∃ result ∈ task point, result.result.status ≠ .passed := by
  rw [mem_killedMutants]
  constructor
  · rintro ⟨result, hresult, rfl, hfailed⟩
    obtain ⟨point, hpoint, hresult⟩ := List.mem_flatMap.mp hresult
    rw [htask point result hresult]
    exact ⟨hpoint, result, hresult, hfailed⟩
  · rintro ⟨hpoint, result, hresult, hfailed⟩
    exact ⟨result, List.mem_flatMap.mpr ⟨point, hpoint, hresult⟩, htask point result hresult, hfailed⟩

theorem runTests_mutationPoint {inputs : Inputs} (point : MutationPoint) (tests : List (Nat × Int)) (failed : Bool) :
    ∀ result ∈ runTests inputs point failed tests, result.mutationPoint = point := by
  induction tests generalizing failed with
  | nil => simp [runTests]
  | cons entry tests ih =>
      obtain ⟨test, distance⟩ := entry
      intro result hresult
      rw [runTests] at hresult
      split at hresult
      · rcases List.mem_cons.mp hresult with rfl | hresult
        · rfl
        · exact ih _ result hresult
      · rcases List.mem_cons.mp hresult with rfl | hresult
        · rfl
        · exact ih _ result hresult

/-- The results of a point are its own. -/
theorem executeMutant_mutationPoint {inputs : Inputs} (point : MutationPoint) :
    ∀ result ∈ executeMutant inputs point, result.mutationPoint = point :=
  runTests_mutationPoint point point.reachableTests false

/-! ### Partitions -/

section Partition

variable {points : List MutationPoint} {results : List MutationResult}

theorem killedMutants_subset (hresults : ∀ result ∈ results, result.mutationPoint ∈ points) :
    killedMutants results ⊆ points.toFinset := by
  intro point hpoint
  obtain ⟨result, hresult, rfl, -⟩ := mem_killedMutants.mp hpoint
  exact List.mem_toFinset.mpr (hresults result hresult)

/-- The number of survived mutants is never negative. -/
theorem card_killedMutants_le (hresults : ∀ result ∈ results, result.mutationPoint ∈ points) :
    (killedMutants results).card ≤ points.length :=
  (Finset.card_le_card (killedMutants_subset hresults)).trans (List.toFinset_card_le points)

theorem killedMutants_eq_of_card (hresults : ∀ result ∈ results, result.mutationPoint ∈ points)
    (hcard : points.length ≤ (killedMutants results).card) :
    killedMutants results = points.toFinset :=
  Finset.eq_of_subset_of_card_le (killedMutants_subset hresults)
    ((List.toFinset_card_le points).trans hcard)

/-- `IDEReporter` prints as survived what it does not take for killed. -/
theorem survivedMutants_reportResults
    (hresults : ∀ result ∈ results, result.mutationPoint ∈ points) (showKilled : Bool) :
    IDEReporter.survivedMutants (IDEReporter.reportResults showKilled points results) =
      points.filter (· ∉ killedMutants results) := by
  have hsurvived : ∀ mutants : List MutationPoint,
      IDEReporter.survivedMutants (mutants.map (.mutant · true)) = mutants := by
    intro mutants
    rw [IDEReporter.survivedMutants, List.filterMap_map]
    exact List.filterMap_some
  have hkilled : ∀ mutants : List MutationPoint,
      IDEReporter.survivedMutants (mutants.map (.mutant · false)) = [] := by
    intro mutants
    rw [IDEReporter.survivedMutants, List.filterMap_map]
    exact List.filterMap_eq_nil_iff.mpr fun _ _ => rfl
  unfold IDEReporter.reportResults
  by_cases hpoints : points = []
  · subst hpoints
    rfl
  · rw [if_neg hpoints]
    simp only
    rw [IDEReporter.survivedMutants, List.filterMap_append, ← IDEReporter.survivedMutants,
      ← IDEReporter.survivedMutants]
    have hfirst : ∀ header, IDEReporter.survivedMutants
        (if showKilled && decide ((killedMutants results).card > 0) then
          .info header :: (points.filter (· ∈ killedMutants results)).map (.mutant · false)
        else []) = [] := by
      intro header
      split
      · exact hkilled _
      · rfl
    rw [hfirst, List.nil_append]
    split
    · exact hsurvived _
    · -- as many killed mutants as points: all points are killed
      rename_i hnone
      have hall := killedMutants_eq_of_card hresults (by omega)
      symm
      exact List.filter_eq_nil_iff.mpr fun point hpoint => by simp [hall, hpoint]

/-- Every point is either killed or printed as survived. -/
theorem killed_survived_partition (hresults : ∀ result ∈ results, result.mutationPoint ∈ points)
    (showKilled : Bool) :
    let survived := (IDEReporter.survivedMutants
      (IDEReporter.reportResults showKilled points results)).toFinset
    Disjoint (killedMutants results) survived ∧
      killedMutants results ∪ survived = points.toFinset := by
  simp only [survivedMutants_reportResults hresults showKilled]
  constructor
  · rw [Finset.disjoint_left]
    intro point hmem hnot
    simp only [List.mem_toFinset, List.mem_filter, decide_eq_true_eq] at hnot
    exact hnot.2 hmem
  · ext point
    simp only [Finset.mem_union, List.mem_toFinset, List.mem_filter, decide_eq_true_eq]
    constructor
    · rintro (hmem | ⟨hpoint, -⟩)
      · exact List.mem_toFinset.mp (killedMutants_subset hresults hmem)
      · exact hpoint
    · intro hpoint
      by_cases hmem : point ∈ killedMutants results
      · exact .inl hmem
      · exact .inr ⟨hpoint, hmem⟩

/-- The entries in the report of the points say which were killed. -/
theorem mutantsEntries_status {entry : MutationPoint × String}
    (h : entry ∈ MutationTestingElementsReporter.mutantsEntries points results) :
    entry.2 = "Killed" ∧ entry.1 ∈ killedMutants results ∨
      entry.2 = "Survived" ∧ entry.1 ∉ killedMutants results := by
  obtain ⟨point, -, rfl⟩ := List.mem_map.mp h
  by_cases hmem : point ∈ killedMutants results
  · exact .inl ⟨by simp [MutationTestingElementsReporter.status, hmem], hmem⟩
  · exact .inr ⟨by simp [MutationTestingElementsReporter.status, hmem], hmem⟩

end Partition

/-! ### Fail-fast -/

section FailFast

variable (inputs : Inputs)

/-- The same, with fail-fast on or off. -/
def withFailFast (failFastEnabled : Bool) : Inputs := { inputs with failFastEnabled }

/-- The results of a task for its points. -/
def resultsOf (failFastEnabled : Bool) (points : List MutationPoint) : List MutationResult :=
  points.flatMap (executeMutant (withFailFast inputs failFastEnabled))

/-- A stand-in for a test that was not executed. -/
def skipped (result : MutationResult) : MutationResult :=
  { result with result := { ExecutionResult.initial with status := .failFast } }

/-- The results up to the first one that is not `Passed`, and stand-ins for the others. -/
def untilFailure (results : List MutationResult) : List MutationResult :=
  results.takeWhile (·.result.status = .passed) ++
    (results.dropWhile (·.result.status = .passed)).take 1 ++
    ((results.dropWhile (·.result.status = .passed)).drop 1).map skipped

/-- With fail-fast and without it there are the same results, up to stand-ins after a
    failure, and the reporters come to the same verdicts. -/
structure KeepsVerdicts (points : List MutationPoint) : Prop where
  results : ∀ failFastEnabled, (resultsOf inputs failFastEnabled points).map
      (fun result => (result.mutationPoint, result.test, result.distance)) =
    points.flatMap fun point => point.reachableTests.map fun (test, distance) =>
      (point, test, distance)
  fillers : ∀ point ∈ points, executeMutant (withFailFast inputs true) point =
    untilFailure (executeMutant (withFailFast inputs false) point)
  killed : killedMutants (resultsOf inputs true points) =
    killedMutants (resultsOf inputs false points)
  count : ∀ failFastEnabled,
    (killedMutants (resultsOf inputs failFastEnabled points)).card ≤ points.length
  survived : ∀ showKilled, IDEReporter.survivedMutants
      (IDEReporter.reportResults showKilled points (resultsOf inputs true points)) =
    IDEReporter.survivedMutants
      (IDEReporter.reportResults showKilled points (resultsOf inputs false points))
  entries : MutationTestingElementsReporter.mutantsEntries points (resultsOf inputs true points) =
    MutationTestingElementsReporter.mutantsEntries points (resultsOf inputs false points)
  partition : ∀ showKilled failFastEnabled,
    let killed := killedMutants (resultsOf inputs failFastEnabled points)
    let survived := (IDEReporter.survivedMutants (IDEReporter.reportResults showKilled points
      (resultsOf inputs failFastEnabled points))).toFinset
    Disjoint killed survived ∧ killed ∪ survived = points.toFinset
  statuses : ∀ failFastEnabled, ∀ entry ∈ MutationTestingElementsReporter.mutantsEntries points
      (resultsOf inputs failFastEnabled points),
    entry.2 = "Killed" ∧ entry.1 ∈ killedMutants (resultsOf inputs failFastEnabled points) ∨
    entry.2 = "Survived" ∧ entry.1 ∉ killedMutants (resultsOf inputs failFastEnabled points)

variable {inputs}

theorem runTests_slow (point : MutationPoint) (tests : List (Nat × Int)) (failed : Bool) :
    runTests (withFailFast inputs false) point failed tests =
      tests.map fun (test, distance) => ⟨inputs.mutantResult point test, point, distance, test⟩ := by
  induction tests generalizing failed with
  | nil => rfl
  | cons entry tests ih =>
      obtain ⟨test, distance⟩ := entry
      rw [runTests, List.map_cons, ← ih]
      rfl

/-- After a failure there are stand-ins only. -/
theorem runTests_failed (point : MutationPoint) (tests : List (Nat × Int)) :
    runTests (withFailFast inputs true) point true tests =
      (runTests (withFailFast inputs false) point true tests).map skipped := by
  induction tests with
  | nil => rfl
  | cons entry tests ih =>
      obtain ⟨test, distance⟩ := entry
      have hslow : runTests (withFailFast inputs false) point true ((test, distance) :: tests) =
          ⟨inputs.mutantResult point test, point, distance, test⟩ ::
            runTests (withFailFast inputs false) point true tests := rfl
      rw [hslow, List.map_cons, ← ih]
      rfl

/-- The loop with fail-fast, up to the first failure. -/
theorem runTests_fast (point : MutationPoint) (tests : List (Nat × Int)) :
    runTests (withFailFast inputs true) point false tests =
      untilFailure (runTests (withFailFast inputs false) point false tests) := by
  induction tests with
  | nil => rfl
  | cons entry tests ih =>
      obtain ⟨test, distance⟩ := entry
      by_cases hpassed : (inputs.mutantResult point test).status = .passed
      · have hfast : runTests (withFailFast inputs true) point false ((test, distance) :: tests) =
            ⟨inputs.mutantResult point test, point, distance, test⟩ ::
              runTests (withFailFast inputs true) point false tests := by
          simp [runTests, withFailFast, hpassed]
        have hslow : runTests (withFailFast inputs false) point false ((test, distance) :: tests) =
            ⟨inputs.mutantResult point test, point, distance, test⟩ ::
              runTests (withFailFast inputs false) point false tests := by
          simp [runTests, withFailFast, hpassed]
        rw [hfast, hslow, ih]
        simp [untilFailure, hpassed]
      · have hfast : runTests (withFailFast inputs true) point false ((test, distance) :: tests) =
            ⟨inputs.mutantResult point test, point, distance, test⟩ ::
              runTests (withFailFast inputs true) point true tests := by
          simp [runTests, withFailFast, hpassed]
        have hslow : runTests (withFailFast inputs false) point false ((test, distance) :: tests) =
            ⟨inputs.mutantResult point test, point, distance, test⟩ ::
              runTests (withFailFast inputs false) point true tests := by
          simp [runTests, withFailFast, hpassed]
        rw [hfast, hslow, runTests_failed]
        simp [untilFailure, hpassed]

/-- The stand-ins are for the same points, tests and distances. -/
theorem map_key_untilFailure (results : List MutationResult) :
    (untilFailure results).map (fun result => (result.mutationPoint, result.test, result.distance)) =
      results.map fun result => (result.mutationPoint, result.test, result.distance) := by
  have hsplit := @List.takeWhile_append_dropWhile _ (·.result.status = .passed) results
  rw [untilFailure, List.map_append, List.map_map]
  conv_rhs => rw [← hsplit,
    ← List.take_append_drop 1 (results.dropWhile (·.result.status = .passed)), ← List.append_assoc,
    List.map_append]
  rfl

/-- There are stand-ins only where there is a failure. -/
theorem exists_failed_untilFailure_iff {results : List MutationResult} :
    (∃ result ∈ untilFailure results, result.result.status ≠ .passed) ↔
      ∃ result ∈ results, result.result.status ≠ .passed := by
  constructor
  · rintro ⟨result, hresult, hfailed⟩
    by_contra hnone
    push Not at hnone
    have hdrop : results.dropWhile (·.result.status = .passed) = [] :=
      List.dropWhile_eq_nil_iff.mpr fun result hresult => by simpa using hnone result hresult
    have htake : results.takeWhile (·.result.status = .passed) = results :=
      List.takeWhile_eq_self_iff.mpr fun result hresult => by simpa using hnone result hresult
    rw [untilFailure, hdrop, htake] at hresult
    exact hfailed (hnone result (by simpa using hresult))
  · rintro ⟨result, hresult, hfailed⟩
    have hdrop : results.dropWhile (·.result.status = .passed) ≠ [] := fun hnil =>
      hfailed (by simpa using List.dropWhile_eq_nil_iff.mp hnil result hresult)
    -- the first result that is dropped is a failure
    have hfirst := List.head_dropWhile_not (fun result : MutationResult =>
      decide (result.result.status = .passed)) hdrop
    refine ⟨_, List.mem_append_left _ (List.mem_append_right _ ?_), by simpa using hfirst⟩
    rw [List.take_one, List.head?_eq_some_head hdrop]
    exact List.mem_singleton_self _

theorem executeMutant_key (failFastEnabled : Bool) (point : MutationPoint) :
    (executeMutant (withFailFast inputs failFastEnabled) point).map
        (fun result => (result.mutationPoint, result.test, result.distance)) =
      point.reachableTests.map fun (test, distance) => (point, test, distance) := by
  have hslow : (executeMutant (withFailFast inputs false) point).map
      (fun result => (result.mutationPoint, result.test, result.distance)) =
      point.reachableTests.map fun (test, distance) => (point, test, distance) := by
    rw [executeMutant, runTests_slow, List.map_map]
    rfl
  cases failFastEnabled with
  | false => exact hslow
  | true => rw [executeMutant, runTests_fast, map_key_untilFailure, ← hslow, executeMutant]

theorem killedMutants_failFast (points : List MutationPoint) :
    killedMutants (resultsOf inputs true points) =
      killedMutants (resultsOf inputs false points) := by
  ext point
  rw [resultsOf, resultsOf, mem_killedMutants_flatMap executeMutant_mutationPoint,
    mem_killedMutants_flatMap executeMutant_mutationPoint, executeMutant, executeMutant,
    runTests_fast, exists_failed_untilFailure_iff]

/-- **Fail-fast does not change which mutants are killed.**  For every list of points, with
    whatever tests and outcomes. -/
theorem failFast_keeps_verdicts (inputs : Inputs) (points : List MutationPoint) :
    KeepsVerdicts inputs points := by
  have hresults : ∀ failFastEnabled, ∀ result ∈ resultsOf inputs failFastEnabled points,
      result.mutationPoint ∈ points := by
    intro failFastEnabled result hresult
    obtain ⟨point, hpoint, hresult⟩ := List.mem_flatMap.mp hresult
    rwa [executeMutant_mutationPoint point result hresult]
  have hkilled := @killedMutants_failFast inputs points
  constructor
  case results =>
    intro failFastEnabled
    rw [resultsOf, List.map_flatMap]
    exact List.flatMap_congr fun point _ => executeMutant_key failFastEnabled point
  case fillers => exact fun point _ => runTests_fast point _
  case killed => exact hkilled
  case count => exact fun failFastEnabled => card_killedMutants_le (hresults failFastEnabled)
  case survived =>
    intro showKilled
    rw [survivedMutants_reportResults (hresults true), survivedMutants_reportResults (hresults false),
      hkilled]
  case entries =>
    rw [MutationTestingElementsReporter.mutantsEntries, hkilled]
    rfl
  case partition =>
    exact fun showKilled failFastEnabled =>
      killed_survived_partition (hresults failFastEnabled) showKilled
  case statuses => exact fun failFastEnabled entry hentry => mutantsEntries_status hentry

end FailFast

/-! ### What was executed -/

section Executed

variable (inputs : Inputs)

/-- The tests that `MutantExecutionTask` passes to the sandbox, with their results. -/
def executedTests (point : MutationPoint) : Bool → List (Nat × Int) → List (Nat × ExecutionResult)
  | _, [] => []
  | atLeastOneTestFailed, (test, _) :: reachableTests =>
      if inputs.failFastEnabled && atLeastOneTestFailed then
        executedTests point atLeastOneTestFailed reachableTests
      else
        (test, inputs.mutantResult point test) ::
          executedTests point
            (atLeastOneTestFailed || (inputs.mutantResult point test).status ≠ .passed)
            reachableTests

/-- The tests that are executed against a mutant; in a dry run there are none. -/
def executed (point : MutationPoint) : List (Nat × ExecutionResult) :=
  if inputs.dryRunEnabled then [] else executedTests inputs point false point.reachableTests

/-- Killed are those mutants that a test was executed against and did not pass. -/
def KilledExactly (points : List MutationPoint) (results : List MutationResult) : Prop :=
  ∀ point, point ∈ killedMutants results ↔
    point ∈ points ∧ ∃ run ∈ executed inputs point, run.2.status ≠ .passed

variable {inputs}

/-- Every execution is among the results, and a failure among the results was executed,
    unless one came before. -/
theorem exists_failed_runTests_iff (point : MutationPoint) (tests : List (Nat × Int))
    (failed : Bool) : (failed = true ∨
      ∃ result ∈ runTests inputs point failed tests, result.result.status ≠ .passed) ↔
    (failed = true ∨ ∃ run ∈ executedTests inputs point failed tests, run.2.status ≠ .passed) := by
  induction tests generalizing failed with
  | nil => simp [runTests, executedTests]
  | cons entry tests ih =>
      obtain ⟨test, distance⟩ := entry
      cases failed with
      | true => simp
      | false =>
          have hih := ih (decide ((inputs.mutantResult point test).status ≠ .passed))
          simp only [decide_eq_true_eq] at hih
          simpa [runTests, executedTests] using hih

/-- In a dry run every mutant with a test counts as killed. -/
theorem exists_failed_dryRunMutant_iff (point : MutationPoint) :
    (∃ result ∈ dryRunMutant inputs point, result.result.status ≠ .passed) ↔
      point.reachableTests ≠ [] := by
  constructor
  · rintro ⟨result, hresult, -⟩ hnone
    simp [dryRunMutant, hnone] at hresult
  · intro hsome
    obtain ⟨⟨test, distance⟩, htest⟩ := List.exists_mem_of_ne_nil _ hsome
    exact ⟨_, List.mem_map_of_mem htest, by simp⟩

theorem results_of_runsMutations {parallelization : Parallelization} {addressOf : FunctionId → Nat}
    {points : List MutationPoint} {results : List MutationResult}
    (h : RunsMutations inputs parallelization addressOf points results) :
    results = points.flatMap
      (if inputs.dryRunEnabled then dryRunMutant inputs else executeMutant inputs) := by
  unfold RunsMutations at h
  split at h
  · rename_i hpoints
    rw [h, hpoints]
    rfl
  · split at h
    · rename_i hdry
      rw [if_pos hdry]
      exact ((TaskExecutor.executes_iff _ _ parallelization.workers_pos _).mp h).2
    · rename_i hdry
      rw [if_neg hdry]
      exact ((TaskExecutor.executes_iff _ _ parallelization.mutantExecutionWorkers_pos _).mp h.2).2

end Executed

/-- **The killed mutants are those that an executed test did not pass on, except in a dry
    run,** where every mutant that a test reaches is reported as killed and no test is
    executed. -/
theorem killed_exactly_iff {inputs : Inputs} {parallelization : Parallelization}
    {addressOf : FunctionId → Nat} {points : List MutationPoint} {results : List MutationResult}
    (h : RunsMutations inputs parallelization addressOf points results) :
    KilledExactly inputs points results ↔
      inputs.dryRunEnabled = false ∨ ∀ point ∈ points, point.reachableTests = [] := by
  rw [results_of_runsMutations h]
  unfold KilledExactly
  cases hdry : inputs.dryRunEnabled with
  | true =>
      have htask : ∀ point, ∀ result ∈ dryRunMutant inputs point, result.mutationPoint = point := by
        intro point result hresult
        obtain ⟨entry, -, rfl⟩ := List.mem_map.mp hresult
        rfl
      simp only [if_true, mem_killedMutants_flatMap htask, exists_failed_dryRunMutant_iff, executed,
        hdry, List.not_mem_nil, false_and, exists_false, and_false, iff_false, not_and, not_not,
        Bool.true_eq_false, false_or]
  | false =>
      have hexecuted : ∀ point, (∃ result ∈ executeMutant inputs point,
          result.result.status ≠ .passed) ↔ ∃ run ∈ executed inputs point, run.2.status ≠ .passed := by
        intro point
        simpa [executeMutant, executed, hdry] using
          @exists_failed_runTests_iff inputs point point.reachableTests false
      simp only [Bool.false_eq_true, if_false, mem_killedMutants_flatMap executeMutant_mutationPoint,
        hexecuted, implies_true, true_or]

/-- A program with one function and one test, which no mutant fails. -/
def oneTest (dryRunEnabled : Bool) : Inputs where
  program := ⟨[MutantExecution.comparisons ["is_zero"]], List.nodup_singleton _⟩
  functions := [⟨none, none⟩, ⟨some (0, 0), none⟩]
  phony := manyTests.phony
  tests := [⟨0, some (0, 0)⟩]
  originalResult _ := { ExecutionResult.initial with status := .passed }
  events _ := [.enter 1, .leave 1]
  inRange _ _ := by simp [DynamicCallTree.InRange, DynamicCallTree.Event.functionIndex]
  leaves _ _ := by simp [DynamicCallTree.LeavesNonEmpty]
  maxDistance := 128
  functionFilters := []
  instructionFilters := []
  mutationFilters := []
  irm mutation _ := mutation = .cmp .icmpEq .icmpNe
  mutators := [negateConditionMutator]
  mutation := MutantExecution.negateCondition
  dryRunEnabled := dryRunEnabled
  failFastEnabled := false
  mutantResult _ _ := { ExecutionResult.initial with status := .passed }
  valid := manyTests.valid

/-- The point at the comparison of the function, which the test reaches. -/
def comparisonPoint : MutationPoint :=
  { MutationPoint.create negateConditionMutator (some (.cmp .icmpEq .icmpNe)) ⟨0, 0, 0⟩
      (.compute (.icmp 32) [.argument 0, .constant (.int 32 0)] 0) 0
      (MutantExecution.comparisons ["is_zero"]) with
    reachableTests := [(0, 0)] }

theorem runsMutations_oneTest (dryRunEnabled : Bool) :
    RunsMutations (oneTest dryRunEnabled) oneWorker (fun f => f.2) [comparisonPoint]
      ([comparisonPoint].flatMap
        (if dryRunEnabled then dryRunMutant (oneTest dryRunEnabled)
          else executeMutant (oneTest dryRunEnabled))) := by
  refine (runsMutations_iff (.inl rfl)).mpr ⟨?_, rfl⟩
  cases dryRunEnabled <;> exact .inl rfl

theorem killed_exactly_oneTest :
    KilledExactly (oneTest false) [comparisonPoint] (executeMutant (oneTest false) comparisonPoint) :=
  (killed_exactly_iff (runsMutations_oneTest false)).mpr (.inl rfl)

/-- In a dry run the mutant is reported as killed, and no test was executed on it. -/
theorem not_killed_exactly_dryRun :
    RunsMutations (oneTest true) oneWorker (fun f => f.2) [comparisonPoint]
      (dryRunMutant (oneTest true) comparisonPoint) ∧
    comparisonPoint ∈ killedMutants (dryRunMutant (oneTest true) comparisonPoint) ∧
    executed (oneTest true) comparisonPoint = [] ∧
    ¬ KilledExactly (oneTest true) [comparisonPoint]
      (dryRunMutant (oneTest true) comparisonPoint) := by
  have hkilled : comparisonPoint ∈ killedMutants (dryRunMutant (oneTest true) comparisonPoint) :=
    mem_killedMutants.mpr ⟨_, List.mem_singleton_self _, rfl, by simp⟩
  refine ⟨runsMutations_oneTest true, hkilled, rfl, fun h => ?_⟩
  obtain ⟨-, run, hrun, -⟩ := (h comparisonPoint).mp hkilled
  cases hrun

end Mull.Reporters
