import Mull.Lib.Relational
import Mull.MutantPrinting
import Mull.Reporters

/-!
# The SQLite report

`SQLiteReporter` creates the tables and fills them in one transaction.  An error ends mull, and
what the transaction did is lost then.  There are two: a table exists already, or two tests have
the same identifier, which is unique in the table of the tests.  So a file with a report is
never written again: whatever is reported to it later, it keeps the report that came first
(`reports_keep_first`).
-/

namespace Mull.SQLiteReporter

open CString Relational Sources Mutators MutationPoints Driver Reporters

/-! ### The schema -/

/-- The tables of `CreateTables`. -/
inductive Table where
  | executionResult
  | test
  | mutationPoint
  | mutationResult
  | mutationPointDebug
  | config
deriving DecidableEq, Repr

/-- In the order of `CreateTables`. -/
def Table.all : List Table :=
  [.executionResult, .test, .mutationPoint, .mutationResult, .mutationPointDebug, .config]

/-- The column that is `UNIQUE`: in three tables it is `unique_id`. -/
def unique : Table → Option Nat
  | .test => some 1
  | .mutationPoint => some 11
  | .mutationPointDebug => some 7
  | _ => none

/-! ### The rows -/

/-- What is reported of a test.  Its name is its identifier, too. -/
structure Test where
  testName : Bytes
  location : SourceLocation
  executionResult : ExecutionResult
deriving DecidableEq, Repr

def Test.getTestDisplayName (test : Test) : Bytes := test.testName

def Test.getUniqueIdentifier (test : Test) : Bytes := test.testName

/-- A result of `Driver::Run`, and what its pointers lead to. -/
structure Result where
  tests : List Test
  mutationResults : List MutationResult
  mutationPoints : List MutationPoint
  testOf : Nat → Test
  locationOf : MutationPoint → SourceLocation
  moduleIdentifier : MutationPoint → Bytes
  functionName : MutationPoint → Bytes

/-- The value of the enumerator. -/
def statusCode : ExecutionStatus → Int
  | .invalid => 0
  | .failed => 1
  | .passed => 2
  | .timedout => 3
  | .crashed => 4
  | .abnormalExit => 5
  | .dryRun => 6
  | .failFast => 7

/-- `sqlite3_bind_text` without a length: the text ends at the first zero byte. -/
def bindText (s : Bytes) : Value := .text (cString s)

def executionResultRow (testId pointId : Bytes) (executionResult : ExecutionResult) : Row :=
  [bindText testId, bindText pointId, .int (statusCode executionResult.status),
    .int executionResult.runningTime, bindText (bytes executionResult.stdoutOutput),
    bindText (bytes executionResult.stderrOutput)]

def testRow (test : Test) : Row :=
  [bindText test.getTestDisplayName, bindText test.getUniqueIdentifier,
    bindText test.location.filePath, .int test.location.line]

namespace Result

variable (result : Result)

def testId (mutationResult : MutationResult) : Bytes :=
  (result.testOf mutationResult.test).getUniqueIdentifier

def mutationResultRow (mutationResult : MutationResult) : Row :=
  [bindText (result.testId mutationResult),
    bindText (bytes mutationResult.mutationPoint.uniqueIdentifier), .int mutationResult.distance]

def mutantExecutionResultRow (mutationResult : MutationResult) : Row :=
  executionResultRow (result.testId mutationResult)
    (bytes mutationResult.mutationPoint.uniqueIdentifier) mutationResult.result

def mutationPointRow (mutationPoint : MutationPoint) : Row :=
  let location := result.locationOf mutationPoint
  [bindText (bytes mutationPoint.mutator.uniqueIdentifier),
    bindText (result.moduleIdentifier mutationPoint),
    bindText (result.functionName mutationPoint),
    .int mutationPoint.address.functionIndex,
    .int mutationPoint.address.basicBlockIndex,
    .int mutationPoint.address.instructionIndex,
    bindText location.filePath,
    bindText location.directory,
    bindText (bytes mutationPoint.diagnostics),
    .int location.line,
    .int location.column,
    bindText (bytes mutationPoint.uniqueIdentifier)]

end Result

def testExecutionResultRow (test : Test) : Row :=
  executionResultRow test.getUniqueIdentifier [] test.executionResult

/-! ### The statements -/

/-- An error ends the process. -/
abbrev SQL := ExceptT Unit (StateM (Connection Table))

/-- A statement is executed, and nobody asks if it was. -/
def sqlite3_step (statement : Statement Table) : SQL Bool :=
  modifyGet fun connection =>
    match connection.execute unique statement with
    | some connection => (true, connection)
    | none => (false, connection)

def sqlite_step (statement : Statement Table) : SQL Unit := do
  if !(← sqlite3_step statement) then throw ()

def sqlite_exec (statements : List (Statement Table)) : SQL Unit := statements.forM sqlite_step

def createTables : SQL Unit := sqlite_exec (Table.all.map .createTable)

def reportTest (test : Test) : SQL Unit := do
  sqlite_step (.insert .executionResult (testExecutionResultRow test))
  sqlite_step (.insert .test (testRow test))

def reportMutationResult (result : Result) (mutationResult : MutationResult) : SQL Unit := do
  discard <| sqlite3_step (.insert .executionResult (result.mutantExecutionResultRow mutationResult))
  discard <| sqlite3_step (.insert .mutationResult (result.mutationResultRow mutationResult))

def reportMutationPoint (result : Result) (mutationPoint : MutationPoint) : SQL Unit :=
  discard <| sqlite3_step (.insertOrIgnore .mutationPoint (result.mutationPointRow mutationPoint))

def reportResults (result : Result) : SQL Unit := do
  createTables
  sqlite_exec [.beginTransaction]
  result.tests.forM reportTest
  result.mutationResults.forM (reportMutationResult result)
  result.mutationPoints.forM (reportMutationPoint result)
  sqlite_exec [.endTransaction]

/-- What is in the file when mull has ended, and whether it got as far as to say where the
    results can be found. -/
def report (database : Database Table) (result : Result) : Database Table × Bool :=
  let (outcome, connection) := (reportResults result).run.run ⟨database, none⟩
  (connection.stored, outcome.isOk)

/-- One run of mull after another, with the same file. -/
def reports (database : Database Table) : List Result → Database Table × List Bool
  | [] => (database, [])
  | result :: results =>
      let (database, reported) := report database result
      let (database, others) := reports database results
      (database, reported :: others)

/-! ### Runs -/

def run {α : Type} (sql : SQL α) (connection : Connection Table) :
    Except Unit α × Connection Table :=
  sql.run.run connection

section Run

variable {α β : Type} {connection connection' : Connection Table}

theorem run_pure (a : α) : run (pure a) connection = (.ok a, connection) := rfl

theorem run_bind_ok {sql : SQL α} {a : α} (f : α → SQL β)
    (h : run sql connection = (.ok a, connection')) :
    run (sql >>= f) connection = run (f a) connection' := by
  unfold run at h ⊢
  rw [ExceptT.run_bind, StateT.run_bind, h]
  rfl

theorem run_bind_error {sql : SQL α} (f : α → SQL β)
    (h : run sql connection = (.error (), connection')) :
    run (sql >>= f) connection = (.error (), connection') := by
  unfold run at h ⊢
  rw [ExceptT.run_bind, StateT.run_bind, h]
  rfl

theorem run_sqlite3_step (statement : Statement Table) :
    run (sqlite3_step statement) connection =
      match connection.execute unique statement with
      | some connection' => (.ok true, connection')
      | none => (.ok false, connection) := by
  have hrun : run (sqlite3_step statement) connection =
      ((fun step : Bool × Connection Table => (.ok step.1, step.2))
        (match connection.execute unique statement with
        | some connection' => (true, connection')
        | none => (false, connection))) := rfl
  rw [hrun]
  cases connection.execute unique statement <;> rfl

theorem run_sqlite_step_ok {statement : Statement Table}
    (h : connection.execute unique statement = some connection') :
    run (sqlite_step statement) connection = (.ok (), connection') := by
  have hstep := @run_sqlite3_step connection statement
  rw [h] at hstep
  exact run_bind_ok _ hstep

theorem run_sqlite_step_error {statement : Statement Table}
    (h : connection.execute unique statement = none) :
    run (sqlite_step statement) connection = (.error (), connection) := by
  have hstep := @run_sqlite3_step connection statement
  rw [h] at hstep
  exact run_bind_ok _ hstep

theorem run_discard_step {statement : Statement Table}
    (h : connection.execute unique statement = some connection') :
    run (discard (sqlite3_step statement)) connection = (.ok (), connection') := by
  have hstep := @run_sqlite3_step connection statement
  rw [h] at hstep
  exact run_bind_ok _ hstep

end Run

/-! ### Tables -/

/-- No table has been created. -/
def noTables : Database Table := fun _ => none

/-- All tables are there, and in four of them are rows. -/
def filled (executionResults tests mutationResults mutationPoints : List Row) : Database Table
  | .executionResult => some executionResults
  | .test => some tests
  | .mutationResult => some mutationResults
  | .mutationPoint => some mutationPoints
  | .mutationPointDebug => some []
  | .config => some []

theorem run_createTables :
    run createTables ⟨noTables, none⟩ = (.ok (), ⟨filled [] [] [] [], none⟩) := by
  have hcreated : filled [] [] [] [] =
      Table.all.foldl (fun database table => Function.update database table (some [])) noTables := by
    funext table
    cases table <;> rfl
  rw [hcreated]
  rfl

theorem run_createTables_error {database : Database Table}
    (h : (database .executionResult).isSome) :
    run createTables ⟨database, none⟩ = (.error (), ⟨database, none⟩) := by
  have hstep : (⟨database, none⟩ : Connection Table).execute unique
      (.createTable .executionResult) = none := by
    simp [Connection.execute, Connection.update, h]
  exact run_bind_error _ (run_sqlite_step_error hstep)

section Transaction

variable {stored : Database Table} {e t m p : List Row}

/-- A connection in the middle of the transaction. -/
def within (stored : Database Table) (e t m p : List Row) : Connection Table :=
  ⟨stored, some (filled e t m p)⟩

theorem execute_executionResult (row : Row) :
    (within stored e t m p).execute unique (.insert .executionResult row) =
      some (within stored (e ++ [row]) t m p) := by
  have hupdate : Function.update (filled e t m p) .executionResult (some (e ++ [row])) =
      filled (e ++ [row]) t m p := by
    funext table
    cases table <;> rfl
  unfold within
  rw [← hupdate]
  rfl

theorem execute_mutationResult (row : Row) :
    (within stored e t m p).execute unique (.insert .mutationResult row) =
      some (within stored e t (m ++ [row]) p) := by
  have hupdate : Function.update (filled e t m p) .mutationResult (some (m ++ [row])) =
      filled e t (m ++ [row]) p := by
    funext table
    cases table <;> rfl
  unfold within
  rw [← hupdate]
  rfl

theorem execute_test (row : Row) :
    (within stored e t m p).execute unique (.insert .test row) =
      (Relational.insert (fun row => row[1]?) t row).map fun t => within stored e t m p := by
  have hupdate : ∀ t', Function.update (filled e t m p) .test (some t') = filled e t' m p := by
    intro t'
    funext table
    cases table <;> rfl
  have hexecute : (within stored e t m p).execute unique (.insert .test row) =
      ((Relational.insert (fun row => row[1]?) t row).bind fun t' =>
        some (Function.update (filled e t m p) .test (some t'))).map fun database =>
          ⟨stored, some database⟩ := rfl
  rw [hexecute]
  cases Relational.insert (fun row => row[1]?) t row with
  | none => rfl
  | some t' =>
      rw [Option.bind_some, hupdate]
      rfl

theorem execute_mutationPoint (row : Row) :
    (within stored e t m p).execute unique (.insertOrIgnore .mutationPoint row) =
      some (within stored e t m (insertOrIgnore (fun row => row[11]?) p row)) := by
  have hupdate : Function.update (filled e t m p) .mutationPoint
      (some (insertOrIgnore (fun row => row[11]?) p row)) =
      filled e t m (insertOrIgnore (fun row => row[11]?) p row) := by
    funext table
    cases table <;> rfl
  unfold within
  rw [← hupdate]
  rfl

end Transaction

/-! ### Loops -/

section Loops

variable {stored : Database Table} (result : Result)

theorem run_reportTest {e t t' m p : List Row} {test : Test}
    (h : Relational.insert (fun row => row[1]?) t (testRow test) = some t') :
    run (reportTest test) (within stored e t m p) =
      (.ok (), within stored (e ++ [testExecutionResultRow test]) t' m p) := by
  refine (run_bind_ok _ (run_sqlite_step_ok (execute_executionResult _))).trans ?_
  refine run_sqlite_step_ok ?_
  rw [execute_test, h]
  rfl

theorem run_tests {e t t' m p : List Row} {tests : List Test}
    (h : insertAll (fun row => row[1]?) t (tests.map testRow) = some t') :
    run (tests.forM reportTest) (within stored e t m p) =
      (.ok (), within stored (e ++ tests.map testExecutionResultRow) t' m p) := by
  induction tests generalizing e t with
  | nil =>
      obtain rfl : t = t' := Option.some.inj h
      rw [List.map_nil, List.append_nil]
      rfl
  | cons test tests ih =>
      obtain ⟨rows, hrow, hrows⟩ := Option.bind_eq_some_iff.mp h
      refine (run_bind_ok _ (run_reportTest hrow)).trans ?_
      rw [ih hrows, List.map_cons, List.append_assoc, List.singleton_append]

/-- An error leaves the file as it was before the transaction. -/
theorem run_tests_error {e t m p : List Row} {tests : List Test}
    (h : insertAll (fun row => row[1]?) t (tests.map testRow) = none) :
    ∃ connection, run (tests.forM reportTest) (within stored e t m p) = (.error (), connection) ∧
      connection.stored = stored := by
  induction tests generalizing e t with
  | nil => cases h
  | cons test tests ih =>
      cases hrow : Relational.insert (fun row => row[1]?) t (testRow test) with
      | some rows =>
          obtain ⟨connection, hrun, hstored⟩ := @ih (e ++ [testExecutionResultRow test]) rows (by
            rw [List.map_cons, insertAll, List.foldlM_cons, hrow] at h
            exact h)
          exact ⟨connection, (run_bind_ok _ (run_reportTest hrow)).trans hrun, hstored⟩
      | none =>
          refine ⟨within stored (e ++ [testExecutionResultRow test]) t m p, ?_, rfl⟩
          refine run_bind_error _ ?_
          refine (run_bind_ok _ (run_sqlite_step_ok (execute_executionResult _))).trans ?_
          refine run_sqlite_step_error ?_
          rw [execute_test, hrow]
          rfl

theorem run_mutationResults {e t m p : List Row} (mutationResults : List MutationResult) :
    run (mutationResults.forM (reportMutationResult result)) (within stored e t m p) =
      (.ok (), within stored (e ++ mutationResults.map result.mutantExecutionResultRow) t
        (m ++ mutationResults.map result.mutationResultRow) p) := by
  induction mutationResults generalizing e m with
  | nil =>
      rw [List.map_nil, List.map_nil, List.append_nil, List.append_nil]
      rfl
  | cons mutationResult mutationResults ih =>
      have hfirst : run (reportMutationResult result mutationResult) (within stored e t m p) =
          (.ok (), within stored (e ++ [result.mutantExecutionResultRow mutationResult]) t
            (m ++ [result.mutationResultRow mutationResult]) p) :=
        (run_bind_ok _ (run_discard_step (execute_executionResult _))).trans
          (run_discard_step (execute_mutationResult _))
      refine (run_bind_ok _ hfirst).trans ?_
      rw [ih, List.map_cons, List.map_cons, List.append_assoc, List.append_assoc,
        List.singleton_append, List.singleton_append]

theorem run_mutationPoints {e t m p : List Row} (mutationPoints : List MutationPoint) :
    run (mutationPoints.forM (reportMutationPoint result)) (within stored e t m p) =
      (.ok (), within stored e t m (insertOrIgnoreAll (fun row => row[11]?) p
        (mutationPoints.map result.mutationPointRow))) := by
  induction mutationPoints generalizing p with
  | nil => rfl
  | cons mutationPoint mutationPoints ih =>
      exact (run_bind_ok _ (run_discard_step (execute_mutationPoint _))).trans ih

end Loops


/-! ### Reports -/

/-- The identifiers of the tests differ, as far as SQLite reads them. -/
def DistinctTests (tests : List Test) : Prop :=
  (tests.map fun test => cString test.getUniqueIdentifier).Nodup

instance (tests : List Test) : Decidable (DistinctTests tests) :=
  inferInstanceAs (Decidable (List.Nodup _))

/-- The tables with everything that a result has. -/
def Result.complete (result : Result) : Database Table :=
  filled
    (result.tests.map testExecutionResultRow ++
      result.mutationResults.map result.mutantExecutionResultRow)
    (result.tests.map testRow)
    (result.mutationResults.map result.mutationResultRow)
    (insertOrIgnoreAll (fun row => row[11]?) [] (result.mutationPoints.map result.mutationPointRow))

theorem insertAll_testRow (tests : List Test) :
    insertAll (fun row : Row => row[1]?) [] (tests.map testRow) =
      if DistinctTests tests then some (tests.map testRow) else none := by
  have hkeys : ((tests.map testRow).map fun row : Row => row[1]?).Nodup ↔ DistinctTests tests := by
    have hmap : ((tests.map testRow).map fun row : Row => row[1]?) =
        (tests.map fun test => cString test.getUniqueIdentifier).map fun s => some (.text s) := by
      rw [List.map_map, List.map_map]
      rfl
    rw [hmap, List.nodup_map_iff]
    · rfl
    · intro s s' h
      exact Value.text.inj (Option.some.inj h)
  have hall := @insertAll_eq Row _ _ (fun row => row[1]?) [] (tests.map testRow) List.nodup_nil
  rw [List.nil_append] at hall
  exact hall.trans (if_congr hkeys rfl rfl)

theorem run_beginTransaction :
    run (sqlite_exec [.beginTransaction]) ⟨filled [] [] [] [], none⟩ =
      (.ok (), within (filled [] [] [] []) [] [] [] []) := rfl

theorem report_noTables {result : Result} (h : DistinctTests result.tests) :
    report noTables result = (result.complete, true) := by
  have htests := insertAll_testRow result.tests
  rw [if_pos h] at htests
  have hrun : run (reportResults result) ⟨noTables, none⟩ = (.ok (), ⟨result.complete, none⟩) := by
    refine (run_bind_ok _ run_createTables).trans ?_
    refine (run_bind_ok _ run_beginTransaction).trans ?_
    refine (run_bind_ok _ (run_tests htests)).trans ?_
    refine (run_bind_ok _ (run_mutationResults result _)).trans ?_
    refine (run_bind_ok _ (run_mutationPoints result _)).trans ?_
    rfl
  unfold report
  unfold run at hrun
  rw [hrun]
  rfl

theorem report_noTables_error {result : Result} (h : ¬ DistinctTests result.tests) :
    report noTables result = (filled [] [] [] [], false) := by
  have htests := insertAll_testRow result.tests
  rw [if_neg h] at htests
  obtain ⟨connection, hloop, hstored⟩ :=
    @run_tests_error (filled [] [] [] []) [] [] [] [] result.tests htests
  have hrun : run (reportResults result) ⟨noTables, none⟩ = (.error (), connection) := by
    refine (run_bind_ok _ run_createTables).trans ?_
    refine (run_bind_ok _ run_beginTransaction).trans ?_
    exact run_bind_error _ hloop
  unfold report
  unfold run at hrun
  rw [hrun, ← hstored]
  rfl

/-- Mull says where the results are if and only if they are there. -/
theorem reported_iff (result : Result) :
    (report noTables result).2 = true ↔ DistinctTests result.tests := by
  by_cases h : DistinctTests result.tests
  · rw [report_noTables h]
    exact iff_of_true rfl h
  · rw [report_noTables_error h]
    exact iff_of_false Bool.false_ne_true h

/-- Whatever a file with tables has, it keeps. -/
theorem report_again {database : Database Table} (result : Result)
    (h : (database .executionResult).isSome) : report database result = (database, false) := by
  have hrun : run (reportResults result) ⟨database, none⟩ = (.error (), ⟨database, none⟩) :=
    run_bind_error _ (run_createTables_error h)
  unfold report
  unfold run at hrun
  rw [hrun]
  rfl

theorem reports_again {database : Database Table} (results : List Result)
    (h : (database .executionResult).isSome) :
    reports database results = (database, results.map fun _ => false) := by
  induction results with
  | nil => rfl
  | cons result results ih => simp only [reports, report_again result h, ih, List.map_cons]

/-- **A file has the report of the run that created it,** or none if two tests of that run have
    the same identifier; no later run adds to it. -/
theorem reports_keep_first (result : Result) (results : List Result) :
    reports noTables (result :: results) =
      (if DistinctTests result.tests then result.complete else filled [] [] [] [],
        decide (DistinctTests result.tests) :: results.map fun _ => false) := by
  by_cases h : DistinctTests result.tests
  · simp only [reports, report_noTables h, if_pos h, decide_eq_true h]
    rw [reports_again results rfl]
  · simp only [reports, report_noTables_error h, if_neg h, decide_eq_false h]
    rw [reports_again results rfl]


/-! ### Reading the results back -/

/-- `test_id` and `mutation_point_id` are the first columns of both tables. -/
def sameIds (row row' : Row) : Bool := row[0]? == row'[0]? && row[1]? == row'[1]?

/-- `mutation_result` joined with `execution_result` over the identifiers: these, the distance,
    the status, the duration and what was written to stdout and stderr. -/
def outcomes (database : Database Table) : List Row :=
  (join sameIds ((database .mutationResult).getD []) ((database .executionResult).getD [])).map
    fun (row, row') => row ++ row'.drop 2

/-- What there is to know of a result. -/
def Result.outcome (result : Result) (mutationResult : MutationResult) : Row :=
  [.text (result.testId mutationResult), .text (bytes mutationResult.mutationPoint.uniqueIdentifier),
    .int mutationResult.distance, .int (statusCode mutationResult.result.status),
    .int mutationResult.result.runningTime, .text (bytes mutationResult.result.stdoutOutput),
    .text (bytes mutationResult.result.stderrOutput)]

/-- The identifiers of a result, as SQLite reads them. -/
def Result.ids (result : Result) (mutationResult : MutationResult) : Bytes × Bytes :=
  (cString (result.testId mutationResult),
    cString (bytes mutationResult.mutationPoint.uniqueIdentifier))

/-- No text of a result ends early. -/
structure Result.NoZero (result : Result) (mutationResult : MutationResult) : Prop where
  testId : 0 ∉ result.testId mutationResult
  pointId : 0 ∉ bytes mutationResult.mutationPoint.uniqueIdentifier
  stdoutOutput : 0 ∉ bytes mutationResult.result.stdoutOutput
  stderrOutput : 0 ∉ bytes mutationResult.result.stderrOutput

section Outcomes

variable {result : Result}

theorem sameIds_rows (r r' : MutationResult) :
    sameIds (result.mutationResultRow r) (result.mutantExecutionResultRow r') =
      decide (result.ids r = result.ids r') := by
  rw [Bool.eq_iff_iff, decide_eq_true_eq]
  simp [sameIds, Result.mutationResultRow, Result.mutantExecutionResultRow, executionResultRow,
    bindText, Result.ids]

/-- The results of the tests themselves have no mutant. -/
theorem sameIds_test {r : MutationResult} (h : cString (bytes r.mutationPoint.uniqueIdentifier) ≠ [])
    (test : Test) :
    sameIds (result.mutationResultRow r) (testExecutionResultRow test) = false := by
  have hnil : cString [] = [] := rfl
  simp [sameIds, Result.mutationResultRow, testExecutionResultRow, executionResultRow, bindText,
    hnil, h]

theorem outcome_eq_iff (r : MutationResult) :
    result.mutationResultRow r ++ (result.mutantExecutionResultRow r).drop 2 = result.outcome r ↔
      result.NoZero r := by
  simp only [Result.mutationResultRow, Result.mutantExecutionResultRow, executionResultRow, bindText,
    Result.outcome, List.drop_succ_cons, List.drop_zero, List.cons_append, List.nil_append,
    List.cons.injEq, Value.text.injEq, cString_eq_self_iff, true_and, and_true]
  constructor
  · rintro ⟨htest, hpoint, hout, herr⟩
    exact ⟨htest, hpoint, hout, herr⟩
  · rintro ⟨htest, hpoint, hout, herr⟩
    exact ⟨htest, hpoint, hout, herr⟩

/-- **The results can be read back from the report** exactly if no test has two results with one
    mutant, by their identifiers, and no text ends early. -/
theorem outcomes_eq_iff (hdistinct : DistinctTests result.tests)
    (hpoints : ∀ r ∈ result.mutationResults, bytes r.mutationPoint.uniqueIdentifier ≠ []) :
    outcomes (report noTables result).1 = result.mutationResults.map result.outcome ↔
      (result.mutationResults.map result.ids).Nodup ∧
        ∀ r ∈ result.mutationResults, result.NoZero r := by
  have hon : ∀ r ∈ result.mutationResults, ∀ r' ∈ result.mutationResults,
      sameIds (result.mutationResultRow r) (result.mutantExecutionResultRow r') =
        decide (result.ids r = result.ids r') := fun r _ r' _ => sameIds_rows r r'
  have houtcomes : outcomes (report noTables result).1 =
      (join sameIds (result.mutationResults.map result.mutationResultRow)
        (result.tests.map testExecutionResultRow ++
          result.mutationResults.map result.mutantExecutionResultRow)).map
        fun (row, row') => row ++ row'.drop 2 := by
    rw [report_noTables hdistinct]
    rfl
  have hread : (result.mutationResults.map result.ids).Nodup →
      (∀ r ∈ result.mutationResults, ∀ row ∈ result.tests.map testExecutionResultRow,
        sameIds (result.mutationResultRow r) row = false) →
      outcomes (report noTables result).1 = result.mutationResults.map fun r =>
        result.mutationResultRow r ++ (result.mutantExecutionResultRow r).drop 2 := by
    intro hnodup hextra
    rw [houtcomes, join_eq hon hnodup hextra, List.map_map]
    rfl
  constructor
  · intro h
    have hlength := congrArg List.length h
    rw [houtcomes, List.length_map, List.length_map] at hlength
    obtain ⟨hnodup, hextra⟩ := nodup_of_length_join hon hlength
    rw [hread hnodup hextra] at h
    exact ⟨hnodup, fun r hr => (outcome_eq_iff r).mp (List.map_inj_left.mp h r hr)⟩
  · rintro ⟨hnodup, hzero⟩
    have hextra : ∀ r ∈ result.mutationResults, ∀ row ∈ result.tests.map testExecutionResultRow,
        sameIds (result.mutationResultRow r) row = false := by
      intro r hr row hrow
      obtain ⟨test, -, rfl⟩ := List.mem_map.mp hrow
      refine sameIds_test ?_ test
      rw [cString_eq_self_iff.mpr (hzero r hr).pointId]
      exact hpoints r hr
    rw [hread hnodup hextra]
    exact List.map_congr_left fun r hr => (outcome_eq_iff r).mpr (hzero r hr)

end Outcomes

/-! ### Reading the verdicts back -/

/-- The identifier of a mutant, and whether it has a status other than `Passed`. -/
def verdict (executionResults : List Row) (row : Row) : Option Value × Bool :=
  (row[11]?, executionResults.any fun row' =>
    row'[1]? == row[11]? && row'[2]? != some (.int (statusCode .passed)))

/-- The mutants of the report with their verdicts. -/
def verdicts (database : Database Table) : List (Option Value × Bool) :=
  ((database .mutationPoint).getD []).map (verdict ((database .executionResult).getD []))

section Verdicts

variable {result : Result}

theorem statusCode_injective {status status' : ExecutionStatus}
    (h : statusCode status = statusCode status') : status = status' := by
  cases status <;> cases status' <;> first | rfl | exact absurd h (by decide)

theorem mutationPointRow_id (point : MutationPoint) :
    (result.mutationPointRow point)[11]? =
      some (.text (cString (bytes point.uniqueIdentifier))) := rfl

theorem nodup_ids_iff {points : List MutationPoint}
    (hzero : ∀ point ∈ points, 0 ∉ bytes point.uniqueIdentifier) :
    ((points.map result.mutationPointRow).map fun row => row[11]?).Nodup ↔
      (points.map fun point => bytes point.uniqueIdentifier).Nodup := by
  have hmap : ((points.map result.mutationPointRow).map fun row => row[11]?) =
      (points.map fun point => bytes point.uniqueIdentifier).map fun s => some (.text s) := by
    rw [List.map_map, List.map_map]
    refine List.map_congr_left fun point hpoint => ?_
    rw [Function.comp_apply, mutationPointRow_id, cString_eq_self_iff.mpr (hzero point hpoint)]
    rfl
  rw [hmap, List.nodup_map_iff]
  intro s s' h
  exact Value.text.inj (Option.some.inj h)

/-- The rows with a mutant's identifier are its own results. -/
theorem verdict_eq {points : List MutationPoint} {results : List MutationResult} {tests : List Test}
    (hresults : ∀ r ∈ results, r.mutationPoint ∈ points)
    (hnodup : (points.map fun point => bytes point.uniqueIdentifier).Nodup)
    (hzero : ∀ point ∈ points, 0 ∉ bytes point.uniqueIdentifier) {point : MutationPoint}
    (hpoint : point ∈ points) (hid : bytes point.uniqueIdentifier ≠ []) :
    verdict (tests.map testExecutionResultRow ++ results.map result.mutantExecutionResultRow)
        (result.mutationPointRow point) =
      (some (.text (bytes point.uniqueIdentifier)), decide (point ∈ killedMutants results)) := by
  have hcut : ∀ point ∈ points, cString (bytes point.uniqueIdentifier) =
      bytes point.uniqueIdentifier := fun point hpoint => cString_eq_self_iff.mpr (hzero point hpoint)
  unfold verdict
  rw [mutationPointRow_id, hcut point hpoint, Prod.mk.injEq, and_iff_right rfl, Bool.eq_iff_iff,
    List.any_append, Bool.or_eq_true, List.any_map, List.any_map, List.any_eq_true, List.any_eq_true,
    decide_eq_true_eq, mem_killedMutants]
  constructor
  · rintro (⟨test, -, htest⟩ | ⟨r, hr, hrow⟩)
    · have hnil : cString [] = [] := rfl
      simp [testExecutionResultRow, executionResultRow, bindText, hnil, hid.symm] at htest
    · simp only [Function.comp_apply, Result.mutantExecutionResultRow, executionResultRow, bindText,
        Bool.and_eq_true, beq_iff_eq, bne_iff_ne] at hrow
      obtain ⟨hsame, hstatus⟩ := hrow
      have hid' := Value.text.inj (Option.some.inj hsame)
      rw [hcut _ (hresults r hr)] at hid'
      refine ⟨r, hr, List.inj_on_of_nodup_map hnodup (hresults r hr) hpoint hid', fun hpassed => ?_⟩
      rw [hpassed] at hstatus
      exact hstatus rfl
  · rintro ⟨r, hr, rfl, hstatus⟩
    refine .inr ⟨r, hr, ?_⟩
    simp only [Function.comp_apply, Result.mutantExecutionResultRow, executionResultRow, bindText,
      Bool.and_eq_true, beq_iff_eq, bne_iff_ne]
    refine ⟨by rw [hcut _ hpoint]; rfl, fun hcode => hstatus ?_⟩
    exact statusCode_injective (Value.int.inj (Option.some.inj hcode))

/-- **The report and the other reporters agree on the mutants and their verdicts** exactly if the
    identifiers of the mutants differ and none ends early. -/
theorem verdicts_eq_iff (hdistinct : DistinctTests result.tests)
    (hresults : ∀ r ∈ result.mutationResults, r.mutationPoint ∈ result.mutationPoints)
    (hpoints : ∀ point ∈ result.mutationPoints, bytes point.uniqueIdentifier ≠ []) :
    verdicts (report noTables result).1 =
      (result.mutationPoints.map fun point => (some (.text (bytes point.uniqueIdentifier)),
        decide (point ∈ killedMutants result.mutationResults))) ↔
      (result.mutationPoints.map fun point => bytes point.uniqueIdentifier).Nodup ∧
        ∀ point ∈ result.mutationPoints, 0 ∉ bytes point.uniqueIdentifier := by
  have hverdicts : verdicts (report noTables result).1 =
      (insertOrIgnoreAll (fun row => row[11]?) []
        (result.mutationPoints.map result.mutationPointRow)).map
        (verdict (result.tests.map testExecutionResultRow ++
          result.mutationResults.map result.mutantExecutionResultRow)) := by
    rw [report_noTables hdistinct]
    rfl
  rw [hverdicts]
  constructor
  · intro h
    have hlength := congrArg List.length h
    rw [List.length_map, List.length_map] at hlength
    have hall : insertOrIgnoreAll (fun row => row[11]?) []
        (result.mutationPoints.map result.mutationPointRow) =
        result.mutationPoints.map result.mutationPointRow :=
      (insertOrIgnoreAll_sublist [] _).eq_of_length (by rw [hlength]; simp)
    have hzero : ∀ point ∈ result.mutationPoints, 0 ∉ bytes point.uniqueIdentifier := by
      intro point hpoint
      rw [hall, List.map_map] at h
      have hid := congrArg Prod.fst (List.map_inj_left.mp h point hpoint)
      exact cString_eq_self_iff.mp (Value.text.inj (Option.some.inj hid))
    exact ⟨(nodup_ids_iff hzero).mp (insertOrIgnoreAll_eq_iff.mp hall), hzero⟩
  · rintro ⟨hnodup, hzero⟩
    rw [insertOrIgnoreAll_eq_iff.mpr ((nodup_ids_iff hzero).mpr hnodup), List.map_map]
    refine List.map_congr_left fun point hpoint => ?_
    exact verdict_eq hresults hnodup hzero hpoint (hpoints point hpoint)

end Verdicts

/-- A test that a mutant fails. -/
def oneResult : Result where
  tests := [⟨bytes "test", ⟨[], [], 0, 0⟩, { ExecutionResult.initial with status := .passed }⟩]
  mutationResults := [⟨{ ExecutionResult.initial with status := .failed }, comparisonPoint, 0, 0⟩]
  mutationPoints := [comparisonPoint]
  testOf _ := ⟨bytes "test", ⟨[], [], 0, 0⟩, { ExecutionResult.initial with status := .passed }⟩
  locationOf _ := ⟨[], [], 0, 0⟩
  moduleIdentifier _ := bytes "module.bc"
  functionName _ := bytes "is_zero"

theorem outcomes_eq_oneResult :
    outcomes (report noTables oneResult).1 = oneResult.mutationResults.map oneResult.outcome := by
  refine (outcomes_eq_iff (by decide) ?_).mpr ⟨by decide, ?_⟩
  · intro r hr
    obtain rfl := List.mem_singleton.mp hr
    decide +kernel
  · intro r hr
    obtain rfl := List.mem_singleton.mp hr
    constructor <;> decide +kernel

theorem verdicts_eq_oneResult :
    verdicts (report noTables oneResult).1 =
      oneResult.mutationPoints.map fun point => (some (.text (bytes point.uniqueIdentifier)),
        decide (point ∈ killedMutants oneResult.mutationResults)) := by
  refine (verdicts_eq_iff (by decide) (by simp [oneResult]) ?_).mpr ⟨by decide, ?_⟩
  · intro point hpoint
    obtain rfl := List.mem_singleton.mp hpoint
    decide +kernel
  · intro point hpoint
    obtain rfl := List.mem_singleton.mp hpoint
    decide +kernel

end Mull.SQLiteReporter
