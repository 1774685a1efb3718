import Mull.SQLiteReporter

/-!
# Finding simple and custom tests

`SimpleTestFinder` takes every function whose name contains `test_`, `CustomTestFinder` every
definition of a function that a custom test is defined for.  The name of a test is its
identifier, and nothing makes it a different one when a second test has it.  The SQLite report
of such tests is lost.  A simple test has its name twice as soon as a second file declares the
function (`simple_report_iff`), and all custom tests of `mull-cxx` have one name, `main`
(`custom_report_iff`).
-/

namespace Mull.TestFinders

open IR MutationPoints

/-- The body is the position of its file in the program and its position there. -/
structure Test where
  testName : String
  programName : String
  driverFunctionName : String
  arguments : List String
  testBody : Nat × Nat
deriving DecidableEq, Repr

/-- A loop over the functions of all files. -/
def forFunctions (program : Program) (f : Nat × Nat → Function → List Test) : List Test :=
  program.bitcode.zipIdx.flatMap fun (bitcode, b) =>
    bitcode.module.functions.zipIdx.flatMap fun (function, i) => f (b, i) function

namespace SimpleTestFinder

def isTestName (name : String) : Prop := "test_".toList <:+: name.toList

instance (name : String) : Decidable (isTestName name) :=
  inferInstanceAs (Decidable (_ <:+: _))

/-- It does not ask whether the function is defined. -/
def findTests (program : Program) : List Test :=
  forFunctions program fun body function =>
    if isTestName function.name then [⟨function.name, "mull", function.name, [], body⟩] else []

end SimpleTestFinder

structure CustomTestDefinition where
  testName : String
  methodName : String
  programName : String
  callArguments : List String
deriving DecidableEq, Repr

namespace CustomTestFinder

/-- The definitions for each method, in their order. -/
def testMapping (definitions : List CustomTestDefinition) : String → List CustomTestDefinition :=
  definitions.foldl (fun mapping definition => Function.update mapping definition.methodName
    (mapping definition.methodName ++ [definition])) fun _ => []

/-- Whatever the method is, the test runs `main`. -/
def makeTest (body : Nat × Nat) (definition : CustomTestDefinition) : Test :=
  ⟨definition.testName, if definition.programName = "" then "mull" else definition.programName, "main",
    definition.callArguments, body⟩

def findTests (definitions : List CustomTestDefinition) (program : Program) : List Test :=
  forFunctions program fun body function =>
    if function.isDeclaration then []
    else (testMapping definitions function.name).map (makeTest body)

end CustomTestFinder

/-- The custom tests that `mull-cxx` configures. -/
def customTests : List CustomTestDefinition :=
  [⟨"main", "main", "mull", []⟩, ⟨"main", "_main", "mull", []⟩]

/-! ### Names -/

section Names

variable {program : Program}

theorem testNames_forFunctions {f : Nat × Nat → Function → List Test} {names : Function → List String}
    (h : ∀ body function, (f body function).map Test.testName = names function) :
    (forFunctions program f).map Test.testName =
      program.bitcode.flatMap fun bitcode => bitcode.module.functions.flatMap names := by
  have hinner : ∀ (functions : List Function) (b : Nat), (functions.zipIdx.flatMap fun (function, i) =>
      f (b, i) function).map Test.testName = functions.flatMap names := by
    intro functions b
    calc (functions.zipIdx.flatMap fun (function, i) => f (b, i) function).map Test.testName
        = functions.zipIdx.flatMap fun entry => names entry.1 := by
          rw [List.map_flatMap]
          exact List.flatMap_congr fun entry _ => h _ _
      _ = (functions.zipIdx.map Prod.fst).flatMap names := (List.flatMap_map ..).symm
      _ = functions.flatMap names := by rw [List.zipIdx_map_fst]
  calc (forFunctions program f).map Test.testName
      = program.bitcode.zipIdx.flatMap fun entry => entry.1.module.functions.flatMap names := by
        rw [forFunctions, List.map_flatMap]
        exact List.flatMap_congr fun entry _ => hinner _ _
    _ = (program.bitcode.zipIdx.map Prod.fst).flatMap fun bitcode =>
          bitcode.module.functions.flatMap names := by rw [List.flatMap_map]
    _ = program.bitcode.flatMap fun bitcode => bitcode.module.functions.flatMap names := by
        rw [List.zipIdx_map_fst]

end Names

/-! ### Reports -/

section Reports

variable {program : Program} {result : SQLiteReporter.Result}

/-- What is reported are the tests of a list. -/
def Reports (result : SQLiteReporter.Result) (tests : List Test) : Prop :=
  result.tests.map SQLiteReporter.Test.testName = tests.map fun test => Sources.bytes test.testName

/-- No name ends early. -/
def NoZeroNames (program : Program) : Prop :=
  ∀ bitcode ∈ program.bitcode, ∀ function ∈ bitcode.module.functions, 0 ∉ Sources.bytes function.name

theorem distinctTests_iff {tests : List Test} (h : Reports result tests)
    (hzero : ∀ test ∈ tests, 0 ∉ Sources.bytes test.testName) :
    SQLiteReporter.DistinctTests result.tests ↔ (tests.map Test.testName).Nodup := by
  have hids : result.tests.map (fun test => CString.cString test.getUniqueIdentifier) =
      (tests.map Test.testName).map Sources.bytes := by
    calc result.tests.map (fun test => CString.cString test.getUniqueIdentifier)
        = (result.tests.map SQLiteReporter.Test.testName).map CString.cString := by
          rw [List.map_map]
          rfl
      _ = tests.map fun test => Sources.bytes test.testName := by
          rw [h, List.map_map]
          exact List.map_congr_left fun test htest =>
            CString.cString_eq_self_iff.mpr (hzero test htest)
      _ = (tests.map Test.testName).map Sources.bytes := by
          rw [List.map_map]
          rfl
  rw [SQLiteReporter.DistinctTests, hids, List.nodup_map_iff Sources.bytes_injective]

theorem mem_forFunctions {f : Nat × Nat → Function → List Test} {test : Test}
    (h : test ∈ forFunctions program f) :
    ∃ bitcode ∈ program.bitcode, ∃ function ∈ bitcode.module.functions, ∃ body,
      test ∈ f body function := by
  obtain ⟨⟨bitcode, b⟩, hbitcode, h⟩ := List.mem_flatMap.mp h
  obtain ⟨⟨function, i⟩, hfunction, h⟩ := List.mem_flatMap.mp h
  exact ⟨bitcode, List.fst_mem_of_mem_zipIdx hbitcode, function,
    List.fst_mem_of_mem_zipIdx hfunction, (b, i), h⟩

theorem testNames_simple (program : Program) :
    (SimpleTestFinder.findTests program).map Test.testName =
      program.bitcode.flatMap fun bitcode =>
        (bitcode.module.functions.map Function.name).filter (SimpleTestFinder.isTestName ·) := by
  have hfunctions : ∀ functions : List Function, (functions.flatMap fun function =>
      if SimpleTestFinder.isTestName function.name then [function.name] else []) =
      (functions.map Function.name).filter (SimpleTestFinder.isTestName ·) := by
    intro functions
    induction functions with
    | nil => rfl
    | cons function functions ih =>
        rw [List.flatMap_cons, ih, List.map_cons, List.filter_cons]
        by_cases htest : SimpleTestFinder.isTestName function.name
        · rw [if_pos htest, if_pos (decide_eq_true htest), List.singleton_append]
        · rw [if_neg htest, if_neg (by simp [htest]), List.nil_append]
  refine (testNames_forFunctions fun body function => ?_).trans
    (List.flatMap_congr fun bitcode _ => hfunctions _)
  split <;> rfl

/-- **Simple tests are reported exactly if no two files have a function with the name of a test,**
    be it defined there or only declared. -/
theorem simple_report_iff (hresult : Reports result (SimpleTestFinder.findTests program))
    (hnames : ∀ bitcode ∈ program.bitcode, bitcode.module.names.Nodup) (hzero : NoZeroNames program) :
    (SQLiteReporter.report SQLiteReporter.noTables result).2 = true ↔
      program.bitcode.Pairwise fun bitcode bitcode' => ∀ function ∈ bitcode.module.functions,
        SimpleTestFinder.isTestName function.name →
          ∀ function' ∈ bitcode'.module.functions, function.name ≠ function'.name := by
  have hzero' : ∀ test ∈ SimpleTestFinder.findTests program, 0 ∉ Sources.bytes test.testName := by
    intro test htest
    obtain ⟨bitcode, hbitcode, function, hfunction, body, htest⟩ := mem_forFunctions htest
    split at htest
    · obtain rfl := List.mem_singleton.mp htest
      exact hzero bitcode hbitcode function hfunction
    · cases htest
  rw [SQLiteReporter.reported_iff, distinctTests_iff hresult hzero', testNames_simple,
    List.nodup_flatMap, and_iff_right]
  · refine List.Pairwise.iff fun bitcode bitcode' => ?_
    simp only [Function.onFun, List.disjoint_left, List.mem_filter, List.mem_map, decide_eq_true_eq]
    constructor
    · intro hdisjoint function hfunction htest function' hfunction' heq
      exact hdisjoint ⟨⟨function, hfunction, rfl⟩, htest⟩ ⟨⟨function', hfunction', heq.symm⟩, htest⟩
    · rintro hdifferent _ ⟨⟨function, hfunction, rfl⟩, htest⟩ ⟨⟨function', hfunction', heq⟩, -⟩
      exact hdifferent function hfunction htest function' hfunction' heq.symm
  · intro bitcode hbitcode
    exact (hnames bitcode hbitcode).of_append_left.filter _

/-- A program of one file, in which the functions are defined. -/
def oneFile (names : List String) : Program where
  bitcode := [MutantExecution.comparisons names]
  distinct := List.nodup_singleton _

/-- The result of a run without mutants. -/
def resultOf (tests : List Test) : SQLiteReporter.Result where
  tests := tests.map fun test => ⟨Sources.bytes test.testName, ⟨[], [], 0, 0⟩, .initial⟩
  mutationResults := []
  mutationPoints := []
  testOf _ := ⟨[], ⟨[], [], 0, 0⟩, .initial⟩
  locationOf _ := ⟨[], [], 0, 0⟩
  moduleIdentifier _ := []
  functionName _ := []

theorem reports_resultOf (tests : List Test) : Reports (resultOf tests) tests := by
  rw [Reports, resultOf, List.map_map]
  rfl

theorem simple_report_oneFile :
    (SQLiteReporter.report SQLiteReporter.noTables
      (resultOf (SimpleTestFinder.findTests (oneFile ["test_sum", "sum"])))).2 = true := by
  refine (simple_report_iff (reports_resultOf _) ?_ ?_).mpr (List.pairwise_singleton _ _)
  · intro bitcode hbitcode
    obtain rfl := List.mem_singleton.mp hbitcode
    decide
  · intro bitcode hbitcode
    obtain rfl := List.mem_singleton.mp hbitcode
    decide +kernel

/-! ### Custom tests -/

theorem testMapping_eq (definitions : List CustomTestDefinition) (methodName : String) :
    CustomTestFinder.testMapping definitions methodName =
      definitions.filter fun definition => definition.methodName = methodName := by
  have hloop : ∀ (rest : List CustomTestDefinition) (mapping : String → List CustomTestDefinition),
      rest.foldl (fun mapping definition => Function.update mapping definition.methodName
        (mapping definition.methodName ++ [definition])) mapping methodName =
      mapping methodName ++ rest.filter fun definition => definition.methodName = methodName := by
    intro rest
    induction rest with
    | nil => simp
    | cons definition rest ih =>
        intro mapping
        rw [List.foldl_cons, ih, List.filter_cons]
        by_cases hname : definition.methodName = methodName
        · subst hname
          simp
        · rw [Function.update_of_ne (Ne.symm hname), if_neg (by simpa using hname)]
  rw [CustomTestFinder.testMapping, hloop, List.nil_append]

def isMain (function : Function) : Bool :=
  !function.isDeclaration && (function.name = "main" || function.name = "_main")

/-- The functions that a custom test of `mull-cxx` is defined for. -/
def mains (program : Program) : List Function :=
  program.bitcode.flatMap fun bitcode => bitcode.module.functions.filter isMain

theorem testNames_function (body : Nat × Nat) (function : Function) :
    (if function.isDeclaration then []
      else (CustomTestFinder.testMapping customTests function.name).map
        (CustomTestFinder.makeTest body)).map Test.testName =
      if isMain function then ["main"] else [] := by
  rw [testMapping_eq]
  by_cases hdeclaration : function.isDeclaration = true
  · simp [isMain, hdeclaration]
  · by_cases hmain : function.name = "main"
    · simp [isMain, hdeclaration, hmain, customTests, CustomTestFinder.makeTest]
    · by_cases hmain' : function.name = "_main"
      · simp [isMain, hdeclaration, hmain', customTests, CustomTestFinder.makeTest]
      · simp [isMain, hdeclaration, hmain, hmain', customTests, Ne.symm hmain, Ne.symm hmain']

/-- The tests have one name. -/
theorem testNames_custom (program : Program) :
    (CustomTestFinder.findTests customTests program).map Test.testName =
      List.replicate (mains program).length "main" := by
  have hfunctions : ∀ functions : List Function, (functions.flatMap fun function =>
      if isMain function then ["main"] else []) = (functions.filter isMain).map fun _ => "main" := by
    intro functions
    induction functions with
    | nil => rfl
    | cons function functions ih =>
        rw [List.flatMap_cons, ih, List.filter_cons]
        split
        · rw [List.map_cons, List.singleton_append]
        · rw [List.nil_append]
  rw [← List.map_const', mains, List.map_flatMap]
  exact (testNames_forFunctions testNames_function).trans
    (List.flatMap_congr fun bitcode _ => hfunctions _)

/-- **The custom tests of `mull-cxx` are reported exactly if at most one function of the program
    is defined with the name `main` or `_main`.** -/
theorem custom_report_iff
    (hresult : Reports result (CustomTestFinder.findTests customTests program)) :
    (SQLiteReporter.report SQLiteReporter.noTables result).2 = true ↔
      (mains program).length ≤ 1 := by
  have hzero : ∀ test ∈ CustomTestFinder.findTests customTests program,
      0 ∉ Sources.bytes test.testName := by
    intro test htest
    have hname : test.testName ∈ (CustomTestFinder.findTests customTests program).map Test.testName :=
      List.mem_map_of_mem htest
    rw [testNames_custom] at hname
    rw [List.eq_of_mem_replicate hname]
    decide +kernel
  rw [SQLiteReporter.reported_iff, distinctTests_iff hresult hzero, testNames_custom,
    List.nodup_replicate]

theorem custom_report_oneFile :
    (SQLiteReporter.report SQLiteReporter.noTables
      (resultOf (CustomTestFinder.findTests customTests (oneFile ["main", "sum"])))).2 = true :=
  (custom_report_iff (reports_resultOf _)).mpr (by decide)

end Reports

end Mull.TestFinders
