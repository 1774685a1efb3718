import Mathlib.Data.List.DropRight
import Mathlib.Data.List.Infix
import Mull.Lib.Naming

/-!
# Finding Google tests

A Google test is registered by a store of a call into a global of type `TestInfo`, and the
call has the names of the test suite and the test case.  `findTests` takes the first function
of the module whose name contains the end of the mangled name of the test's body.

The text it looks for begins with the name of the suite, without the length before it.  So the
body of a test of another suite whose name ends in this one is found as well, if it is listed
earlier.  Every test gets its own body if and only if no such function comes first
(`own_bodies_iff`).
-/

namespace Mull.GoogleTestFinder

open Naming

abbrev Text := List Char

/-! ### Modules -/

/-- The types of globals that `findTests` tells apart.  A literal struct has the empty name. -/
inductive Ty where
  | pointer (pointee : Ty)
  | struct (name : Text)
  | other
deriving DecidableEq, Repr

/-- The constants that it looks through. -/
inductive Constant where
  | constantDataArray (rawDataValues : Text)
  | globalValue (initializer : Constant)
  | constantExpr (operand : Constant)
  | other
deriving DecidableEq, Repr

/-- What a store writes. -/
inductive Value where
  | call (operands : List Constant)
  | invoke (operands : List Constant)
  | other
deriving DecidableEq, Repr

inductive User where
  | storeInst (valueOperand : Value)
  | other
deriving DecidableEq, Repr

structure Global where
  valueType : Ty
  users : List User
deriving DecidableEq, Repr

/-- A module has its globals and the names of its functions in order. -/
structure Module where
  globals : List Global
  functions : List Text
deriving DecidableEq, Repr

/-- A `Test`.  The body is the place of its module and its place in that module. -/
structure Test where
  testName : Text
  programName : Text
  driverFunctionName : Text
  arguments : List Text
  testBody : Nat × Nat
deriving DecidableEq, Repr

/-! ### The finder -/

def testInfoTypeName : Text := "class.testing::TestInfo".toList

/-- The checks at the beginning of the loop over the globals. -/
def Global.isTestInfo (g : Global) : Bool :=
  match g.valueType with
  | .pointer (.struct name) => testInfoTypeName.isPrefixOf name
  | _ => false

def User.valueOperand : User → Option Value
  | .storeInst valueOperand => some valueOperand
  | .other => none

/-- The operands of a call site. -/
def Value.operands : Value → Option (List Constant)
  | .call operands => some operands
  | .invoke operands => some operands
  | .other => none

def rtrim (text : Text) : Text := text.rdropWhile (· = '\x00')

/-- The casts from an operand of the call to the text of its string. -/
def Constant.text : Constant → Option Text
  | .constantExpr (.globalValue (.constantDataArray rawDataValues)) => some (rtrim rawDataValues)
  | _ => none

/-- The names of the suite and of the case, if all assertions on the way to them hold. -/
def Global.testNames (g : Global) : Option (Text × Text) := do
  let valueOperand ← g.users.findSome? User.valueOperand
  let operands ← valueOperand.operands
  let testSuiteName ← (← operands[0]?).text
  let testCaseName ← (← operands[1]?).text
  some (testSuiteName, testCaseName)

/-- `StringRef::rfind`. -/
def rfind (text pattern : Text) : Option Nat :=
  if pattern.length > text.length then none
  else (List.range (text.length - pattern.length + 1)).reverse.find? fun i =>
    (text.drop i).take pattern.length = pattern

def testBodyFunctionName (testSuiteName testCaseName : Text) : Text :=
  testSuiteName ++ '_' :: testCaseName ++ "_Test8TestBodyEv".toList

/-- The loop over the functions of the module. -/
def findBody (functions : List Text) (name : Text) : Option Nat :=
  functions.findIdx? fun function => (rfind function name).isSome

/-- A global that the loops get to, with its module and the place of the module. -/
structure Registration where
  index : Nat
  bitcode : Module
  testInfo : Global
deriving DecidableEq, Repr

/-- The globals that pass the checks, in the order of the loops. -/
def registrations (program : List Module) : List Registration :=
  program.zipIdx.flatMap fun (m, i) =>
    (m.globals.filter Global.isTestInfo).map fun g => ⟨i, m, g⟩

/-- The test of a suite and a case with a body. -/
def makeTest (testSuiteName testCaseName : Text) (testBody : Nat × Nat) : Test :=
  let testName := testSuiteName ++ '.' :: testCaseName
  ⟨testName, "mull".toList, "main".toList, ["--gtest_filter=".toList ++ testName], testBody⟩

/-- The rest of the body of the loop.  A failed assertion gives no result. -/
def findTest (r : Registration) : Option Test := do
  let (testSuiteName, testCaseName) ← r.testInfo.testNames
  let body ← findBody r.bitcode.functions (testBodyFunctionName testSuiteName testCaseName)
  some (makeTest testSuiteName testCaseName (r.index, body))

def findTests (program : List Module) : Option (List Test) :=
  (registrations program).mapM findTest

/-! ### Registered tests -/

/-- The operand of a call for a string literal. -/
def stringLiteral (text : Text) : Constant :=
  .constantExpr (.globalValue (.constantDataArray (text ++ ['\x00'])))

/-- The class of a test. -/
def className (testSuiteName testCaseName : Text) : Text :=
  testSuiteName ++ '_' :: testCaseName ++ "_Test".toList

/-- The mangled name of the method `TestBody` of a class in some namespaces. -/
def mangledTestBody (scopes : List Text) (name : Text) : Text :=
  "_ZN".toList ++ (scopes ++ [name, "TestBody".toList]).flatMap withLength ++ "Ev".toList

/-- The global is used in a store of the call that registers a test, before any other store. -/
structure Registers (g : Global) (testSuiteName testCaseName : Text) : Prop where
  store : ∃ value operands, g.users.findSome? User.valueOperand = some value ∧
    value.operands =
      some (stringLiteral testSuiteName :: stringLiteral testCaseName :: operands)
  suite_text : '\x00' ∉ testSuiteName
  case_text : '\x00' ∉ testCaseName

/-- The test of a registration, and the place of its own body in the module. -/
structure Registered (r : Registration) (testSuiteName testCaseName : Text) (body : Nat) :
    Prop where
  registers : Registers r.testInfo testSuiteName testCaseName
  name : NoNumber (className testSuiteName testCaseName)
  body : ∃ scopes, (∀ scope ∈ scopes, NoNumber scope) ∧
    r.bitcode.functions[body]? =
      some (mangledTestBody scopes (className testSuiteName testCaseName))

theorem rtrim_append_zero {text : Text} (h : '\x00' ∉ text) : rtrim (text ++ ['\x00']) = text := by
  rw [rtrim, List.rdropWhile_concat_pos _ _ _ (by simp)]
  rw [List.rdropWhile_eq_self_iff]
  intro hne hlast
  exact h (of_decide_eq_true hlast ▸ List.getLast_mem hne)

theorem Registers.testNames_eq {g : Global} {testSuiteName testCaseName : Text}
    (h : Registers g testSuiteName testCaseName) :
    g.testNames = some (testSuiteName, testCaseName) := by
  rcases h.store with ⟨value, operands, hvalue, hoperands⟩
  simp [Global.testNames, hvalue, hoperands, stringLiteral, Constant.text,
    rtrim_append_zero h.suite_text, rtrim_append_zero h.case_text]

theorem rfind_isSome_iff {text pattern : Text} :
    (rfind text pattern).isSome ↔ pattern <:+: text := by
  unfold rfind
  split
  · rename_i hlength
    simp only [Option.isSome_none, Bool.false_eq_true, false_iff]
    intro hoccurs
    exact absurd hoccurs.length_le (by omega)
  · simp only [List.find?_isSome, List.mem_reverse, List.mem_range, decide_eq_true_eq]
    constructor
    · rintro ⟨i, -, htake⟩
      exact htake ▸ (List.take_prefix _ _).isInfix.trans (List.drop_suffix _ _).isInfix
    · rintro ⟨before, after, rfl⟩
      refine ⟨before.length, by simp; omega, ?_⟩
      simp

/-- The name of the own body contains the text that is looked for. -/
theorem testBodyFunctionName_occurs (scopes : List Text) (testSuiteName testCaseName : Text) :
    testBodyFunctionName testSuiteName testCaseName <:+:
      mangledTestBody scopes (className testSuiteName testCaseName) := by
  have hend : "_Test8TestBodyEv".toList = "_Test".toList ++
      ((toString "TestBody".toList.length).toList ++ ("TestBody".toList ++ "Ev".toList)) := by
    decide +kernel
  refine ⟨"_ZN".toList ++ scopes.flatMap withLength ++
    (toString (className testSuiteName testCaseName).length).toList, [], ?_⟩
  simp only [mangledTestBody, testBodyFunctionName, className, List.flatMap_append,
    List.flatMap_cons, List.flatMap_nil, withLength, hend, List.append_nil, List.append_assoc,
    List.cons_append]

/-- The mangled name of a body tells its class. -/
theorem mangledTestBody_inj {scopes scopes' : List Text} {name name' : Text}
    (hscopes : ∀ scope ∈ scopes, NoNumber scope) (hscopes' : ∀ scope ∈ scopes', NoNumber scope)
    (hname : NoNumber name) (hname' : NoNumber name')
    (h : mangledTestBody scopes name = mangledTestBody scopes' name') : name = name' := by
  have hmethod : NoNumber "TestBody".toList := ⟨'T', "estBody".toList, by decide, by decide⟩
  have hall {scopes : List Text} {name : Text} (hscopes : ∀ scope ∈ scopes, NoNumber scope)
      (hname : NoNumber name) : ∀ part ∈ scopes ++ [name, "TestBody".toList], NoNumber part := by
    intro part hpart
    rcases List.mem_append.mp hpart with hpart | hpart
    · exact hscopes part hpart
    · rcases List.mem_pair.mp hpart with rfl | rfl
      · exact hname
      · exact hmethod
  have hend : "Ev".toList = ['E', 'v'] := by decide
  rw [mangledTestBody, mangledTestBody, hend, List.append_assoc, List.append_assoc] at h
  have hparts := flatMap_withLength_inj (hall hscopes hname) (hall hscopes' hname')
    (by decide) (by decide) (List.append_cancel_left h)
  exact (List.cons.inj (List.append_inj' hparts rfl).2).1

/-! ### Every test gets its own body -/

/-- The first function that contains a text. -/
theorem findBody_eq_some_iff {functions : List Text} {text : Text} {k : Nat} :
    findBody functions text = some k ↔
      (∃ name, functions[k]? = some name ∧ text <:+: name) ∧
        ∀ i < k, ∀ name, functions[i]? = some name → ¬ text <:+: name := by
  unfold findBody
  rw [List.findIdx?_eq_some_iff_getElem]
  constructor
  · rintro ⟨hk, hfound, hfirst⟩
    refine ⟨⟨_, List.getElem?_eq_getElem hk, rfind_isSome_iff.mp hfound⟩, ?_⟩
    intro i hi name hname hoccurs
    rcases List.getElem?_eq_some_iff.mp hname with ⟨hlt, rfl⟩
    exact hfirst i hi (rfind_isSome_iff.mpr hoccurs)
  · rintro ⟨⟨name, hname, hoccurs⟩, hfirst⟩
    rcases List.getElem?_eq_some_iff.mp hname with ⟨hlt, rfl⟩
    refine ⟨hlt, rfind_isSome_iff.mpr hoccurs, ?_⟩
    intro i hi hfound
    exact hfirst i hi _ (List.getElem?_eq_getElem _) (rfind_isSome_iff.mp hfound)

theorem exists_findBody {functions : List Text} {text name : Text} (hname : name ∈ functions)
    (hoccurs : text <:+: name) : ∃ k, findBody functions text = some k := by
  have hsome : (findBody functions text).isSome := by
    rw [findBody, List.findIdx?_isSome, List.any_eq_true]
    exact ⟨name, hname, rfind_isSome_iff.mpr hoccurs⟩
  exact Option.isSome_iff_exists.mp hsome

/-- No function before the body of a test contains the text that is looked for. -/
def NoEarlierBody (r : Registration) (testSuiteName testCaseName : Text) (body : Nat) : Prop :=
  ∀ i < body, ∀ name, r.bitcode.functions[i]? = some name →
    ¬ testBodyFunctionName testSuiteName testCaseName <:+: name

section OwnBodies

variable {r r' : Registration} {testSuiteName testCaseName testSuiteName' testCaseName' : Text}
  {body body' : Nat} {program : List Module}

/-- A registered test is found, with its own body if that is the first one. -/
theorem Registered.findTest_eq (h : Registered r testSuiteName testCaseName body) :
    ∃ k, findTest r = some (makeTest testSuiteName testCaseName (r.index, k)) ∧
      (k = body ↔ NoEarlierBody r testSuiteName testCaseName body) := by
  rcases h.body with ⟨scopes, -, hbody⟩
  have hoccurs := testBodyFunctionName_occurs scopes testSuiteName testCaseName
  rcases exists_findBody (List.mem_of_getElem? hbody) hoccurs with ⟨k, hk⟩
  refine ⟨k, by simp [findTest, h.registers.testNames_eq, hk], ?_⟩
  constructor
  · rintro rfl
    exact (findBody_eq_some_iff.mp hk).2
  · intro hfirst
    have hown := findBody_eq_some_iff.mpr ⟨⟨_, hbody, hoccurs⟩, hfirst⟩
    exact Option.some.inj (hk.symm.trans hown)

/-- The bodies of tests with different classes are different functions. -/
theorem Registered.className_eq (h : Registered r testSuiteName testCaseName body)
    (h' : Registered r' testSuiteName' testCaseName' body)
    (hbitcode : r.bitcode = r'.bitcode) :
    className testSuiteName testCaseName = className testSuiteName' testCaseName' := by
  rcases h.body with ⟨scopes, hscopes, hbody⟩
  rcases h'.body with ⟨scopes', hscopes', hbody'⟩
  rw [← hbitcode, hbody, Option.some.injEq] at hbody'
  exact mangledTestBody_inj hscopes hscopes' h.name h'.name hbody'

theorem getElem?_of_mem_registrations (hr : r ∈ registrations program) :
    program[r.index]? = some r.bitcode := by
  rcases List.mem_flatMap.mp hr with ⟨⟨m, i⟩, hm, hr⟩
  rcases List.mem_map.mp hr with ⟨g, -, rfl⟩
  exact List.mk_mem_zipIdx_iff_getElem?.mp hm

theorem exists_mapM_eq_some {α β : Type} {f : α → Option β} {xs : List α}
    (h : ∀ x ∈ xs, ∃ y, f x = some y) : ∃ ys, xs.mapM f = some ys := by
  induction xs with
  | nil => exact ⟨[], rfl⟩
  | cons x xs ih =>
    rcases h x List.mem_cons_self with ⟨y, hy⟩
    rcases ih fun x hx => h x (List.mem_cons_of_mem _ hx) with ⟨ys, hys⟩
    refine ⟨y :: ys, ?_⟩
    rw [List.mapM_cons, hy, hys]
    rfl

theorem getElem?_of_mapM {α β : Type} {f : α → Option β} {xs : List α} {ys : List β} {i : Nat}
    {x : α} (h : xs.mapM f = some ys) (hx : xs[i]? = some x) : ys[i]? = f x := by
  induction xs generalizing ys i with
  | nil => cases hx
  | cons x' xs ih =>
    rw [List.mapM_cons] at h
    rcases Option.bind_eq_some_iff.mp h with ⟨y, hy, h⟩
    rcases Option.bind_eq_some_iff.mp h with ⟨ys', hys', h⟩
    obtain rfl := Option.some.inj h
    cases i with
    | zero =>
      obtain rfl := Option.some.inj hx
      exact hy.symm
    | succ i =>
      rw [List.getElem?_cons_succ]
      exact ih hys' hx

/-- Every test has its own body, and tests of a module with different classes have different
    bodies. -/
structure OwnBodies (program : List Module) (tests : List Test) : Prop where
  found : findTests program = some tests
  own : ∀ (i : Nat) r, (registrations program)[i]? = some r →
    ∀ testSuiteName testCaseName body, Registered r testSuiteName testCaseName body →
      tests[i]? = some (makeTest testSuiteName testCaseName (r.index, body))
  apart : ∀ (i j : Nat) r r', (registrations program)[i]? = some r →
    (registrations program)[j]? = some r' → r.index = r'.index →
    ∀ testSuiteName testCaseName body testSuiteName' testCaseName' body',
      Registered r testSuiteName testCaseName body →
      Registered r' testSuiteName' testCaseName' body' →
      className testSuiteName testCaseName ≠ className testSuiteName' testCaseName' →
        tests[i]?.map Test.testBody ≠ tests[j]?.map Test.testBody

/-- Every test gets its own body exactly if that is always the first function whose name
    contains the text that is looked for. -/
theorem own_bodies_iff (program : List Module)
    (hregistered : ∀ r ∈ registrations program, ∃ testSuiteName testCaseName body,
      Registered r testSuiteName testCaseName body) :
    (∃ tests, OwnBodies program tests) ↔
      ∀ r ∈ registrations program, ∀ testSuiteName testCaseName body,
        Registered r testSuiteName testCaseName body →
          NoEarlierBody r testSuiteName testCaseName body := by
  constructor
  · rintro ⟨tests, htests⟩ r hr testSuiteName testCaseName body h
    rcases List.mem_iff_getElem?.mp hr with ⟨i, hi⟩
    rcases h.findTest_eq with ⟨k, hk, hiff⟩
    have htest := (htests.own i r hi _ _ _ h).symm.trans (getElem?_of_mapM htests.found hi)
    rw [hk, Option.some.injEq] at htest
    exact hiff.mp (congrArg (fun test => test.testBody.2) htest).symm
  · intro hfirst
    have hfound : ∀ r ∈ registrations program, ∃ test, findTest r = some test := by
      intro r hr
      rcases hregistered r hr with ⟨testSuiteName, testCaseName, body, h⟩
      rcases h.findTest_eq with ⟨k, hk, -⟩
      exact ⟨_, hk⟩
    rcases exists_mapM_eq_some hfound with ⟨tests, htests⟩
    have hown : ∀ (i : Nat) r, (registrations program)[i]? = some r →
        ∀ testSuiteName testCaseName body, Registered r testSuiteName testCaseName body →
          tests[i]? = some (makeTest testSuiteName testCaseName (r.index, body)) := by
      intro i r hi testSuiteName testCaseName body h
      rcases h.findTest_eq with ⟨k, hk, hiff⟩
      obtain rfl := hiff.mpr (hfirst r (List.mem_of_getElem? hi) _ _ _ h)
      rw [getElem?_of_mapM htests hi, hk]
    refine ⟨tests, htests, hown, ?_⟩
    intro i j r r' hi hj hindex testSuiteName testCaseName body testSuiteName' testCaseName' body'
      h h' hne hbodies
    rw [hown i r hi _ _ _ h, hown j r' hj _ _ _ h'] at hbodies
    obtain rfl : body = body' := congrArg Prod.snd (Option.some.inj hbodies)
    have hr := getElem?_of_mem_registrations (List.mem_of_getElem? hi)
    have hr' := getElem?_of_mem_registrations (List.mem_of_getElem? hj)
    rw [← hindex, hr, Option.some.injEq] at hr'
    exact hne (h.className_eq h' hr')

/-- A global into which the call for a test is stored. -/
def registering (testSuiteName testCaseName : Text) : Global :=
  ⟨.pointer (.struct testInfoTypeName),
    [.storeInst (.call [stringLiteral testSuiteName, stringLiteral testCaseName])]⟩

/-- A module with tests for the case `bar` of some suites, and their bodies. -/
def moduleOf (suites : List Text) : Module :=
  ⟨suites.map (registering · "bar".toList),
    suites.map fun suite => mangledTestBody [] (className suite "bar".toList)⟩

/-- The registration of a suite's test. -/
def registration (suites : List Text) (suite : Text) : Registration :=
  ⟨0, moduleOf suites, registering suite "bar".toList⟩

theorem registrations_moduleOf (suites : List Text) :
    registrations [moduleOf suites] = suites.map (registration suites) := by
  have hall : (moduleOf suites).globals.filter Global.isTestInfo = (moduleOf suites).globals := by
    rw [List.filter_eq_self]
    intro g hg
    rcases List.mem_map.mp hg with ⟨suite, -, rfl⟩
    simp [registering, Global.isTestInfo]
  simp [registrations, hall]
  simp [moduleOf, registration]

theorem registered_moduleOf {suites : List Text} {i : Nat} {suite : Text}
    (hsuite : suites[i]? = some suite) (htext : '\x00' ∉ suite) (hname : NoNumber suite) :
    Registered (registration suites suite) suite "bar".toList i := by
  rcases hname with ⟨c, rest, rfl, hc⟩
  refine ⟨⟨⟨_, [], rfl, rfl⟩, htext, by decide⟩, ⟨c, _, rfl, hc⟩, [], by simp, ?_⟩
  simp [registration, moduleOf, hsuite]

theorem exists_registered_moduleOf {suites : List Text}
    (hsuites : ∀ suite ∈ suites, '\x00' ∉ suite ∧ NoNumber suite) :
    ∀ r ∈ registrations [moduleOf suites], ∃ testSuiteName testCaseName body,
      Registered r testSuiteName testCaseName body := by
  intro r hr
  rw [registrations_moduleOf] at hr
  rcases List.mem_map.mp hr with ⟨suite, hsuite, rfl⟩
  rcases List.mem_iff_getElem?.mp hsuite with ⟨i, hi⟩
  exact ⟨suite, _, i, registered_moduleOf hi (hsuites suite hsuite).1 (hsuites suite hsuite).2⟩

theorem suite_foo : '\x00' ∉ "Foo".toList ∧ NoNumber "Foo".toList :=
  ⟨by decide, 'F', "oo".toList, by decide, by decide⟩

theorem suite_myFoo : '\x00' ∉ "MyFoo".toList ∧ NoNumber "MyFoo".toList :=
  ⟨by decide, 'M', "yFoo".toList, by decide, by decide⟩

theorem own_bodies_oneSuite : ∃ tests, OwnBodies [moduleOf ["Foo".toList]] tests := by
  refine (own_bodies_iff [moduleOf ["Foo".toList]]
    (exists_registered_moduleOf fun suite hsuite => ?_)).mpr ?_
  · rw [List.mem_singleton.mp hsuite]
    exact suite_foo
  · -- the module has one function
    intro r hr testSuiteName testCaseName body h i hi name hname
    rw [registrations_moduleOf] at hr
    obtain rfl := List.mem_singleton.mp hr
    rcases h.body with ⟨scopes, -, hbody⟩
    have hlt : body < 1 := (List.getElem?_eq_some_iff.mp hbody).1
    omega

/-- The body of `MyFoo.bar` comes first, and `Foo.bar` gets it too. -/
theorem not_own_bodies_suiteEnding :
    (∀ r ∈ registrations [moduleOf ["MyFoo".toList, "Foo".toList]],
      ∃ testSuiteName testCaseName body, Registered r testSuiteName testCaseName body) ∧
      ¬ ∃ tests, OwnBodies [moduleOf ["MyFoo".toList, "Foo".toList]] tests := by
  refine ⟨exists_registered_moduleOf fun suite hsuite => ?_, ?_⟩
  · rcases List.mem_pair.mp hsuite with rfl | rfl
    · exact suite_myFoo
    · exact suite_foo
  · rintro ⟨tests, htests⟩
    have hi : (registrations [moduleOf ["MyFoo".toList, "Foo".toList]])[1]? =
        some (registration ["MyFoo".toList, "Foo".toList] "Foo".toList) := by
      rw [registrations_moduleOf]
      rfl
    have hfoo : ["MyFoo".toList, "Foo".toList][1]? = some "Foo".toList := rfl
    have hown := htests.own 1 _ hi _ _ _ (registered_moduleOf hfoo suite_foo.1 suite_foo.2)
    rw [getElem?_of_mapM htests.found hi] at hown
    revert hown
    decide +kernel

end OwnBodies

end Mull.GoogleTestFinder
