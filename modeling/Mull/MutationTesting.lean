import Mull.FunctionsUnderTest
import Mull.Reporters

/-!
# The whole run

The driver runs every test once on the original program, looks for mutation points in the
functions that the tests reached, and runs each mutant against the tests that reach its
function.  This module says what comes out at the end of these stages in terms of what goes
in: the events of the tests, their outcomes, the filters and the mutators.

A function is at distance `k` from a test if a chain of `k` recorded calls leads to it from
the test body (`ReachesAt`).  The mutants of a run are the mutations of the functions at a
positive distance up to the maximal one from a test that passed, and there is one result for
each mutant and each such test (`runs_test_mutants`).
-/

namespace Mull.DynamicCallTree

open ParentForest QueueWalk

variable {F : Type}

/-! ### Distances between functions -/

/-- A chain of recorded calls, with its length. -/
inductive RecordedChain (history : List (Option Nat × Nat)) : Nat → Nat → Nat → Prop
  | refl (t : Nat) : RecordedChain history 0 t t
  | tail {k t p f : Nat} (h : RecordedChain history k t p) (hcall : RecordedCall history p f) :
      RecordedChain history (k + 1) t f

/-- The body was entered during the run, and `k` recorded calls lead from it to `g`. -/
def ReachesAt (functions : List (CallTreeFunction F)) (events : List Event) (body : F) (k : Nat)
    (g : F) : Prop :=
  ∃ t f, tableOf functions t = some body ∧ tableOf functions f = some g ∧
    Event.enter t ∈ events ∧ RecordedChain (calls [] events) k t f

theorem descendantAt_iff_recordedChain {n : Nat} {events : List Event} {info : InstrumentationInfo}
    {done : List Nat} (hrange : InRange n events) (hrun : record .initial events = some info)
    (hdone : ∀ i, i ∈ done ↔ info.callTreeMapping i ≠ 0) {k t f : Nat} (ht : t ≠ 0) :
    DescendantAt (childIndices info.callTreeMapping done) k t f ↔
      RecordedChain (calls [] events) k t f := by
  obtain ⟨order, hrec⟩ := recorded_of_record hrange hrun
  constructor
  · intro h
    -- below `t` no function is the phony one, so every edge is a recorded call
    have hnonzero : f ≠ 0 ∧ RecordedChain (calls [] events) k t f := by
      induction h with
      | refl => exact ⟨ht, .refl _⟩
      | tail _ hchild ih =>
          obtain ⟨hparent, hchain⟩ := ih ht
          have hcall := (mem_childIndices_iff hdone).mp hchild
          refine ⟨fun h0 => hcall.1 (h0 ▸ hrec.zero), hchain.tail ?_⟩
          exact (calls_iff_recordedCall hrange hrun hparent).mp hcall
    exact hnonzero.2
  · intro h
    have hnonzero : f ≠ 0 ∧ DescendantAt (childIndices info.callTreeMapping done) k t f := by
      induction h with
      | refl => exact ⟨ht, .refl _⟩
      | tail _ hcall ih =>
          obtain ⟨hparent, hdescendant⟩ := ih ht
          have hedge := (calls_iff_recordedCall hrange hrun hparent).mpr hcall
          refine ⟨fun h0 => hedge.1 (h0 ▸ hrec.zero), hdescendant.tail ?_⟩
          exact (mem_childIndices_iff hdone).mpr hedge
    exact hnonzero.2

section Emitted

variable {functions : List (CallTreeFunction F)} {events : List Event} {info : InstrumentationInfo}
  {test : Test F} {body : F} {maxDistance : Int}

/-- **The depths in the call tree are the distances along recorded calls.** -/
theorem descendantOf_iff_reachesAt (hphony : functions.head? = some ⟨none, none⟩)
    (hdistinct : DistinctFunctions functions) (hrange : InRange functions.length events)
    (hrun : record .initial events = some info) {callTree : CallTree F} {mapping : Nat → Nat}
    (htree : createCallTree functions.length info.callTreeMapping functions =
      .ok (callTree, mapping)) {k : Nat} {g : F} :
    DescendantOf callTree body k g ↔ ReachesAt functions events body k g := by
  obtain ⟨order, hrec⟩ := recorded_of_record hrange hrun
  have hpos : 0 < functions.length := List.length_pos_of_mem (List.mem_of_head? hphony)
  have hm := hrec.leveled hpos
  obtain ⟨done, -, hdone, hspec⟩ := createCallTree_spec hm hphony le_rfl
  obtain ⟨rfl, -⟩ := Prod.mk.inj (Except.ok.inj (htree.symm.trans hspec))
  have hentered : ∀ {t}, tableOf functions t = some body →
      (info.callTreeMapping t ≠ 0 ↔ Event.enter t ∈ events) := fun ht =>
    mapping_ne_zero_iff hrange hrun (ne_zero_of_tableOf hphony ht)
  constructor
  · intro h
    obtain ⟨root, node, hroot, hfunction, -⟩ := id h
    obtain ⟨j, hj⟩ := exists_descendantAt _ hroot
    obtain ⟨t, rfl, -⟩ := (descendantAt_callTreeOf_iff hm hdone).mp hj
    rw [function_callTreeOf hm hdone] at hfunction
    have ht0 := ne_zero_of_tableOf hphony hfunction
    obtain ⟨hmapping, f, hg, hnear⟩ := (descendantOf_iff hm hdone hdistinct hfunction ht0).mp h
    refine ⟨t, f, hfunction, hg, (hentered hfunction).mp hmapping, ?_⟩
    apply (descendantAt_iff_recordedChain hrange hrun hdone ht0).mp
    exact (descendantAt_iff_below hm hdone).mpr hnear
  · rintro ⟨t, f, ht, hg, henter, hchain⟩
    have ht0 := ne_zero_of_tableOf hphony ht
    apply (descendantOf_iff hm hdone hdistinct ht ht0).mpr
    refine ⟨(hentered ht).mpr henter, f, hg, ?_⟩
    apply (descendantAt_iff_below hm hdone).mp
    exact (descendantAt_iff_recordedChain hrange hrun hdone ht0).mpr hchain

/-- What a test contributes to the functions under test. -/
structure Emits (functions : List (CallTreeFunction F)) (events : List Event) (test : Test F)
    (body : F) (maxDistance : Int) (passed : Prop) (storage : List (ReachableFunction F)) : Prop where
  once : (storage.map (·.function)).Nodup
  own : ∀ r ∈ storage, r.test = test ∧ ∃ k : Nat, r.distance = k
  near : ∀ (g : F) (k : Nat), (∃ r ∈ storage, r.function = some g ∧ r.distance = k) ↔
    passed ∧ g ≠ body ∧ (k : Int) ≤ maxDistance ∧ ReachesAt functions events body k g

/-- Without its first entry, the list of a test has the functions other than the test body. -/
theorem Credited.mem_tail_iff {callTree : CallTree F} {result : List (ReachableFunction F)}
    (h : Credited functions events callTree test body maxDistance result)
    {r : ReachableFunction F} (hr : r.function ≠ some body) : r ∈ result.tail ↔ r ∈ result := by
  by_cases hentered : Entered functions events body
  · have hfirst := h.first hentered
    cases result with
    | nil => cases hfirst
    | cons first rest =>
        obtain rfl := Option.some.inj hfirst
        rw [List.tail_cons, List.mem_cons, or_iff_right]
        rintro rfl
        exact hr rfl
  · rw [h.never hentered, List.tail_nil]

variable [DecidableEq F]

theorem test_of_mem_getReachableFunctions {result : List (ReachableFunction F)}
    (h : getReachableFunctions functions info test maxDistance = .ok result) :
    ∀ r ∈ result, r.test = test := by
  intro r hr
  unfold getReachableFunctions at h
  split at h
  · cases h
  · obtain rfl := Except.ok.inj h
    obtain ⟨root, -, hnode⟩ := List.mem_flatMap.mp hr
    obtain ⟨node, -, rfl⟩ := List.mem_map.mp hnode
    rfl

theorem emits_of_credited {callTree : CallTree F} {result : List (ReachableFunction F)}
    (hresult : getReachableFunctions functions info test maxDistance = .ok result)
    (hcredited : Credited functions events callTree test body maxDistance result)
    (hdepth : ∀ k g, DescendantOf callTree body k g ↔ ReachesAt functions events body k g) :
    Emits functions events test body maxDistance True result.tail := by
  constructor
  case once => exact hcredited.tail.2
  case own =>
    intro r hr
    have hmem := List.mem_of_mem_tail hr
    obtain ⟨k, hk, -⟩ := hcredited.chain r hmem
    exact ⟨test_of_mem_getReachableFunctions hresult r hmem, k, hk⟩
  case near =>
    intro g k
    constructor
    · rintro ⟨r, hr, hg, hk⟩
      have hbody := hcredited.tail.1 r hr
      obtain ⟨hfar, hdescendant⟩ :=
        (hcredited.depth g k).mp ⟨r, List.mem_of_mem_tail hr, hg, hk⟩
      exact ⟨trivial, fun heq => hbody (heq ▸ hg), hfar, (hdepth k g).mp hdescendant⟩
    · rintro ⟨-, hbody, hfar, hreaches⟩
      obtain ⟨r, hr, hg, hk⟩ := (hcredited.depth g k).mpr ⟨hfar, (hdepth k g).mpr hreaches⟩
      have hne : r.function ≠ some body := fun heq => hbody (Option.some.inj (hg.symm.trans heq))
      exact ⟨r, (hcredited.mem_tail_iff hne).mpr hr, hg, hk⟩

/-- **A passed test emits the functions near its body, each once with its distance;** any
    other test emits nothing. -/
theorem emitted_emits (hphony : functions.head? = some ⟨none, none⟩)
    (hdistinct : DistinctFunctions functions) (hrange : InRange functions.length events)
    (hrun : record .initial events = some info) (hbody : test.testBody = some body)
    (hd : 0 ≤ maxDistance) (status : ExecutionStatus) :
    ∃ storage, emitted functions maxDistance ⟨test, status, info⟩ = .ok storage ∧
      Emits functions events test body maxDistance (status = .passed) storage := by
  obtain ⟨result, callTree, mapping, htree, hresult, hcredited⟩ : ∃ result callTree mapping,
      createCallTree functions.length info.callTreeMapping functions = .ok (callTree, mapping) ∧
      getReachableFunctions functions info test maxDistance = .ok result ∧
      Credited functions events callTree test body maxDistance result := by
    by_cases htable : ∃ t, tableOf functions t = some body
    · obtain ⟨t, ht⟩ := htable
      exact credited_of_table hphony hdistinct hrange hrun ht hbody hd
    · exact credited_of_not_table hphony hrange hrun (not_exists.mp htable) hbody
  by_cases hpassed : status = .passed
  · have hemits := emits_of_credited hresult hcredited fun k g =>
      descendantOf_iff_reachesAt hphony hdistinct hrange hrun htree
    refine ⟨result.tail, ?_, hemits.once, hemits.own, fun g k => ?_⟩
    · rw [emitted, reachableFunctions, if_pos hpassed, hresult]
      rfl
    · rw [hemits.near, eq_true hpassed]
  · refine ⟨[], ?_, List.nodup_nil, by simp, fun g k => ?_⟩
    · rw [emitted, reachableFunctions, if_neg hpassed]
      rfl
    · simp [hpassed]

end Emitted

end Mull.DynamicCallTree

namespace Mull.Driver

open IR Mutators MutatorsFactory MutationPoints MutationsFinder FunctionsUnderTest Grouping

section Selection

variable {inputs : Inputs}

/-! ### The tests of a function -/

/-- The test passed on the original program, and the function is at distance `k` from it. -/
def Reaches (inputs : Inputs) (test : DynamicCallTree.Test FunctionId) (k : Nat)
    (function : FunctionId) : Prop :=
  (inputs.originalResult test.id).status = .passed ∧ (k : Int) ≤ inputs.maxDistance ∧
    ∃ body, test.testBody = some body ∧ function ≠ body ∧
      DynamicCallTree.ReachesAt inputs.functions (inputs.events test.id) body k function

/-- A list of the tests that reach a function, in the order of the tests, each once and with
    its distance. -/
structure Selects (inputs : Inputs) (function : FunctionId) (tests : List (Nat × Int)) : Prop where
  order : (tests.map Prod.fst).Sublist (inputs.tests.map (·.id))
  distances : ∀ entry ∈ tests, ∃ k : Nat, entry.2 = k
  tests : ∀ test ∈ inputs.tests, ∀ k : Nat,
    (test.id, (k : Int)) ∈ tests ↔ Reaches inputs test k function

/-- The tests can be told apart, every one of them has a body, and the table of functions
    has no function twice. -/
structure Distinguished (inputs : Inputs) : Prop where
  tests : (inputs.tests.map (·.id)).Nodup
  bodies : ∀ test ∈ inputs.tests, test.testBody ≠ none
  functions : DynamicCallTree.DistinctFunctions inputs.functions
  maxDistance : 0 ≤ inputs.maxDistance

/-- What the stage of the original tests leaves of one test. -/
structure ReachedBy (inputs : Inputs) (test : DynamicCallTree.Test FunctionId)
    (reachable : List MutationsFinder.ReachableFunction) : Prop where
  once : (reachable.map (·.function)).Nodup
  own : ∀ r ∈ reachable, r.test = test.id ∧ ∃ k : Nat, r.distance = k
  near : ∀ (function : FunctionId) (k : Nat),
    ⟨function, test.id, k⟩ ∈ reachable ↔ Reaches inputs test k function

theorem reached_reachedBy (h : Distinguished inputs) {test : DynamicCallTree.Test FunctionId}
    (htest : test ∈ inputs.tests) : ReachedBy inputs test (reached inputs test) := by
  obtain ⟨body, hbody⟩ := Option.ne_none_iff_exists'.mp (h.bodies test htest)
  obtain ⟨info, storage, hrun, hstorage, hreached⟩ := reached_eq htest
  obtain ⟨storage', hstorage', hemits⟩ := DynamicCallTree.emitted_emits inputs.phony h.functions
    (inputs.inRange test htest) hrun hbody h.maxDistance (inputs.originalResult test.id).status
  obtain rfl := Except.ok.inj (hstorage.symm.trans hstorage')
  have hmem : ∀ r, r ∈ reached inputs test ↔ ∃ s ∈ storage, s.function = some r.function ∧
      s.test.id = r.test ∧ s.distance = r.distance := by
    intro r
    rw [hreached, List.mem_filterMap]
    refine exists_congr fun s => and_congr_right fun _ => ?_
    rw [Option.map_eq_some_iff]
    constructor
    · rintro ⟨function, hfunction, rfl⟩
      exact ⟨hfunction, rfl, rfl⟩
    · rintro ⟨hfunction, htest, hdistance⟩
      exact ⟨r.function, hfunction, by rw [htest, hdistance]⟩
  constructor
  case once =>
    rw [hreached, List.map_filterMap]
    have hkeys : (storage.filterMap fun s => (s.function.map fun function =>
        (⟨function, s.test.id, s.distance⟩ : MutationsFinder.ReachableFunction)).map
          (·.function)) = (storage.map (·.function)).filterMap id := by
      rw [List.filterMap_map]
      refine List.filterMap_congr fun s _ => ?_
      rw [Option.map_map]
      exact Option.map_id'
    rw [hkeys]
    exact hemits.once.filterMap fun a b function ha hb => ha.trans hb.symm
  case own =>
    intro r hr
    obtain ⟨s, hs, -, hid, hdistance⟩ := (hmem r).mp hr
    obtain ⟨hown, k, hk⟩ := hemits.own s hs
    exact ⟨by rw [← hid, hown], k, hdistance ▸ hk⟩
  case near =>
    intro function k
    rw [hmem]
    constructor
    · rintro ⟨s, hs, hfunction, -, hdistance⟩
      obtain ⟨hpassed, hne, hfar, hreaches⟩ :=
        (hemits.near function k).mp ⟨s, hs, hfunction, hdistance⟩
      exact ⟨hpassed, hfar, body, hbody, hne, hreaches⟩
    · rintro ⟨hpassed, hfar, body', hbody', hne, hreaches⟩
      obtain rfl := Option.some.inj (hbody.symm.trans hbody')
      obtain ⟨s, hs, hfunction, hdistance⟩ :=
        (hemits.near function k).mpr ⟨hpassed, hne, hfar, hreaches⟩
      exact ⟨s, hs, hfunction, by rw [(hemits.own s hs).1], hdistance⟩

/-- The tests that are collected for a function are those that reach it. -/
theorem entry_selects (h : Distinguished inputs) (function : FunctionId) :
    Selects inputs function (entry (reachableFunctions inputs) function).reachableTests := by
  have hgroup : ∀ r, r ∈ group ReachableFunction.function (reachableFunctions inputs) function ↔
      (∃ test ∈ inputs.tests, r ∈ reached inputs test) ∧ r.function = function := by
    intro r
    rw [group, List.mem_filter, decide_eq_true_iff, reachableFunctions, List.mem_flatMap]
  constructor
  case order =>
    rw [entry, List.map_map, reachableFunctions]
    have hsublist : ∀ tests : List (DynamicCallTree.Test FunctionId),
        (∀ test ∈ tests, test ∈ inputs.tests) →
        ((group ReachableFunction.function (tests.flatMap (reached inputs)) function).map
          (·.test)).Sublist (tests.map (·.id)) := by
      intro tests
      induction tests with
      | nil => exact fun _ => List.Sublist.refl _
      | cons test tests ih =>
          intro htests
          have hreached := reached_reachedBy h (htests test List.mem_cons_self)
          have hrest := ih fun t ht => htests t (List.mem_cons_of_mem _ ht)
          rw [List.flatMap_cons, group_append, List.map_append, List.map_cons]
          -- a test reaches the function once at most
          have hown : ∀ id ∈ (group ReachableFunction.function (reached inputs test) function).map
              (·.test), id = test.id := by
            intro id hid
            obtain ⟨r, hr, rfl⟩ := List.mem_map.mp hid
            exact (hreached.own r (List.mem_filter.mp hr).1).1
          have honce := group_length_le_one hreached.once (k := function)
          have hfirst : ((group ReachableFunction.function (reached inputs test) function).map
              (·.test)).Sublist [test.id] := by
            rw [List.eq_replicate_of_mem hown, List.length_map]
            exact List.replicate_sublist_replicate test.id |>.mpr honce
          exact hfirst.append hrest
    exact hsublist inputs.tests fun _ ht => ht
  case distances =>
    intro pair hpair
    obtain ⟨r, hr, rfl⟩ := List.mem_map.mp hpair
    obtain ⟨⟨test, htest, hreached⟩, -⟩ := (hgroup r).mp hr
    exact ((reached_reachedBy h htest).own r hreached).2
  case tests =>
    intro test htest k
    rw [entry, List.mem_map]
    constructor
    · rintro ⟨r, hr, heq⟩
      obtain ⟨⟨test', htest', hreached⟩, rfl⟩ := (hgroup r).mp hr
      obtain ⟨hid, hdistance⟩ := Prod.mk.inj heq
      have hsame : test' = test := List.inj_on_of_nodup_map h.tests htest' htest
        (((reached_reachedBy h htest').own r hreached).1.symm.trans hid)
      subst hsame
      apply ((reached_reachedBy h htest).near r.function k).mp
      rwa [← hid, ← hdistance]
    · intro hreaches
      have hmem := ((reached_reachedBy h htest).near function k).mpr hreaches
      exact ⟨_, (hgroup _).mpr ⟨⟨test, htest, hmem⟩, rfl⟩, rfl⟩

/-- The order, the distances and the tests leave no choice. -/
theorem Selects.unique (h : Distinguished inputs) {function : FunctionId}
    {tests tests' : List (Nat × Int)} (hselects : Selects inputs function tests)
    (hselects' : Selects inputs function tests') : tests = tests' := by
  have hsubset : ∀ {tests tests' : List (Nat × Int)}, Selects inputs function tests →
      Selects inputs function tests' → ∀ entry ∈ tests, entry ∈ tests' := by
    intro tests tests' hselects hselects' entry hentry
    obtain ⟨k, hk⟩ := hselects.distances entry hentry
    obtain ⟨test, htest, hid⟩ :=
      List.mem_map.mp (hselects.order.subset (List.mem_map_of_mem hentry))
    have heq : entry = (test.id, (k : Int)) := Prod.ext hid.symm hk
    rw [heq] at hentry ⊢
    exact (hselects'.tests test htest k).mpr ((hselects.tests test htest k).mp hentry)
  have hmem : ∀ entry, entry ∈ tests ↔ entry ∈ tests' := fun entry =>
    ⟨hsubset hselects hselects' entry, hsubset hselects' hselects entry⟩
  exact eq_of_map_sublist h.tests hselects.order hselects'.order hmem

/-! ### The mutants -/

/-- The function that a point lies in. -/
def functionOf (point : MutationPoint) : FunctionId := (point.bitcode, point.address.functionIndex)

/-- A mutator finds the point at its instruction.  The filters of instructions do not bind
    the two logical mutators. -/
structure FoundAt (inputs : Inputs) (bitcode : Bitcode) (instruction : IR.Instruction)
    (point : MutationPoint) : Prop where
  file : inputs.program.bitcode[point.bitcode]? = some bitcode
  place : point.address.findInstruction (body inputs.program (functionOf point)) = some instruction
  mutator : point.mutator ∈ inputs.mutators
  selected : (point.mutator.search = .logicalAnd ∨ point.mutator.search = .logicalOr) ∨
    isSkipped inputs.instructionFilters (functionOf point) point.address = false
  mutation : point.irMutator ∈ mutationsAt inputs.irm point.mutator
    (body inputs.program (functionOf point)) point.address instruction
  created : point = { MutationPoint.create point.mutator point.irMutator point.address instruction
    point.bitcode bitcode with reachableTests := point.reachableTests }

/-- What makes a mutation of the program a mutant of the run. -/
structure IsMutant (inputs : Inputs) (point : MutationPoint) : Prop where
  tests : Selects inputs (functionOf point) point.reachableTests
  reached : point.reachableTests ≠ []
  functionFilters : ∀ shouldSkip ∈ inputs.functionFilters, shouldSkip (functionOf point) = false
  mutationFilters : ∀ shouldSkip ∈ inputs.mutationFilters, shouldSkip point = false
  found : ∃ bitcode instruction, FoundAt inputs bitcode instruction point

theorem mem_instructionAddresses_of_find {blocks : List IR.Block} {address : MutationPointAddress}
    {instruction : IR.Instruction} (h : address.findInstruction blocks = some instruction) :
    address ∈ instructionAddresses address.functionIndex blocks := by
  obtain ⟨block, hblock, hinstruction⟩ := Option.bind_eq_some_iff.mp h
  refine List.mem_flatMap.mpr ⟨(block, address.basicBlockIndex),
    List.mk_mem_zipIdx_iff_getElem?.mpr hblock, ?_⟩
  refine List.mem_map.mpr ⟨address.instructionIndex, List.mem_range.mpr ?_, rfl⟩
  exact (List.getElem?_eq_some_iff.mp hinstruction).1

/-- The instructions of a function that a mutator goes through. -/
theorem mem_visitedInstructions_iff {mutator : Mutator} {function : FunctionId}
    {tests : List (Nat × Int)} {address : MutationPointAddress} {instruction : IR.Instruction}
    (hplace : address.findInstruction (body inputs.program function) = some instruction) :
    address ∈ visitedInstructions mutator (body inputs.program function)
        (selectInstructions inputs.program inputs.instructionFilters ⟨function, tests, []⟩) ↔
      address.functionIndex = function.2 ∧
        ((mutator.search = .logicalAnd ∨ mutator.search = .logicalOr) ∨
          isSkipped inputs.instructionFilters function address = false) := by
  have hmem : address ∈ instructionAddresses function.2 (body inputs.program function) ↔
      address.functionIndex = function.2 := by
    constructor
    · exact mem_instructionAddresses
    · intro hindex
      rw [← hindex]
      exact mem_instructionAddresses_of_find hplace
  by_cases hlogical : mutator.search = .logicalAnd ∨ mutator.search = .logicalOr
  · have hvisited : visitedInstructions mutator (body inputs.program function)
        (selectInstructions inputs.program inputs.instructionFilters ⟨function, tests, []⟩) =
        instructionAddresses function.2 (body inputs.program function) := by
      rcases hlogical with h | h
      · rw [visitedInstructions, h]
        rfl
      · rw [visitedInstructions, h]
        rfl
    rw [hvisited, hmem, and_iff_left (.inl hlogical)]
  · rw [(lowLevel_of_not_logical hlogical).1, mem_selectInstructions, hmem, or_iff_right hlogical]

theorem mem_searchFunction_iff {functionUnderTest : FunctionUnderTest} {point : MutationPoint} :
    point ∈ searchFunction inputs.irm inputs.program inputs.mutators functionUnderTest ↔
      ∃ bitcode instruction,
        inputs.program.bitcode[functionUnderTest.function.1]? = some bitcode ∧
        point.mutator ∈ inputs.mutators ∧
        point.address.findInstruction (body inputs.program functionUnderTest.function) =
          some instruction ∧
        point.address ∈ visitedInstructions point.mutator
          (body inputs.program functionUnderTest.function) functionUnderTest ∧
        point.irMutator ∈ mutationsAt inputs.irm point.mutator
          (body inputs.program functionUnderTest.function) point.address instruction ∧
        point = { MutationPoint.create point.mutator point.irMutator point.address instruction
          functionUnderTest.function.1 bitcode with
            reachableTests := functionUnderTest.reachableTests } := by
  unfold searchFunction
  cases hfile : inputs.program.bitcode[functionUnderTest.function.1]? with
  | none => simp
  | some bitcode =>
      simp only [List.mem_flatMap, List.mem_map, getMutations]
      constructor
      · rintro ⟨mutator, hmutator, made, ⟨address, hvisited, hmade⟩, rfl⟩
        cases hplace : address.findInstruction (body inputs.program functionUnderTest.function) with
        | none => simp [hplace] at hmade
        | some instruction =>
            rw [hplace] at hmade
            obtain ⟨mutation, hmutation, rfl⟩ := List.mem_map.mp hmade
            exact ⟨bitcode, instruction, rfl, hmutator, hplace, hvisited, hmutation, rfl⟩
      · rintro ⟨_, instruction, ⟨rfl⟩, hmutator, hplace, hvisited, hmutation, hcreated⟩
        refine ⟨point.mutator, hmutator, .create point.mutator point.irMutator point.address
          instruction functionUnderTest.function.1 bitcode, ⟨point.address, hvisited, ?_⟩, ?_⟩
        · rw [hplace]
          exact List.mem_map_of_mem hmutation
        · exact hcreated.symm

/-- The functions under test are those that a test reaches and no filter skips. -/
theorem mem_foundPoints_iff {point : MutationPoint} :
    point ∈ foundPoints inputs ↔ ∃ function,
      (entry (reachableFunctions inputs) function).reachableTests ≠ [] ∧
      (∀ shouldSkip ∈ inputs.functionFilters, shouldSkip function = false) ∧
      point ∈ searchFunction inputs.irm inputs.program inputs.mutators
        (selectInstructions inputs.program inputs.instructionFilters
          (entry (reachableFunctions inputs) function)) := by
  have hmerged : MutationsFinder.mergeReachableFunctions (reachableFunctions inputs) =
      (keys ReachableFunction.function (reachableFunctions inputs)).map
        (entry (reachableFunctions inputs)) :=
    (mergeReachableFunctions_eq (fun _ => 0) _).symm.trans (mergeReachableFunctions_eq_keys _ _)
  have hkeys : ∀ function, function ∈ keys ReachableFunction.function (reachableFunctions inputs) ↔
      (entry (reachableFunctions inputs) function).reachableTests ≠ [] := by
    intro function
    rw [mem_keys, entry, ne_eq, List.map_eq_nil_iff]
    constructor
    · intro hmem
      obtain ⟨r, hr, hfunction⟩ := List.mem_map.mp hmem
      exact List.ne_nil_of_mem (List.mem_filter.mpr ⟨hr, decide_eq_true hfunction⟩)
    · intro hne
      by_contra hnot
      exact hne (group_eq_nil hnot)
  rw [foundPoints, getMutationPoints, List.mem_flatMap, functionsUnderTest, hmerged]
  constructor
  · rintro ⟨functionUnderTest, hmem, hpoint⟩
    obtain ⟨kept, hkept, rfl⟩ := List.mem_map.mp hmem
    obtain ⟨hentry, hfilters⟩ := List.mem_filter.mp hkept
    obtain ⟨function, hfunction, rfl⟩ := List.mem_map.mp hentry
    refine ⟨function, (hkeys function).mp hfunction, fun shouldSkip hshould => ?_, hpoint⟩
    simpa [entry] using List.all_eq_true.mp hfilters shouldSkip hshould
  · rintro ⟨function, hne, hfilters, hpoint⟩
    refine ⟨_, List.mem_map_of_mem (List.mem_filter.mpr ⟨List.mem_map_of_mem
      ((hkeys function).mpr hne), ?_⟩), hpoint⟩
    apply List.all_eq_true.mpr
    intro shouldSkip hshould
    simpa [entry] using hfilters shouldSkip hshould

/-- **The mutation points of a run are the mutants.** -/
theorem mem_mutationPoints_iff (h : Distinguished inputs) {point : MutationPoint} :
    point ∈ mutationPoints inputs ↔ IsMutant inputs point := by
  rw [mutationPoints, TaskExecutor.keep, List.mem_filter, List.all_eq_true, mem_foundPoints_iff]
  constructor
  · rintro ⟨⟨function, hne, hfilters, hpoint⟩, hkept⟩
    obtain ⟨bitcode, instruction, hfile, hmutator, hplace, hvisited, hmutation, hcreated⟩ :=
      mem_searchFunction_iff.mp hpoint
    obtain ⟨hindex, hselected⟩ := (mem_visitedInstructions_iff hplace).mp hvisited
    have htests := congrArg MutationPoint.reachableTests hcreated
    have hbitcode : point.bitcode = function.1 := congrArg MutationPoint.bitcode hcreated
    obtain rfl : functionOf point = function := Prod.ext hbitcode hindex
    refine ⟨?_, ?_, hfilters, fun shouldSkip hshould => by simpa using hkept shouldSkip hshould,
      bitcode, instruction, hfile, hplace, hmutator, hselected, hmutation, ?_⟩
    · rw [htests]
      exact entry_selects h _
    · rw [htests]
      exact hne
    · rw [htests]
      exact hcreated
  · rintro ⟨htests, hne, hfilters, hkept, bitcode, instruction, hfound⟩
    have heq := htests.unique h (entry_selects h (functionOf point))
    refine ⟨⟨functionOf point, heq ▸ hne, hfilters, ?_⟩,
      fun shouldSkip hshould => by simpa using hkept shouldSkip hshould⟩
    refine mem_searchFunction_iff.mpr ⟨bitcode, instruction, hfound.file, hfound.mutator,
      hfound.place, (mem_visitedInstructions_iff hfound.place).mpr ⟨rfl, hfound.selected⟩,
      hfound.mutation, ?_⟩
    have hcreated := hfound.created
    rw [heq] at hcreated
    exact hcreated

/-! ### The results -/

/-- The mutants of the run, and one result for each mutant and each test that reaches it. -/
structure TestsMutants (inputs : Inputs) (points : List MutationPoint)
    (results : List MutationResult) : Prop where
  mutants : ∀ point, point ∈ points ↔ IsMutant inputs point
  results : results.map (fun result => (result.mutationPoint, result.test, result.distance)) =
    points.flatMap fun point => point.reachableTests.map fun (test, distance) =>
      (point, test, distance)

/-- **A run tests the mutants.**  Whatever the numbers of workers, the schedules and the
    addresses of the functions are: the mutation points of a run are the mutations that its
    mutators find, and no filter skips, in the functions that a passed test reaches; and
    each of them is run once against each test that reaches its function, in the order of
    the tests and at the distance from the test body. -/
theorem runs_test_mutants (inputs : Inputs) (parallelization : Parallelization)
    (addressOf : FunctionId → Nat) (points : List MutationPoint) (results : List MutationResult)
    (h : Distinguished inputs) (hruns : Runs inputs parallelization addressOf points results) :
    TestsMutants inputs points results := by
  obtain ⟨-, rfl, rfl⟩ := runs_iff.mp hruns
  refine ⟨fun point => mem_mutationPoints_iff h, ?_⟩
  rw [mutationResults, List.map_flatMap]
  refine List.flatMap_congr fun point _ => ?_
  split
  · rw [dryRunMutant, List.map_map]
    rfl
  · exact Reporters.executeMutant_key inputs.failFastEnabled point

end Selection

/-- The test body is function 2 and calls function 1. -/
def callingEvents : List DynamicCallTree.Event := [.enter 2, .enter 1, .leave 1, .leave 2]

theorem inRange_callingEvents : DynamicCallTree.InRange 3 callingEvents := by
  simp [callingEvents, DynamicCallTree.InRange, DynamicCallTree.Event.functionIndex]

theorem leavesNonEmpty_callingEvents : DynamicCallTree.LeavesNonEmpty 0 callingEvents := by
  simp [callingEvents, DynamicCallTree.LeavesNonEmpty]

/-- A test whose body calls the one other function of the program. -/
def callingTest : Inputs where
  program := ⟨[MutantExecution.comparisons ["is_zero", "test_is_zero"]], List.nodup_singleton _⟩
  functions := [⟨none, none⟩, ⟨some (0, 0), none⟩, ⟨some (0, 1), none⟩]
  phony := rfl
  tests := [⟨0, some (0, 1)⟩]
  originalResult _ := { ExecutionResult.initial with status := .passed }
  events _ := callingEvents
  inRange _ _ := inRange_callingEvents
  leaves _ _ := leavesNonEmpty_callingEvents
  maxDistance := 128
  functionFilters := []
  instructionFilters := []
  mutationFilters := []
  irm mutation instruction := mutation = .cmp .icmpEq .icmpNe && instruction matches
    .compute (.icmp 32) _ _
  mutators := [negateConditionMutator]
  mutation := MutantExecution.negateCondition
  dryRunEnabled := false
  failFastEnabled := false
  mutantResult _ _ := { ExecutionResult.initial with status := .passed }
  valid := manyTests.valid

/-- Its function has a mutant, at distance 1 from the test. -/
theorem runs_test_mutants_callingTest :
    ((mutationPoints callingTest).map fun point => (functionOf point, point.reachableTests)) =
        [((0, 0), [(0, 1)])] ∧
      TestsMutants callingTest (mutationPoints callingTest) (mutationResults callingTest) := by
  have hdistinguished : Distinguished callingTest :=
    ⟨List.nodup_singleton _, by simp [callingTest],
      by simp [callingTest, DynamicCallTree.DistinctFunctions], by decide⟩
  have hpoints : ((mutationPoints callingTest).map fun point =>
      (functionOf point, point.reachableTests)) = [((0, 0), [(0, 1)])] := by
    rfl
  refine ⟨hpoints, ?_⟩
  refine runs_test_mutants callingTest oneWorker (fun f => f.2) _ _ hdistinguished
    (runs_iff.mpr ⟨?_, rfl, rfl⟩)
  constructor
  case bitcode => exact .inl rfl
  case tests => exact .inl rfl
  case functionFilters => trivial
  case functions => exact .inl rfl
  case mutationFilters => trivial
  case mutants => exact .inl rfl

end Mull.Driver
