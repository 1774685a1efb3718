import Mull.Reachability
import Mull.ProcessSandbox

/-!
# What a test is credited with

`OriginalTestExecutionTask` runs every test once and asks the instrumentation for the
functions it reached.  The first of them is the test body, which is dropped; the others
are the functions whose mutants the test will be run against.

`record_credits` says what the list is, in terms of the call tree and of the events: its
order, its distances, and for every function a chain of calls that starts at the test body.
-/

namespace Mull.DynamicCallTree

open ParentForest QueueWalk

variable {F : Type}

/-! ### The task -/

/-- What the task gets of a test from the sandbox: the outcome, and what the callbacks
    have recorded. -/
structure TestRun (F : Type) where
  test : Test F
  status : ExecutionStatus
  info : InstrumentationInfo

section Task

variable [DecidableEq F] (functions : List (CallTreeFunction F)) (maxDistance : Int)

/-- The functions of one test; a test that does not pass is credited with nothing. -/
def reachableFunctions (run : TestRun F) : Except Failure (List (ReachableFunction F)) :=
  if run.status = .passed then getReachableFunctions functions run.info run.test maxDistance
  else .ok []

/-- All functions but the first. -/
def emitted (run : TestRun F) : Except Failure (List (ReachableFunction F)) :=
  (reachableFunctions functions maxDistance run).map List.tail

/-- `OriginalTestExecutionTask::operator()`. -/
def originalTestExecutionTask (runs : List (TestRun F)) :
    Except Failure (List (ReachableFunction F)) :=
  runs.foldlM (fun storage run => (emitted functions maxDistance run).map (storage ++ ·)) []

end Task

/-! ### Depths in the call tree -/

section Depth

variable {n : Nat} {mapping level : Nat → Nat} {table : Nat → Option F} {done : List Nat}

theorem descendantAt_callTreeOf_iff (hm : Leveled n mapping level)
    (hdone : ∀ i, i ∈ done ↔ mapping i ≠ 0) {k t : Nat} {node : CallTree F} :
    DescendantAt CallTree.children k (callTreeOf n mapping level table done t) node ↔
      ∃ f, node = callTreeOf n mapping level table done f ∧
        DescendantAt (childIndices mapping done) k t f := by
  constructor
  · intro h
    generalize hroot : callTreeOf n mapping level table done t = root at h
    induction h with
    | refl s => exact ⟨t, hroot.symm, .refl t⟩
    | tail _ hc ih =>
        obtain ⟨f, rfl, hf⟩ := ih hroot
        rw [children_callTreeOf hm hdone, List.mem_map] at hc
        obtain ⟨g, hg, rfl⟩ := hc
        exact ⟨g, rfl, hf.tail hg⟩
  · rintro ⟨f, rfl, h⟩
    induction h with
    | refl t => exact .refl _
    | tail _ hc ih =>
        refine ih.tail ?_
        rw [children_callTreeOf hm hdone]
        exact List.mem_map_of_mem hc

theorem level_of_descendantAt (hm : Leveled n mapping level)
    (hdone : ∀ i, i ∈ done ↔ mapping i ≠ 0) {k t f : Nat}
    (h : DescendantAt (childIndices mapping done) k t f) : level f = level t + k := by
  induction h with
  | refl => rfl
  | @tail k t p c _ hc ih =>
      have hcall := (mem_childIndices_iff hdone).mp hc
      have hstep := hm.level_parent c hcall.1
      rw [hcall.2, ih] at hstep
      omega

/-- A node at some distance below another one lies that many levels below. -/
theorem descendantAt_iff_below (hm : Leveled n mapping level)
    (hdone : ∀ i, i ∈ done ↔ mapping i ≠ 0) {k t f : Nat} :
    DescendantAt (childIndices mapping done) k t f ↔
      Below mapping t f ∧ (level f : Int) - level t = k := by
  constructor
  · intro h
    have hlevel := level_of_descendantAt hm hdone h
    refine ⟨(descendant_childIndices_iff hdone).mp h.descendant, ?_⟩
    omega
  · rintro ⟨hbelow, hk⟩
    obtain ⟨j, hj⟩ := exists_descendantAt _ ((descendant_childIndices_iff hdone).mpr hbelow)
    have hlevel := level_of_descendantAt hm hdone hj
    obtain rfl : j = k := by omega
    exact hj

end Depth

/-! ### The list of a test -/

/-- In the call tree, `g` is a descendant of `body` at depth `k`. -/
def DescendantOf (callTree : CallTree F) (body : F) (k : Nat) (g : F) : Prop :=
  ∃ root node, Descendant CallTree.children callTree root ∧ root.function = some body ∧
    DescendantAt CallTree.children k root node ∧ node.function = some g

/-- The function was entered during the run. -/
def Entered (functions : List (CallTreeFunction F)) (events : List Event) (body : F) : Prop :=
  ∃ t, tableOf functions t = some body ∧ Event.enter t ∈ events

/-- A chain of `k` calls from `body` to `g`: each function was entered at a moment when
    the one before it was on top of the stack. -/
def CallChain (functions : List (CallTreeFunction F)) (events : List Event) (body : F) (k : Nat)
    (g : Option F) : Prop :=
  ∃ path : Nat → Nat, tableOf functions (path 0) = some body ∧ tableOf functions (path k) = g ∧
    ∀ i < k, (some (path i), path (i + 1)) ∈ calls [] events

/-- What a test with that body is credited with. -/
structure Credited (functions : List (CallTreeFunction F)) (events : List Event)
    (callTree : CallTree F) (test : Test F) (body : F) (maxDistance : Int)
    (result : List (ReachableFunction F)) : Prop where
  never : ¬ Entered functions events body → result = []
  first : Entered functions events body → result.head? = some ⟨some body, test, 0⟩
  nodup : (result.map (·.function)).Nodup
  sorted : result.Pairwise fun r s => r.distance ≤ s.distance
  bounded : ∀ r ∈ result, r.distance ≤ maxDistance
  depth : ∀ (g : F) (k : Nat), (∃ r ∈ result, r.function = some g ∧ r.distance = k) ↔
    (k : Int) ≤ maxDistance ∧ DescendantOf callTree body k g
  chain : ∀ r ∈ result, ∃ k : Nat, r.distance = k ∧
    CallChain functions events body k r.function

theorem mem_calls_of_enter {stack : List Nat} {events : List Event} {f : Nat}
    (h : Event.enter f ∈ events) : ∃ caller, (caller, f) ∈ calls stack events := by
  induction events generalizing stack with
  | nil => cases h
  | cons event events ih =>
      rcases List.mem_cons.mp h with heq | hlater
      · subst heq
        exact ⟨stack.head?, List.mem_cons_self⟩
      · cases event with
        | enter g =>
            obtain ⟨caller, hcaller⟩ := @ih (g :: stack) hlater
            exact ⟨caller, List.mem_cons_of_mem _ hcaller⟩
        | leave g => exact ih hlater

/-- A function has an entry in the mapping if and only if it was entered. -/
theorem mapping_ne_zero_iff {n : Nat} {events : List Event} {info : InstrumentationInfo}
    (hrange : InRange n events) (h : record .initial events = some info) {t : Nat} (ht : t ≠ 0) :
    info.callTreeMapping t ≠ 0 ↔ Event.enter t ∈ events := by
  rw [((agrees_of_record hrange h).2 t ht).ne_zero_iff ht]
  exact ⟨fun ⟨_, hcall⟩ => enter_mem_of_mem_calls hcall, mem_calls_of_enter⟩

/-- Below a function other than the phony root, the edges of the tree are calls. -/
theorem callChain_of_descendantAt {functions : List (CallTreeFunction F)} {events : List Event}
    {info : InstrumentationInfo} {done : List Nat} (hrange : InRange functions.length events)
    (h : record .initial events = some info)
    (hdone : ∀ i, i ∈ done ↔ info.callTreeMapping i ≠ 0) {k t f : Nat} {body : F}
    (ht : tableOf functions t = some body) (ht0 : t ≠ 0)
    (hf : DescendantAt (childIndices info.callTreeMapping done) k t f) :
    CallChain functions events body k (tableOf functions f) := by
  obtain ⟨order, hrec⟩ := recorded_of_record hrange h
  obtain ⟨path, hstart, hend, hpath⟩ := hf.exists_path
  have hcall : ∀ i < k, Calls info.callTreeMapping (path i) (path (i + 1)) := fun i hi =>
    (mem_childIndices_iff hdone).mp (hpath i hi)
  have hnonzero : ∀ i ≤ k, path i ≠ 0 := by
    intro i hi
    cases i with
    | zero => exact hstart ▸ ht0
    | succ i =>
        intro hzero
        have hmapping := (hcall i hi).1
        rw [hzero] at hmapping
        exact hmapping hrec.zero
  refine ⟨path, hstart ▸ ht, hend ▸ rfl, fun i hi => ?_⟩
  exact ((calls_iff_recordedCall hrange h (hnonzero i hi.le)).mp (hcall i hi)).2.mem

theorem DistinctFunctions.tableOf_inj {functions : List (CallTreeFunction F)}
    (h : DistinctFunctions functions) {i j : Nat} (hi : i < functions.length)
    (hj : j < functions.length) (heq : tableOf functions i = tableOf functions j) : i = j := by
  have hget : ∀ k < functions.length,
      (functions.map (·.function))[k]? = some (tableOf functions k) := by
    intro k hk
    rw [List.getElem?_map, tableOf, List.getElem?_eq_getElem hk]
    rfl
  refine (List.getElem?_inj (by simpa using hi) h).mp ?_
  rw [hget i hi, hget j hj, heq]

section Credits

variable {functions : List (CallTreeFunction F)} {events : List Event} {info : InstrumentationInfo}
  {test : Test F} {body : F} {maxDistance : Int}

/-- The descendants of the test body, index by index. -/
theorem descendantOf_iff {mapping level : Nat → Nat} {done : List Nat}
    (hm : Leveled functions.length mapping level) (hdone : ∀ i, i ∈ done ↔ mapping i ≠ 0)
    (hdistinct : DistinctFunctions functions) {t : Nat} (ht : tableOf functions t = some body)
    (ht0 : t ≠ 0) {k : Nat} {g : F} :
    DescendantOf (callTreeOf functions.length mapping level (tableOf functions) done 0) body k g ↔
      mapping t ≠ 0 ∧ ∃ f, tableOf functions f = some g ∧ Below mapping t f ∧
        (level f : Int) - level t = k := by
  constructor
  · rintro ⟨root, node, hroot, hfunction, hnode, hg⟩
    obtain ⟨j, hj⟩ := exists_descendantAt _ hroot
    obtain ⟨t', rfl, ht'⟩ := (descendantAt_callTreeOf_iff hm hdone).mp hj
    rw [function_callTreeOf hm hdone] at hfunction
    obtain rfl := hdistinct.index_eq hfunction ht
    obtain ⟨f, rfl, hf⟩ := (descendantAt_callTreeOf_iff hm hdone).mp hnode
    rw [function_callTreeOf hm hdone] at hg
    refine ⟨?_, f, hg, (descendantAt_iff_below hm hdone).mp hf⟩
    rcases Relation.ReflTransGen.cases_tail
        ((descendantAt_iff_below hm hdone).mp ht').1 with heq | ⟨p, -, hcall⟩
    · exact absurd heq ht0
    · exact hcall.1
  · rintro ⟨hentered, f, hg, hf⟩
    obtain ⟨j, hj⟩ := exists_descendantAt _
      ((descendant_childIndices_iff hdone).mpr (below_zero hm hentered))
    have hroot := (@descendantAt_callTreeOf_iff F _ _ _ (tableOf functions) _ hm hdone _ _ _).mpr
      ⟨t, rfl, hj⟩
    have hnode := (@descendantAt_callTreeOf_iff F _ _ _ (tableOf functions) _ hm hdone _ _ _).mpr
      ⟨f, rfl, (descendantAt_iff_below hm hdone).mpr hf⟩
    exact ⟨_, _, hroot.descendant, by rw [function_callTreeOf hm hdone, ht], hnode,
      by rw [function_callTreeOf hm hdone, hg]⟩

/-- The walk below a test body that was entered gives a list as it should be. -/
theorem credited_of_visits {level : Nat → Nat} {done indices : List Nat}
    (hm : Leveled functions.length info.callTreeMapping level)
    (hdone : ∀ i, i ∈ done ↔ info.callTreeMapping i ≠ 0) (hdistinct : DistinctFunctions functions)
    (hrange : InRange functions.length events) (hrun : record .initial events = some info) {t : Nat}
    (ht : tableOf functions t = some body) (ht0 : t ≠ 0) (hd : 0 ≤ maxDistance)
    (hentered : info.callTreeMapping t ≠ 0) (hevents : Entered functions events body)
    (hindices : Visits (nearIndices info.callTreeMapping level done t maxDistance) level t indices) :
    Credited functions events
      (callTreeOf functions.length info.callTreeMapping level (tableOf functions) done 0) test body
      maxDistance
      (indices.map fun i => ⟨tableOf functions i, test, (level i : Int) - level t⟩) := by
  have hmem : ∀ i, i ∈ indices ↔
      Below info.callTreeMapping t i ∧ (level i : Int) - level t ≤ maxDistance := fun i => by
    rw [hindices.mem_iff, descendant_nearIndices_iff hm hdone hd]
  have hlt : ∀ i ∈ indices, i < functions.length := by
    intro i hi
    apply hm.range i
    rcases Relation.ReflTransGen.cases_tail ((hmem i).mp hi).1 with heq | ⟨p, -, hcall⟩
    · rw [heq]
      exact hentered
    · exact hcall.1
  constructor
  case never => exact fun hnot => absurd hevents hnot
  case first =>
    intro _
    rw [List.head?_map, hindices.head, Option.map_some, ht, sub_self]
  case nodup =>
    rw [List.map_map]
    exact hindices.nodup.map_on fun i hi j hj heq => hdistinct.tableOf_inj (hlt i hi) (hlt j hj) heq
  case sorted =>
    rw [List.pairwise_map]
    exact hindices.sorted.imp fun hij => Int.sub_le_sub_right hij _
  case bounded =>
    intro r hr
    obtain ⟨i, hi, rfl⟩ := List.mem_map.mp hr
    exact ((hmem i).mp hi).2
  case depth =>
    intro g k
    rw [descendantOf_iff hm hdone hdistinct ht ht0]
    constructor
    · rintro ⟨r, hr, hg, hk⟩
      obtain ⟨i, hi, rfl⟩ := List.mem_map.mp hr
      obtain ⟨hbelow, hfar⟩ := (hmem i).mp hi
      exact ⟨hk ▸ hfar, hentered, i, hg, hbelow, hk⟩
    · rintro ⟨hfar, -, f, hg, hbelow, hk⟩
      exact ⟨_, List.mem_map_of_mem ((hmem f).mpr ⟨hbelow, hk ▸ hfar⟩), hg, hk⟩
  case chain =>
    intro r hr
    obtain ⟨i, hi, rfl⟩ := List.mem_map.mp hr
    obtain ⟨k, hk⟩ := exists_descendantAt _
      ((descendant_childIndices_iff hdone).mpr ((hmem i).mp hi).1)
    exact ⟨k, ((descendantAt_iff_below hm hdone).mp hk).2,
      callChain_of_descendantAt hrange hrun hdone ht ht0 hk⟩

/-- What is left of the list without its first entry. -/
theorem Credited.tail {callTree : CallTree F} {result : List (ReachableFunction F)}
    (h : Credited functions events callTree test body maxDistance result) :
    (∀ r ∈ result.tail, r.function ≠ some body) ∧ (result.tail.map (·.function)).Nodup := by
  by_cases hentered : Entered functions events body
  · have hfirst := h.first hentered
    cases result with
    | nil => cases hfirst
    | cons first rest =>
        obtain rfl := Option.some.inj hfirst
        obtain ⟨hbody, hnodup⟩ := List.nodup_cons.mp h.nodup
        exact ⟨fun r hr heq => hbody (List.mem_map.mpr ⟨r, hr, heq⟩), hnodup⟩
  · simp [h.never hentered]

variable [DecidableEq F]

/-- The list of a test whose body is in the table. -/
theorem credited_of_table (hphony : functions.head? = some ⟨none, none⟩)
    (hdistinct : DistinctFunctions functions) (hrange : InRange functions.length events)
    (hrun : record .initial events = some info) {t : Nat} (ht : tableOf functions t = some body)
    (hbody : test.testBody = some body) (hd : 0 ≤ maxDistance) :
    ∃ result callTree mapping,
      createCallTree functions.length info.callTreeMapping functions = .ok (callTree, mapping) ∧
      getReachableFunctions functions info test maxDistance = .ok result ∧
      Credited functions events callTree test body maxDistance result := by
  have ht0 := ne_zero_of_tableOf hphony ht
  obtain ⟨order, hrec⟩ := recorded_of_record hrange hrun
  have hpos : 0 < functions.length := List.length_pos_of_mem (List.mem_of_head? hphony)
  have hm := hrec.leveled hpos
  have hentered : info.callTreeMapping t ≠ 0 ↔ Entered functions events body := by
    rw [mapping_ne_zero_iff hrange hrun ht0]
    refine ⟨fun h => ⟨t, ht, h⟩, fun ⟨t', ht', h⟩ => ?_⟩
    rwa [hdistinct.index_eq ht ht']
  obtain ⟨done, indices, hdone, htree, hindices, hresult⟩ :=
    getReachableFunctions_eq hm hphony hdistinct ht hbody maxDistance
  refine ⟨_, _, _, htree, hresult, ?_⟩
  by_cases hmapping : info.callTreeMapping t ≠ 0
  · simp only [if_pos hmapping]
    exact credited_of_visits hm hdone hdistinct hrange hrun ht ht0 hd hmapping
      (hentered.mp hmapping) hindices
  · simp only [if_neg hmapping]
    refine ⟨fun _ => rfl, fun h => absurd (hentered.mpr h) hmapping, by simp, by simp, by simp,
      fun g k => ?_, by simp⟩
    rw [descendantOf_iff hm hdone hdistinct ht ht0]
    simp [hmapping]

/-- A function outside of the table is nowhere in the tree. -/
theorem credited_of_not_table (hphony : functions.head? = some ⟨none, none⟩)
    (hrange : InRange functions.length events) (hrun : record .initial events = some info)
    (hnot : ∀ t, tableOf functions t ≠ some body) (hbody : test.testBody = some body) :
    ∃ result callTree mapping,
      createCallTree functions.length info.callTreeMapping functions = .ok (callTree, mapping) ∧
      getReachableFunctions functions info test maxDistance = .ok result ∧
      Credited functions events callTree test body maxDistance result := by
  obtain ⟨order, hrec⟩ := recorded_of_record hrange hrun
  have hpos : 0 < functions.length := List.length_pos_of_mem (List.mem_of_head? hphony)
  have hm := hrec.leveled hpos
  obtain ⟨done, hnodup, hdone, htree⟩ := createCallTree_spec hm hphony le_rfl
  have hsubtrees : extractTestSubtrees (callTreeOf functions.length info.callTreeMapping
      (levelOf info.callTreeMapping) (tableOf functions) done 0) test = [] := by
    obtain ⟨indices, hvisit, -⟩ := @exists_visits F _ _ _ (tableOf functions) _ hm hdone hnodup
      CallTree.children (childIndices info.callTreeMapping done) CallTree.sum_size_children_lt
      (children_callTreeOf hm hdone) (fun _ => .refl _) 0
    rw [extractTestSubtrees, hvisit, List.filter_eq_nil_iff]
    intro node hnode
    obtain ⟨i, -, rfl⟩ := List.mem_map.mp hnode
    rw [function_callTreeOf hm hdone, hbody, decide_eq_true_iff]
    exact hnot i
  refine ⟨[], _, _, htree, ?_, fun _ => rfl, ?_, by simp, by simp, by simp, fun g k => ?_, by simp⟩
  · simp only [getReachableFunctions, htree, hsubtrees]
    rfl
  · rintro ⟨t, ht, -⟩
    exact absurd ht (hnot t)
  · refine ⟨by simp, ?_⟩
    rintro ⟨-, root, node, hroot, hfunction, -⟩
    obtain ⟨j, hj⟩ := exists_descendantAt _ hroot
    obtain ⟨t, rfl, -⟩ := (descendantAt_callTreeOf_iff hm hdone).mp hj
    rw [function_callTreeOf hm hdone] at hfunction
    exact absurd hfunction (hnot t)

end Credits

end Mull.DynamicCallTree
