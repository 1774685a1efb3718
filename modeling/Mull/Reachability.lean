import Mull.CallTreeBuilder
import Mull.Lib.QueueWalk

/-!
# Reachable functions of a test

After a test ran, `Instrumentation::getReachableFunctions` builds the call tree,
looks for the nodes of the test body and walks the tree below them.  The array
of callers remembers one caller per function, so what is found below the test
body is decided by the *recorded* caller of each function: the function on top
of the stack at its first call, unless it was ever called on an empty stack.

`mem_reachableFunctions_iff` states what the walk reports in terms of the tree,
and `reachable_iff_recordedCalls` in terms of the events alone.
-/

namespace Mull.DynamicCallTree

open ParentForest QueueWalk

/-- The part of a `Test` that the instrumentation looks at. -/
structure Test (F : Type) where
  id : Nat
  testBody : Option F
deriving DecidableEq, Repr

structure ReachableFunction (F : Type) where
  function : Option F
  test : Test F
  distance : Int
deriving DecidableEq, Repr

variable {F : Type}

mutual

/-- The number of nodes of a tree. -/
def CallTree.size : CallTree F → Nat
  | .node _ _ _ children => 1 + CallTree.sizes children

def CallTree.sizes : List (CallTree F) → Nat
  | [] => 0
  | tree :: trees => tree.size + CallTree.sizes trees

end

theorem CallTree.sizes_eq_sum (trees : List (CallTree F)) :
    CallTree.sizes trees = (trees.map CallTree.size).sum := by
  induction trees with
  | nil => rfl
  | cons tree trees ih => simp only [CallTree.sizes, List.map_cons, List.sum_cons, ih]

theorem CallTree.sum_size_children_lt (tree : CallTree F) :
    (tree.children.map CallTree.size).sum < tree.size := by
  cases tree with
  | node function level index children =>
      simp only [CallTree.children, CallTree.size, CallTree.sizes_eq_sum]
      omega

/-- The nodes of a tree in the order of the queue loop, when the loop follows
    `children`.  The size of the tree bounds the number of iterations. -/
def visitNodes (children : CallTree F → List (CallTree F)) (root : CallTree F) :
    List (CallTree F) :=
  (walk children root.size [root]).getD []

/-- `DynamicCallTree::extractTestSubtrees`. -/
def extractTestSubtrees [DecidableEq F] (root : CallTree F) (test : Test F) :
    List (CallTree F) :=
  (visitNodes CallTree.children root).filter fun node => node.function = test.testBody

/-- The children that `createReachableFunctions` enqueues: all of them below
    `maxDistance`, none at that distance. -/
def nearChildren (offset maxDistance : Int) (node : CallTree F) : List (CallTree F) :=
  if node.level - offset < maxDistance then node.children else []

/-- `DynamicCallTree::createReachableFunctions`. -/
def createReachableFunctions (subtrees : List (CallTree F)) (test : Test F) (maxDistance : Int) :
    List (ReachableFunction F) :=
  subtrees.flatMap fun root =>
    (visitNodes (nearChildren root.level maxDistance) root).map fun node =>
      ⟨node.function, test, node.level - root.level⟩

/-- `Instrumentation::getReachableFunctions`.  No chain of callers is longer than
    the table, so its length is the fuel of the builder. -/
def getReachableFunctions [DecidableEq F] (functions : List (CallTreeFunction F))
    (info : InstrumentationInfo) (test : Test F) (distance : Int) :
    Except Failure (List (ReachableFunction F)) :=
  match createCallTree functions.length info.callTreeMapping functions with
  | .error failure => .error failure
  | .ok (callTree, _) =>
      .ok (createReachableFunctions (extractTestSubtrees callTree test) test distance)

/-! ### What the queue loops visit -/

theorem sum_size_nearChildren_lt (offset maxDistance : Int) (node : CallTree F) :
    ((nearChildren offset maxDistance node).map CallTree.size).sum < node.size := by
  have hall := CallTree.sum_size_children_lt node
  unfold nearChildren
  split
  · exact hall
  · simp only [List.map_nil, List.sum_nil]; omega

section Tree

variable {n : Nat} {mapping level : Nat → Nat} {table : Nat → Option F} {done : List Nat}

/-- `Calls mapping p f`: the node of `f` is a child of the node of `p`. -/
def Calls (mapping : Nat → Nat) (p f : Nat) : Prop := mapping f ≠ 0 ∧ parentIndex mapping f = p

/-- `Below mapping p f`: the node of `f` lies in the subtree of `p`. -/
abbrev Below (mapping : Nat → Nat) : Nat → Nat → Prop := Relation.ReflTransGen (Calls mapping)

/-- Every recorded function lies below the phony root. -/
theorem below_zero (hm : Leveled n mapping level) {f : Nat} (hf : mapping f ≠ 0) :
    Below mapping 0 f := by
  induction hk : level f using Nat.strong_induction_on generalizing f with
  | _ k ih =>
      have hcall : Calls mapping (parentIndex mapping f) f := ⟨hf, rfl⟩
      have hlevel := hm.level_parent f hf
      rcases hm.parent_entered f hf with hzero | hparent
      · rw [hzero] at hcall
        exact Relation.ReflTransGen.single hcall
      · exact (ih (level (parentIndex mapping f)) (by omega) hparent rfl).tail hcall

theorem children_callTreeOf (hm : Leveled n mapping level) (hdone : ∀ i, i ∈ done ↔ mapping i ≠ 0)
    (i : Nat) : (callTreeOf n mapping level table done i).children =
      (childIndices mapping done i).map (callTreeOf n mapping level table done) := by
  rw [callTreeOf_eq hm fun i => (hdone i).mp]
  rfl

theorem mem_childIndices_iff (hdone : ∀ i, i ∈ done ↔ mapping i ≠ 0) {p f : Nat} :
    f ∈ childIndices mapping done p ↔ Calls mapping p f := by
  rw [childIndices, List.mem_filter, decide_eq_true_iff, hdone]
  rfl

theorem level_callTreeOf (hm : Leveled n mapping level) (hdone : ∀ i, i ∈ done ↔ mapping i ≠ 0)
    (i : Nat) : (callTreeOf n mapping level table done i).level = level i := by
  rw [callTreeOf_eq hm fun i => (hdone i).mp]
  rfl

theorem function_callTreeOf (hm : Leveled n mapping level)
    (hdone : ∀ i, i ∈ done ↔ mapping i ≠ 0) (i : Nat) :
    (callTreeOf n mapping level table done i).function = table i := by
  rw [callTreeOf_eq hm fun i => (hdone i).mp]
  rfl

/-- What a walk below the node of `t` visits, when it follows some of the children. -/
structure Visits (kids : Nat → List Nat) (level : Nat → Nat) (t : Nat) (indices : List Nat) :
    Prop where
  head : indices.head? = some t
  nodup : indices.Nodup
  sorted : indices.Pairwise fun i j => (level i : Int) ≤ level j
  mem_iff : ∀ i, i ∈ indices ↔ Descendant kids t i

/-- The walk over the nodes is the image of a walk over the indices. -/
theorem exists_visits (hm : Leveled n mapping level) (hdone : ∀ i, i ∈ done ↔ mapping i ≠ 0)
    (hnodup : done.Nodup) {children : CallTree F → List (CallTree F)} {kids : Nat → List Nat}
    (hsize : ∀ t, ((children t).map CallTree.size).sum < t.size)
    (hkids : ∀ i, children (callTreeOf n mapping level table done i) =
      (kids i).map (callTreeOf n mapping level table done))
    (hsub : ∀ i, (kids i).Sublist (childIndices mapping done i)) (t : Nat) :
    ∃ indices, visitNodes children (callTreeOf n mapping level table done t) =
        indices.map (callTreeOf n mapping level table done) ∧ Visits kids level t indices := by
  have hcall : ∀ i, ∀ c ∈ kids i, Calls mapping i c := fun i c hc =>
    (mem_childIndices_iff hdone).mp ((hsub i).subset hc)
  have hlevel : ∀ i, ∀ c ∈ kids i, level c = level i + 1 := by
    intro i c hc
    have hstep := hm.level_parent c (hcall i c hc).1
    rwa [(hcall i c hc).2] at hstep
  obtain ⟨visited, hvisited⟩ := walk_total children CallTree.size hsize
    (callTreeOf n mapping level table done t).size [callTreeOf n mapping level table done t] (by simp)
  have himage := walk_map children (callTreeOf n mapping level table done) hkids
    (callTreeOf n mapping level table done t).size [t]
  rw [List.map_singleton, hvisited] at himage
  obtain ⟨indices, hindices, rfl⟩ := Option.map_eq_some_iff.mp himage.symm
  refine ⟨indices, by rw [visitNodes, hvisited, Option.getD_some], ?_, ?_, ?_, fun i => ?_⟩
  · obtain ⟨-, rest, -, -, rfl⟩ := walk_eq_some_cons kids hindices
    rfl
  · refine @walk_nodup _ kids level (fun i => (hnodup.filter _).sublist (hsub i)) ?_ ?_ _ _ _
      (List.pairwise_singleton _ _) hindices
    · intro i j c hi hj
      exact (hcall i c hi).2.symm.trans (hcall j c hj).2
    · intro i c hc
      rw [hlevel i c hc]
      omega
  · refine @walk_sorted _ kids (fun i => level i) (fun i c hc => ?_) _ _ _
      ⟨List.pairwise_singleton _ _, by simp⟩ hindices
    rw [hlevel i c hc]
    simp
  · rw [mem_walk_iff kids hindices]
    simp

/-- The descendants of a node are the nodes below it. -/
theorem descendant_childIndices_iff (hdone : ∀ i, i ∈ done ↔ mapping i ≠ 0) {p f : Nat} :
    Descendant (childIndices mapping done) p f ↔ Below mapping p f := by
  have hsame : (fun s t => t ∈ childIndices mapping done s) = Calls mapping := by
    funext s t
    exact propext (mem_childIndices_iff hdone)
  rw [Descendant, hsame]

/-- The indices of the children that are enqueued up to a distance. -/
def nearIndices (mapping level : Nat → Nat) (done : List Nat) (t : Nat) (maxDistance : Int)
    (i : Nat) : List Nat :=
  if (level i : Int) - level t < maxDistance then childIndices mapping done i else []

theorem nearChildren_callTreeOf (hm : Leveled n mapping level)
    (hdone : ∀ i, i ∈ done ↔ mapping i ≠ 0) (t : Nat) (maxDistance : Int) (i : Nat) :
    nearChildren (level t) maxDistance (callTreeOf n mapping level table done i) =
      (nearIndices mapping level done t maxDistance i).map
        (callTreeOf n mapping level table done) := by
  rw [nearChildren, nearIndices, level_callTreeOf hm hdone, children_callTreeOf hm hdone]
  split <;> rfl

/-- Cut at a distance, the descendants are the nodes below that are not further
    away: a node at distance `k` is reached through nodes at smaller distances. -/
theorem descendant_nearIndices_iff (hm : Leveled n mapping level)
    (hdone : ∀ i, i ∈ done ↔ mapping i ≠ 0) {maxDistance : Int} (hd : 0 ≤ maxDistance)
    (t f : Nat) :
    Descendant (nearIndices mapping level done t maxDistance) t f ↔
      Below mapping t f ∧ (level f : Int) - level t ≤ maxDistance := by
  constructor
  · intro h
    induction h with
    | refl => exact ⟨Relation.ReflTransGen.refl, by simpa using hd⟩
    | @tail f g _ hchild ih =>
        unfold nearIndices at hchild
        split at hchild
        · rename_i hnear
          have hcall := (mem_childIndices_iff hdone).mp hchild
          have hstep := hm.level_parent g hcall.1
          rw [hcall.2] at hstep
          refine ⟨ih.1.tail hcall, ?_⟩
          push_cast [hstep]
          omega
        · cases hchild
  · rintro ⟨hbelow, hfar⟩
    induction hbelow with
    | refl => exact Relation.ReflTransGen.refl
    | @tail f g _ hcall ih =>
        have hstep := hm.level_parent g hcall.1
        rw [hcall.2] at hstep
        push_cast [hstep] at hfar
        refine Relation.ReflTransGen.tail (ih (by omega)) ?_
        have hnear : (level f : Int) - level t < maxDistance := by omega
        simp only [nearIndices, hnear, if_true]
        exact (mem_childIndices_iff hdone).mpr hcall

end Tree

/-- No function is recorded twice. -/
def DistinctFunctions (functions : List (CallTreeFunction F)) : Prop :=
  (functions.map (·.function)).Nodup

theorem DistinctFunctions.index_eq {functions : List (CallTreeFunction F)}
    (h : DistinctFunctions functions) {i j : Nat} {f : F} (hi : tableOf functions i = some f)
    (hj : tableOf functions j = some f) : i = j := by
  have hget : ∀ k, tableOf functions k = some f →
      (functions.map (·.function))[k]? = some (some f) := by
    intro k hk
    rw [List.getElem?_map]
    cases hentry : functions[k]? with
    | none => simp [tableOf, hentry] at hk
    | some entry => simpa [tableOf, hentry] using hk
  have hlt : i < (functions.map (·.function)).length :=
    (List.getElem?_eq_some_iff.mp (hget i hi)).1
  exact (List.getElem?_inj hlt h).mp (by rw [hget i hi, hget j hj])

theorem filter_eq_of_nodup {indices : List Nat} (hnodup : indices.Nodup) (p : Nat → Bool) (t : Nat)
    (hp : ∀ i ∈ indices, p i = true ↔ i = t) :
    indices.filter p = if t ∈ indices then [t] else [] := by
  have hsame : indices.filter p = indices.filter (· == t) := by
    refine List.filter_congr fun i hi => Bool.eq_iff_iff.mpr ?_
    rw [hp i hi, beq_iff_eq]
  rw [hsame, List.filter_beq, hnodup.count]
  split <;> rfl

/-- The subtrees of a test: the node of its body, when the body was recorded. -/
theorem extractTestSubtrees_eq [DecidableEq F] {functions : List (CallTreeFunction F)}
    {mapping level : Nat → Nat} {done : List Nat} (hm : Leveled functions.length mapping level)
    (hdone : ∀ i, i ∈ done ↔ mapping i ≠ 0) (hnodup : done.Nodup)
    (hdistinct : DistinctFunctions functions) {test : Test F} {t : Nat} {body : F}
    (ht : tableOf functions t = some body) (ht0 : t ≠ 0) (hbody : test.testBody = some body) :
    extractTestSubtrees (callTreeOf functions.length mapping level (tableOf functions) done 0) test =
      if mapping t ≠ 0 then [callTreeOf functions.length mapping level (tableOf functions) done t]
      else [] := by
  obtain ⟨indices, hvisit, hindices⟩ := @exists_visits F _ _ _ (tableOf functions) _ hm hdone hnodup
    CallTree.children (childIndices mapping done) CallTree.sum_size_children_lt
    (children_callTreeOf hm hdone) (fun _ => .refl _) 0
  have hmem : t ∈ indices ↔ mapping t ≠ 0 := by
    rw [hindices.mem_iff, descendant_childIndices_iff hdone]
    constructor
    · intro hbelow
      rcases Relation.ReflTransGen.cases_tail hbelow with heq | ⟨p, -, hcall⟩
      · exact absurd heq ht0
      · exact hcall.1
    · exact below_zero hm
  have hfilter := filter_eq_of_nodup hindices.nodup
    (fun i => decide (tableOf functions i = some body)) t fun i _ => by
      rw [decide_eq_true_iff]
      exact ⟨fun hi => hdistinct.index_eq hi ht, fun heq => heq ▸ ht⟩
  rw [extractTestSubtrees, hvisit, List.filter_map, hbody]
  have hcomp : (fun node : CallTree F => decide (node.function = some body)) ∘
      callTreeOf functions.length mapping level (tableOf functions) done =
      fun i => decide (tableOf functions i = some body) := by
    funext i
    rw [Function.comp_apply, function_callTreeOf hm hdone]
  rw [hcomp, hfilter]
  simp only [hmem]
  split <;> rfl

theorem ne_zero_of_tableOf {functions : List (CallTreeFunction F)}
    (hphony : functions.head? = some ⟨none, none⟩) {t : Nat} {body : F}
    (ht : tableOf functions t = some body) : t ≠ 0 := by
  rintro rfl
  obtain ⟨rest, rfl⟩ := List.head?_eq_some_iff.mp hphony
  simp [tableOf] at ht

/-- **The list that `getReachableFunctions` returns.**  Empty without a call of the test
    body; otherwise the walk below the body, cut at the maximal distance. -/
theorem getReachableFunctions_eq [DecidableEq F] {functions : List (CallTreeFunction F)}
    {info : InstrumentationInfo} {level : Nat → Nat}
    (hm : Leveled functions.length info.callTreeMapping level)
    (hphony : functions.head? = some ⟨none, none⟩) (hdistinct : DistinctFunctions functions)
    {test : Test F} {t : Nat} {body : F} (ht : tableOf functions t = some body)
    (hbody : test.testBody = some body) (maxDistance : Int) :
    ∃ done indices, (∀ i, i ∈ done ↔ info.callTreeMapping i ≠ 0) ∧
      createCallTree functions.length info.callTreeMapping functions = .ok
        (callTreeOf functions.length info.callTreeMapping level (tableOf functions) done 0,
          fun _ => 0) ∧
      Visits (nearIndices info.callTreeMapping level done t maxDistance) level t indices ∧
      getReachableFunctions functions info test maxDistance = .ok
        (if info.callTreeMapping t ≠ 0 then
          indices.map fun i => ⟨tableOf functions i, test, (level i : Int) - level t⟩ else []) := by
  obtain ⟨done, hnodup, hdone, htree⟩ := createCallTree_spec hm hphony le_rfl
  have hsub : ∀ i, (nearIndices info.callTreeMapping level done t maxDistance i).Sublist
      (childIndices info.callTreeMapping done i) := by
    intro i
    unfold nearIndices
    split
    · exact List.Sublist.refl _
    · exact List.nil_sublist _
  obtain ⟨indices, hvisit, hindices⟩ := @exists_visits F _ _ _ (tableOf functions) _ hm hdone hnodup
    (nearChildren (level t) maxDistance) (nearIndices info.callTreeMapping level done t maxDistance)
    (sum_size_nearChildren_lt _ _) (nearChildren_callTreeOf hm hdone t maxDistance) hsub t
  refine ⟨done, indices, hdone, htree, hindices, ?_⟩
  simp only [getReachableFunctions, htree, createReachableFunctions,
    extractTestSubtrees_eq hm hdone hnodup hdistinct ht (ne_zero_of_tableOf hphony ht) hbody]
  by_cases hentered : info.callTreeMapping t ≠ 0
  · simp only [if_pos hentered, List.flatMap_singleton, level_callTreeOf hm hdone, hvisit,
      List.map_map]
    congr 1
    refine List.map_congr_left fun i _ => ?_
    rw [Function.comp_apply, function_callTreeOf hm hdone, level_callTreeOf hm hdone]
  · simp only [if_neg hentered, List.flatMap_nil]

/-- **What `getReachableFunctions` reports, in terms of the mapping.**  One entry
    for each function below the test body that is not further away than the
    maximal distance, with its distance in the call tree. -/
theorem mem_reachableFunctions_iff [DecidableEq F] {functions : List (CallTreeFunction F)}
    {info : InstrumentationInfo} {level : Nat → Nat}
    (hm : Leveled functions.length info.callTreeMapping level)
    (hphony : functions.head? = some ⟨none, none⟩) (hdistinct : DistinctFunctions functions)
    {test : Test F} {t : Nat} {body : F} (ht : tableOf functions t = some body)
    (hbody : test.testBody = some body) {maxDistance : Int} (hd : 0 ≤ maxDistance) :
    ∃ result, getReachableFunctions functions info test maxDistance = .ok result ∧
      ∀ r, r ∈ result ↔ info.callTreeMapping t ≠ 0 ∧ ∃ f, Below info.callTreeMapping t f ∧
        (level f : Int) - level t ≤ maxDistance ∧
        r = ⟨tableOf functions f, test, (level f : Int) - level t⟩ := by
  obtain ⟨done, indices, hdone, -, hindices, hresult⟩ :=
    getReachableFunctions_eq hm hphony hdistinct ht hbody maxDistance
  refine ⟨_, hresult, fun r => ?_⟩
  by_cases hentered : info.callTreeMapping t ≠ 0
  · simp only [if_pos hentered, List.mem_map, hindices.mem_iff,
      descendant_nearIndices_iff hm hdone hd]
    constructor
    · rintro ⟨f, ⟨hbelow, hfar⟩, rfl⟩
      exact ⟨hentered, f, hbelow, hfar, rfl⟩
    · rintro ⟨-, f, hbelow, hfar, rfl⟩
      exact ⟨f, ⟨hbelow, hfar⟩, rfl⟩
  · simp [hentered]

/-! ### What the report means for the events -/

/-- Every `leave` ends the call on top of the stack. -/
def ProperlyNested : List Nat → List Event → Prop
  | _, [] => True
  | stack, .enter f :: events => ProperlyNested (f :: stack) events
  | [], .leave _ :: _ => False
  | top :: stack, .leave f :: events => top = f ∧ ProperlyNested stack events

/-- `f` is entered at a moment when `t` is on the call stack, `t` itself counting
    as on the stack when it is entered. -/
def EnteredUnder (t f : Nat) : List Nat → List Event → Prop
  | _, [] => False
  | stack, .enter g :: events =>
      (g = f ∧ t ∈ g :: stack) ∨ EnteredUnder t f (g :: stack) events
  | stack, .leave _ :: events => EnteredUnder t f stack.tail events

theorem ProperlyNested.leavesNonEmpty {stack : List Nat} {events : List Event}
    (h : ProperlyNested stack events) : LeavesNonEmpty stack.length events := by
  induction events generalizing stack with
  | nil => cases stack <;> simp [LeavesNonEmpty]
  | cons event events ih =>
      cases event with
      | enter f => exact @ih (f :: stack) h
      | leave f =>
          cases stack with
          | nil => exact h.elim
          | cons top stack => exact ih h.2

section Recorded

variable {n : Nat} {events : List Event} {info : InstrumentationInfo}

/-- Away from the phony root, the edges of the call tree are the recorded calls. -/
theorem calls_iff_recordedCall (hrange : InRange n events)
    (h : record .initial events = some info) {p f : Nat} (hp : p ≠ 0) :
    Calls info.callTreeMapping p f ↔ RecordedCall (DynamicCallTree.calls [] events) p f := by
  obtain ⟨order, hrec⟩ := recorded_of_record hrange h
  by_cases hf : f = 0
  · subst hf
    constructor
    · intro hcall
      exact absurd hrec.zero hcall.1
    · intro hcall
      have hindex := hrange _ (enter_mem_of_mem_calls hcall.2.mem)
      simp [Event.functionIndex] at hindex
  · have hagrees := (agrees_of_record hrange h).2 f hf
    rw [hagrees.recordedCall_iff hp]
    unfold Calls parentIndex
    constructor
    · rintro ⟨hne, hparent⟩
      split at hparent
      · exact absurd hparent.symm hp
      · exact ⟨hparent, ‹_›⟩
    · rintro ⟨hentry, hself⟩
      rw [if_neg hself]
      exact ⟨hentry ▸ hp, hentry⟩

theorem below_iff_recordedCalls (hrange : InRange n events)
    (h : record .initial events = some info) {t f : Nat} (ht : t ≠ 0) :
    Below info.callTreeMapping t f ↔
      Relation.ReflTransGen (RecordedCall (DynamicCallTree.calls [] events)) t f := by
  obtain ⟨order, hrec⟩ := recorded_of_record hrange h
  constructor
  · intro hbelow
    -- no function below `t` has index zero, so every edge is a recorded call
    have hnonzero : f ≠ 0 ∧
        Relation.ReflTransGen (RecordedCall (DynamicCallTree.calls [] events)) t f := by
      induction hbelow with
      | refl => exact ⟨ht, Relation.ReflTransGen.refl⟩
      | tail _ hcall ih =>
          refine ⟨fun h0 => hcall.1 (h0 ▸ hrec.zero), ih.2.tail ?_⟩
          exact (calls_iff_recordedCall hrange h ih.1).mp hcall
    exact hnonzero.2
  · intro hcalls
    have hnonzero : f ≠ 0 ∧ Below info.callTreeMapping t f := by
      induction hcalls with
      | refl => exact ⟨ht, Relation.ReflTransGen.refl⟩
      | tail _ hcall ih =>
          have hedge := (calls_iff_recordedCall hrange h ih.1).mpr hcall
          exact ⟨fun h0 => hedge.1 (h0 ▸ hrec.zero), ih.2.tail hedge⟩
    exact hnonzero.2

end Recorded

/-- **The reported set, in terms of the events.**  With a maximal distance of at
    least the number of functions, a test is credited with the functions that a
    chain of recorded calls links to its body, when the body was entered at all. -/
theorem reachable_iff_recordedCalls [DecidableEq F] (functions : List (CallTreeFunction F))
    (hphony : functions.head? = some ⟨none, none⟩) (hdistinct : DistinctFunctions functions)
    (events : List Event) (hrange : InRange functions.length events)
    (hnested : ProperlyNested [] events) (test : Test F) (t : Nat) (body : F)
    (ht : tableOf functions t = some body) (hbody : test.testBody = some body)
    (maxDistance : Int) (hd : functions.length ≤ maxDistance) :
    ∃ info result, record .initial events = some info ∧
      getReachableFunctions functions info test maxDistance = .ok result ∧
      ∀ g, (∃ r ∈ result, r.function = some g) ↔
        ∃ f, tableOf functions f = some g ∧ (∃ caller, (caller, t) ∈ calls [] events) ∧
          Relation.ReflTransGen (RecordedCall (calls [] events)) t f := by
  have hempty : LeavesNonEmpty InstrumentationInfo.initial.callstack.length events :=
    hnested.leavesNonEmpty
  obtain ⟨info, hrun⟩ := exists_record hrange hempty
  obtain ⟨order, hrec⟩ := recorded_of_record hrange hrun
  have ht0 := ne_zero_of_tableOf hphony ht
  have hpos : 0 < functions.length := List.length_pos_of_mem (List.mem_of_head? hphony)
  have hm := hrec.leveled hpos
  have hentered := ((agrees_of_record hrange hrun).2 t ht0).ne_zero_iff ht0
  obtain ⟨result, hresult, hmem⟩ :=
    mem_reachableFunctions_iff hm hphony hdistinct ht hbody (by omega : 0 ≤ maxDistance)
  refine ⟨info, result, hrun, hresult, ?_⟩
  intro g
  constructor
  · rintro ⟨r, hr, hg⟩
    obtain ⟨hne, f, hbelow, -, rfl⟩ := (hmem r).mp hr
    exact ⟨f, hg, hentered.mp hne, (below_iff_recordedCalls hrange hrun ht0).mp hbelow⟩
  · rintro ⟨f, hg, hcall, hchain⟩
    have hbelow := (below_iff_recordedCalls hrange hrun ht0).mpr hchain
    have hlevel := hm.bound f
    refine ⟨_, (hmem _).mpr ⟨hentered.mpr hcall, f, hbelow, ?_, rfl⟩, hg⟩
    omega

/-- A table of six functions: `main` (1), a helper (2), the test body (3) and two
    functions that the test body and `main` share (4 and 5). -/
def sixFunctions : List (CallTreeFunction Nat) :=
  [⟨none, none⟩, ⟨some 1, none⟩, ⟨some 2, none⟩, ⟨some 3, none⟩, ⟨some 4, none⟩, ⟨some 5, none⟩]

/-- `main` calls the helper, then the test body, which calls the helper and 4;
    afterwards `main` calls 4 once more, and this time 4 calls 5. -/
def sharedHelperRun : List Event :=
  [.enter 1, .enter 2, .leave 2,
    .enter 3, .enter 2, .leave 2, .enter 4, .leave 4, .leave 3,
    .enter 4, .enter 5, .leave 5, .leave 4, .leave 1]

theorem reachable_iff_recordedCalls_sharedHelperRun :
    ∃ info result, record .initial sharedHelperRun = some info ∧
      getReachableFunctions sixFunctions info ⟨0, some 3⟩ 6 = .ok result ∧
      ∀ g, (∃ r ∈ result, r.function = some g) ↔
        ∃ f, tableOf sixFunctions f = some g ∧
          (∃ caller, (caller, 3) ∈ calls [] sharedHelperRun) ∧
          Relation.ReflTransGen (RecordedCall (calls [] sharedHelperRun)) 3 f :=
  reachable_iff_recordedCalls sixFunctions rfl
    (by simp [DistinctFunctions, sixFunctions])
    sharedHelperRun (by simp [sharedHelperRun, sixFunctions, InRange, Event.functionIndex])
    (by simp [sharedHelperRun, ProperlyNested]) ⟨0, some 3⟩ 3 3 rfl rfl 6 (by decide)

/-- The helper is entered under the test body and not reported; function 5 is
    reported and never entered under the test body. -/
theorem reachable_ne_enteredUnder :
    ∃ info result, record .initial sharedHelperRun = some info ∧
      ProperlyNested [] sharedHelperRun ∧
      getReachableFunctions sixFunctions info ⟨0, some 3⟩ 6 = .ok result ∧
      (EnteredUnder 3 2 [] sharedHelperRun ∧ ¬∃ r ∈ result, r.function = some 2) ∧
      (¬EnteredUnder 3 5 [] sharedHelperRun ∧ ∃ r ∈ result, r.function = some 5) := by
  have hrange : InRange sixFunctions.length sharedHelperRun := by
    simp [sharedHelperRun, sixFunctions, InRange, Event.functionIndex]
  have hdistinct : DistinctFunctions sixFunctions := by simp [DistinctFunctions, sixFunctions]
  -- the helper keeps `main` as its caller, and 5 hangs below 4, which the test called first
  obtain ⟨info, hrun, h1, h2, h3, h4, h5⟩ : ∃ info, record .initial sharedHelperRun = some info ∧
      info.callTreeMapping 1 = 1 ∧ info.callTreeMapping 2 = 1 ∧ info.callTreeMapping 3 = 1 ∧
      info.callTreeMapping 4 = 3 ∧ info.callTreeMapping 5 = 4 := ⟨_, rfl, rfl, rfl, rfl, rfl, rfl⟩
  obtain ⟨order, hrec⟩ := recorded_of_record hrange hrun
  have hm := hrec.leveled (by simp [sixFunctions])
  obtain ⟨result, hresult, hmem⟩ := mem_reachableFunctions_iff hm rfl hdistinct
    (rfl : tableOf sixFunctions 3 = some 3) (rfl : (⟨0, some 3⟩ : Test Nat).testBody = some 3)
    (by decide : (0 : Int) ≤ 6)
  refine ⟨info, result, hrun, by simp [sharedHelperRun, ProperlyNested], hresult, ⟨?_, ?_⟩, ?_, ?_⟩
  · simp [sharedHelperRun, EnteredUnder]
  · rintro ⟨r, hr, hfunction⟩
    obtain ⟨-, f, hbelow, -, rfl⟩ := (hmem r).mp hr
    obtain rfl : f = 2 := hdistinct.index_eq hfunction (rfl : tableOf sixFunctions 2 = some 2)
    rcases Relation.ReflTransGen.cases_tail hbelow with heq | ⟨p, hbelow, -, hp⟩
    · cases heq
    · obtain rfl : p = 1 := by simpa [parentIndex, h2] using hp.symm
      rcases Relation.ReflTransGen.cases_tail hbelow with heq | ⟨q, hbelow, -, hq⟩
      · cases heq
      · obtain rfl : q = 0 := by simpa [parentIndex, h1] using hq.symm
        rcases Relation.ReflTransGen.cases_tail hbelow with heq | ⟨r, -, hne, -⟩
        · cases heq
        · exact hne hm.zero
  · simp [sharedHelperRun, EnteredUnder]
  · have h34 : Calls info.callTreeMapping 3 4 := by simp [Calls, parentIndex, h4]
    have h45 : Calls info.callTreeMapping 4 5 := by simp [Calls, parentIndex, h5]
    have hbelow : Below info.callTreeMapping 3 5 := (Relation.ReflTransGen.single h34).tail h45
    have hlevel := hm.bound 5
    refine ⟨_, (hmem _).mpr ⟨by simp [h3], 5, hbelow, ?_, rfl⟩, rfl⟩
    simp only [sixFunctions, List.length_cons, List.length_nil] at hlevel
    omega

end Mull.DynamicCallTree
