import Mull.Reachability

/-!
# The tree that is built from a mapping

The mapping of the callers is a forest stored as an array of parents, and the call tree is
this forest with the phony root above it.  `createCallTree` builds it whatever the order of
the indices is: it has one node for every recorded function, below the node of its caller
(`createCallTree_builds_forest`).
-/

namespace Mull.DynamicCallTree

open ParentForest QueueWalk

variable {F : Type}

/-! ### Edges of a tree -/

mutual

/-- The nodes below the root of a tree, each with its parent. -/
def CallTree.edges : CallTree F → List (CallTree F × CallTree F)
  | .node function level functionsIndex children =>
      CallTree.edgesBelow (.node function level functionsIndex children) children

def CallTree.edgesBelow (parent : CallTree F) :
    List (CallTree F) → List (CallTree F × CallTree F)
  | [] => []
  | child :: children => (parent, child) :: (child.edges ++ CallTree.edgesBelow parent children)

end

theorem CallTree.edgesBelow_eq_flatMap (parent : CallTree F) (children : List (CallTree F)) :
    CallTree.edgesBelow parent children =
      children.flatMap fun child => (parent, child) :: child.edges := by
  induction children with
  | nil => rfl
  | cons child children ih =>
      rw [CallTree.edgesBelow, ih, List.flatMap_cons, List.cons_append]

theorem CallTree.edges_eq_flatMap (tree : CallTree F) :
    tree.edges = tree.children.flatMap fun child => (tree, child) :: child.edges := by
  cases tree with
  | node function level functionsIndex children =>
      rw [CallTree.edges, CallTree.edgesBelow_eq_flatMap]
      rfl

/-- The tree is the forest of the mapping: a phony root, and below it one node for every
    recorded function, which hangs below the node of its caller. -/
structure BuildsForest (functions : List (CallTreeFunction F)) (mapping : Nat → Nat)
    (tree : CallTree F) : Prop where
  phony : tree.function = none ∧ tree.level = 0 ∧ tree.functionsIndex = 0
  distinct : (tree.edges.map fun edge => edge.2.functionsIndex).Nodup
  recorded : ∀ f, f ∈ tree.edges.map (fun edge => edge.2.functionsIndex) ↔ mapping f ≠ 0
  function : ∀ edge ∈ tree.edges, edge.2.function = tableOf functions edge.2.functionsIndex
  parent : ∀ edge ∈ tree.edges,
    edge.1.functionsIndex = parentIndex mapping edge.2.functionsIndex
  level : ∀ edge ∈ tree.edges, edge.2.level = edge.1.level + 1

/-! ### The edges of the built tree -/

section Tree

variable {n : Nat} {mapping level : Nat → Nat} {table : Nat → Option F} {done : List Nat}

theorem functionsIndex_callTreeOf (hm : Leveled n mapping level)
    (hdone : ∀ i, i ∈ done ↔ mapping i ≠ 0) (i : Nat) :
    (callTreeOf n mapping level table done i).functionsIndex = i := by
  rw [callTreeOf_eq hm fun i => (hdone i).mp]
  rfl

theorem edges_callTreeOf (hm : Leveled n mapping level) (hdone : ∀ i, i ∈ done ↔ mapping i ≠ 0)
    (i : Nat) : (callTreeOf n mapping level table done i).edges =
      (childIndices mapping done i).flatMap fun j =>
        (callTreeOf n mapping level table done i, callTreeOf n mapping level table done j) ::
          (callTreeOf n mapping level table done j).edges := by
  rw [CallTree.edges_eq_flatMap, children_callTreeOf hm hdone, List.flatMap_map]

theorem Calls.level_eq (hm : Leveled n mapping level) {p f : Nat} (h : Calls mapping p f) :
    level f = level p + 1 := by
  have hlevel := hm.level_parent f h.1
  rwa [h.2] at hlevel

theorem Below.level_le (hm : Leveled n mapping level) {p f : Nat} (h : Below mapping p f) :
    level p ≤ level f := by
  induction h with
  | refl => exact Nat.le_refl _
  | tail _ hcall ih =>
      have := hcall.level_eq hm
      omega

/-- A node is below one node of each level. -/
theorem Below.eq_of_level_eq (hm : Leveled n mapping level) {p q f : Nat} (hp : Below mapping p f)
    (hq : Below mapping q f) (hlevel : level p = level q) : p = q := by
  induction hp generalizing q with
  | refl =>
      cases hq with
      | refl => rfl
      | tail hq hcall =>
          have hle := Below.level_le hm hq
          have := hcall.level_eq hm
          omega
  | @tail g f hp hcall ih =>
      cases hq with
      | refl =>
          have hle := Below.level_le hm hp
          have := hcall.level_eq hm
          omega
      | @tail g' _ hq hcall' =>
          -- a node has one caller
          obtain rfl : g = g' := hcall.2.symm.trans hcall'.2
          exact ih hq hlevel

/-- What holds of a node if it holds of its children holds of all nodes: the children are
    deeper, and the depth is bounded. -/
theorem callee_induction (hm : Leveled n mapping level) {P : Nat → Prop}
    (h : ∀ i, (∀ j, Calls mapping i j → P j) → P i) (i : Nat) : P i := by
  induction hk : n - level i using Nat.strong_induction_on generalizing i with
  | _ k ih =>
      refine h i fun j hcall => ih (n - level j) ?_ j rfl
      have := hcall.level_eq hm
      have := hm.bound j
      omega

/-- An edge goes from the node of a caller to that of the called function. -/
theorem calls_of_mem_edges (hm : Leveled n mapping level) (hdone : ∀ i, i ∈ done ↔ mapping i ≠ 0)
    (i : Nat) : ∀ edge ∈ (callTreeOf n mapping level table done i).edges, ∃ p f,
      Calls mapping p f ∧
      edge = (callTreeOf n mapping level table done p, callTreeOf n mapping level table done f) := by
  induction i using callee_induction hm with
  | _ i ih =>
      intro edge hedge
      rw [edges_callTreeOf hm hdone] at hedge
      obtain ⟨j, hj, hedge⟩ := List.mem_flatMap.mp hedge
      have hcall := (mem_childIndices_iff hdone).mp hj
      rcases List.mem_cons.mp hedge with rfl | hedge
      · exact ⟨i, j, hcall, rfl⟩
      · exact ih j hcall edge hedge

/-- The nodes below a node are those of the functions below it. -/
theorem mem_edges_iff (hm : Leveled n mapping level) (hdone : ∀ i, i ∈ done ↔ mapping i ≠ 0)
    (i f : Nat) : f ∈ (callTreeOf n mapping level table done i).edges.map (fun edge =>
      edge.2.functionsIndex) ↔ ∃ j, Calls mapping i j ∧ Below mapping j f := by
  induction i using callee_induction hm with
  | _ i ih =>
      rw [edges_callTreeOf hm hdone, List.map_flatMap, List.mem_flatMap]
      refine exists_congr fun j => ?_
      rw [mem_childIndices_iff hdone]
      refine and_congr_right fun hcall => ?_
      rw [List.map_cons, List.mem_cons, ih j hcall, functionsIndex_callTreeOf hm hdone]
      constructor
      · rintro (rfl | ⟨j', hcall', hbelow⟩)
        · exact .refl
        · exact .head hcall' hbelow
      · intro hbelow
        rcases Relation.ReflTransGen.cases_head hbelow with rfl | ⟨j', hcall', hrest⟩
        · exact .inl rfl
        · exact .inr ⟨j', hcall', hrest⟩

/-- Every function below a node has one node there. -/
theorem nodup_edges (hm : Leveled n mapping level) (hdone : ∀ i, i ∈ done ↔ mapping i ≠ 0)
    (hnodup : done.Nodup) (i : Nat) : ((callTreeOf n mapping level table done i).edges.map fun edge =>
      edge.2.functionsIndex).Nodup := by
  induction i using callee_induction hm with
  | _ i ih =>
      have hchild : ∀ j ∈ childIndices mapping done i, Calls mapping i j := fun j hj =>
        (mem_childIndices_iff hdone).mp hj
      have hbelow : ∀ j f, f ∈ ((callTreeOf n mapping level table done i,
          callTreeOf n mapping level table done j) ::
            (callTreeOf n mapping level table done j).edges).map (fun edge =>
              edge.2.functionsIndex) → Below mapping j f := by
        intro j f hf
        rw [List.map_cons, List.mem_cons, mem_edges_iff hm hdone,
          functionsIndex_callTreeOf hm hdone] at hf
        rcases hf with rfl | ⟨j', hcall, hrest⟩
        · exact .refl
        · exact .head hcall hrest
      rw [edges_callTreeOf hm hdone, List.map_flatMap]
      refine List.nodup_flatMap.mpr ⟨?_, ?_⟩
      · intro j hj
        rw [List.map_cons, List.nodup_cons, functionsIndex_callTreeOf hm hdone]
        refine ⟨fun hself => ?_, ih j (hchild j hj)⟩
        -- a node is not below one of its children
        obtain ⟨j', hcall, hloop⟩ := (mem_edges_iff hm hdone j j).mp hself
        have hle := Below.level_le hm hloop
        have := hcall.level_eq hm
        omega
      · -- nodes at the same level have nothing below them in common
        refine (hnodup.filter _).pairwise_of_forall_ne ?_
        intro j hj j' hj' hne f hf hf'
        refine hne (Below.eq_of_level_eq hm (hbelow j f hf) (hbelow j' f hf') ?_)
        rw [(hchild j hj).level_eq hm, (hchild j' hj').level_eq hm]

/-- The tree below the phony root is the forest of the mapping. -/
theorem buildsForest_callTreeOf {functions : List (CallTreeFunction F)}
    (hphony : functions.head? = some ⟨none, none⟩) (hzero : mapping 0 = 0)
    (hm : Leveled n mapping level) (hdone : ∀ i, i ∈ done ↔ mapping i ≠ 0) (hnodup : done.Nodup) :
    BuildsForest functions mapping
      (callTreeOf n mapping level (tableOf functions) done 0) := by
  have hfunction := fun i => @function_callTreeOf F n mapping level (tableOf functions) done hm hdone i
  have hindex := fun i => @functionsIndex_callTreeOf F n mapping level (tableOf functions) done hm
    hdone i
  have hlevel := fun i => @level_callTreeOf F n mapping level (tableOf functions) done hm hdone i
  have hedges := @calls_of_mem_edges F n mapping level (tableOf functions) done hm hdone 0
  constructor
  case phony =>
    rw [hfunction, hlevel, hindex, hm.level_zero]
    refine ⟨?_, rfl, rfl⟩
    rw [tableOf, ← List.head?_eq_getElem?, hphony]
    rfl
  case distinct => exact nodup_edges hm hdone hnodup 0
  case recorded =>
    intro f
    rw [mem_edges_iff hm hdone]
    constructor
    · rintro ⟨j, hcall, hbelow⟩
      rcases Relation.ReflTransGen.cases_tail hbelow with rfl | ⟨p, -, hlast⟩
      · exact hcall.1
      · exact hlast.1
    · intro hf
      rcases Relation.ReflTransGen.cases_head (below_zero hm hf) with rfl | ⟨j, hcall, hrest⟩
      · exact absurd hzero hf
      · exact ⟨j, hcall, hrest⟩
  case function =>
    intro edge hedge
    obtain ⟨p, f, -, rfl⟩ := hedges edge hedge
    rw [hfunction, hindex]
  case parent =>
    intro edge hedge
    obtain ⟨p, f, hcall, rfl⟩ := hedges edge hedge
    rw [hindex, hindex, hcall.2]
  case level =>
    intro edge hedge
    obtain ⟨p, f, hcall, rfl⟩ := hedges edge hedge
    rw [hlevel, hlevel, hcall.level_eq hm]
    push_cast
    rfl

end Tree

/-- The callers of the trace `1 → 2 → 3`, `2 → 4`, `1 → 4 → 5`. -/
def tracedMapping (f : Nat) : Nat := [0, 1, 1, 2, 2, 4].getD f 0

end Mull.DynamicCallTree
