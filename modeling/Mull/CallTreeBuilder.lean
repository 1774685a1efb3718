import Mull.CallRecorder
import Mathlib.Data.List.Basic

/-!
# Building the call tree

`DynamicCallTree::createCallTree` turns the array of recorded callers into a
tree.  While the tree is built, its nodes are shared: `functions[i].treeRoot`
points to the node of function `i`, and the node itself is owned by its parent's
list of children.  The nodes therefore live in a heap here, and a pointer is the
position of a node in the order of allocation.

`fillInCallTree` follows the chain of callers of one function.  Nothing in its
text bounds that recursion, so it runs on fuel and running out of fuel is an
outcome of its own, next to the failed assertions.
-/

namespace Mull.DynamicCallTree

open ParentForest

/-- What can go wrong in the builder. -/
inductive Failure where
  | assertion (text : String)
  | outOfFuel
deriving DecidableEq, Repr

/-- A `struct CallTree` on the heap; children are pointers. -/
structure CallTreeNode (F : Type) where
  function : Option F
  level : Int
  functionsIndex : Nat
  children : List Nat

/-- `struct CallTreeFunction`. -/
structure CallTreeFunction (F : Type) where
  function : Option F
  treeRoot : Option Nat

/-- A call tree that owns its children, as `createCallTree` returns it. -/
inductive CallTree (F : Type) where
  | node (function : Option F) (level : Int) (functionsIndex : Nat) (children : List (CallTree F))

variable {F : Type}

def CallTree.function : CallTree F → Option F
  | .node function _ _ _ => function

def CallTree.level : CallTree F → Int
  | .node _ level _ _ => level

def CallTree.functionsIndex : CallTree F → Nat
  | .node _ _ functionsIndex _ => functionsIndex

def CallTree.children : CallTree F → List (CallTree F)
  | .node _ _ _ children => children

/-- The state of `createCallTree`: the heap, its own copy of the function table
    and the caller's mapping. -/
structure Builder (F : Type) where
  heap : List (CallTreeNode F)
  functions : List (CallTreeFunction F)
  mapping : Nat → Nat

/-- `make_unique<CallTree>(function.function)` stored in `function.treeRoot`. -/
def Builder.newNode (b : Builder F) (functionIndex : Nat) (function : Option F) : Builder F :=
  { b with
    heap := b.heap ++ [⟨function, 0, 0, []⟩]
    functions := b.functions.modify functionIndex fun f => { f with treeRoot := some b.heap.length } }

/-- The node is finished and handed to its parent, and the entry is cleared. -/
def Builder.attach (b : Builder F) (root node functionIndex : Nat) : Builder F :=
  let level := (b.heap[root]?).elim 0 (·.level) + 1
  let heap := b.heap.modify node fun t => { t with level := level, functionsIndex := functionIndex }
  { b with
    heap := heap.modify root fun t => { t with children := t.children ++ [node] }
    mapping := Function.update b.mapping functionIndex 0 }

/-- `functions[i].treeRoot`. -/
def Builder.treeRoot (b : Builder F) (i : Nat) : Option Nat := (b.functions[i]?).bind (·.treeRoot)

def fillInCallTree : Nat → Builder F → Nat → Except Failure (Builder F)
  | 0, _, _ => .error .outOfFuel
  | fuel + 1, b, functionIndex =>
      match b.functions[functionIndex]? with
      | none => .error (.assertion "functionIndex < functions.size()")
      | some function =>
          let parent := b.mapping functionIndex
          if parent = 0 then .ok b
          else
            let parent := if parent = functionIndex then 0 else parent
            let node := b.heap.length
            match fillInCallTree fuel (b.newNode functionIndex function.function) parent with
            | .error failure => .error failure
            | .ok b =>
                match b.treeRoot parent with
                | none => .error (.assertion "root.treeRoot")
                | some root => .ok (b.attach root node functionIndex)

/-- The loop of `createCallTree` over the function indices. -/
def fillInAll (fuel : Nat) : List Nat → Builder F → Except Failure (Builder F)
  | [], b => .ok b
  | index :: indices, b =>
      match fillInCallTree fuel b index with
      | .error failure => .error failure
      | .ok b => fillInAll fuel indices b

/-- The tree that a pointer owns, read off the heap. -/
def readTree (heap : List (CallTreeNode F)) : Nat → Nat → Option (CallTree F)
  | 0, _ => none
  | fuel + 1, pointer => do
      let node ← heap[pointer]?
      let children ← node.children.mapM (readTree heap fuel)
      return .node node.function node.level node.functionsIndex children

/-- The builder after the phony root was allocated. -/
def Builder.initial (mapping : Nat → Nat) (functions : List (CallTreeFunction F)) : Builder F :=
  ⟨[⟨none, 0, 0, []⟩], functions.modify 0 fun f => { f with treeRoot := some 0 }, mapping⟩

/-- `DynamicCallTree::createCallTree`: the tree and the mapping it leaves behind. -/
def createCallTree (fuel : Nat) (mapping : Nat → Nat) (functions : List (CallTreeFunction F)) :
    Except Failure (CallTree F × (Nat → Nat)) :=
  if mapping 0 ≠ 0 then .error (.assertion "mapping[0] == 0")
  else
    match functions with
    | [] => .error (.assertion "!functions.empty()")
    | first :: _ =>
        if first.function.isSome then
          .error (.assertion "functions.begin()->function == nullptr")
        else if first.treeRoot.isSome then
          .error (.assertion "functions.begin()->treeRoot == nullptr")
        else
          match fillInAll fuel (List.range' 1 (functions.length - 1))
              (.initial mapping functions) with
          | .error failure => .error failure
          | .ok b =>
              match readTree b.heap fuel 0 with
              | none => .error .outOfFuel
              | some tree => .ok (tree, b.mapping)

/-! ### Mappings with levels -/

/-- The index of the node that the node of `i` hangs below: `0`, the phony root,
    for a function that is its own caller. -/
def parentIndex (mapping : Nat → Nat) (i : Nat) : Nat :=
  if mapping i = i then 0 else mapping i

/-- A mapping of size `n` whose chains of callers all end in a root. -/
structure Leveled (n : Nat) (mapping level : Nat → Nat) : Prop where
  zero : mapping 0 = 0
  level_zero : level 0 = 0
  range : ∀ i, mapping i ≠ 0 → i < n
  parent_entered : ∀ i, mapping i ≠ 0 →
    parentIndex mapping i = 0 ∨ mapping (parentIndex mapping i) ≠ 0
  level_parent : ∀ i, mapping i ≠ 0 → level i = level (parentIndex mapping i) + 1
  bound : ∀ i, level i < n

/-- The level of every index, zero outside the forest. -/
noncomputable def levelOf (mapping : Nat → Nat) (i : Nat) : Nat := by
  classical
  exact if h : ∃ k, Level mapping i k then Classical.choose h else 0

theorem levelOf_eq {mapping : Nat → Nat} {i k : Nat} (h : Level mapping i k) :
    levelOf mapping i = k := by
  have hexists : ∃ k, Level mapping i k := ⟨k, h⟩
  simp only [levelOf, dif_pos hexists]
  exact (Classical.choose_spec hexists).functional h

theorem levelOf_zero {mapping : Nat → Nat} {i : Nat} (h : mapping i = 0) :
    levelOf mapping i = 0 := by
  have hnone : ¬∃ k, Level mapping i k := fun ⟨_, hk⟩ => hk.ne_zero h
  simp only [levelOf, dif_neg hnone]

theorem leveled_of_exists_level {n : Nat} {mapping : Nat → Nat} (hzero : mapping 0 = 0)
    (hn : 0 < n) (hrange : ∀ i, mapping i ≠ 0 → i < n)
    (hlevel : ∀ i, mapping i ≠ 0 → ∃ k < n, Level mapping i k) :
    Leveled n mapping (levelOf mapping) where
  zero := hzero
  level_zero := levelOf_zero hzero
  range := hrange
  parent_entered := by
    intro i hi
    obtain ⟨k, -, hk⟩ := hlevel i hi
    cases hk with
    | root _ hroot => exact Or.inl (by simp [parentIndex, hroot])
    | child _ hchild hparent =>
        exact Or.inr (by simpa [parentIndex, hchild] using hparent.ne_zero)
  level_parent := by
    intro i hi
    obtain ⟨k, -, hk⟩ := hlevel i hi
    rw [levelOf_eq hk]
    cases hk with
    | root _ hroot =>
        have hpar : parentIndex mapping i = 0 := by simp [parentIndex, hroot]
        rw [hpar, levelOf_zero hzero]
    | child _ hchild hparent =>
        have hpar : parentIndex mapping i = mapping i := by simp [parentIndex, hchild]
        rw [hpar, levelOf_eq hparent]
  bound := by
    intro i
    by_cases hi : mapping i = 0
    · rw [levelOf_zero hi]; exact hn
    · obtain ⟨k, hlt, hk⟩ := hlevel i hi
      rw [levelOf_eq hk]; exact hlt

/-- What the recorder leaves behind has levels. -/
theorem Recorded.leveled {n : Nat} {info : InstrumentationInfo} {order : List Nat}
    (hrec : Recorded n info order) (hn : 0 < n) :
    Leveled n info.callTreeMapping (levelOf info.callTreeMapping) :=
  leveled_of_exists_level hrec.zero hn
    (fun i hi => (hrec.range i ((hrec.mem_iff i).mpr hi)).2) fun _ => hrec.exists_level

/-! ### The state while the tree is built

`done` lists the functions whose nodes are finished, in the order in which they
were handed to their parents; `pending` lists those whose nodes are allocated
and wait for the node of a caller.  `ptr` says where the nodes live. -/

section Building

variable (n : Nat) (mapping level : Nat → Nat) (table : Nat → Option F)

/-- The finished children of the node of `i`. -/
def childIndices (done : List Nat) (i : Nat) : List Nat :=
  done.filter fun j => parentIndex mapping j = i

structure Building (b : Builder F) (done pending : List Nat) (ptr : Nat → Nat) : Prop where
  length : b.functions.length = n
  function_eq : ∀ i f, b.functions[i]? = some f → f.function = table i
  mapping_eq : ∀ i, b.mapping i = if i ∈ done then 0 else mapping i
  entered : ∀ i ∈ done ++ pending, mapping i ≠ 0
  nodup : (done ++ pending).Nodup
  closed : ∀ i ∈ done, parentIndex mapping i = 0 ∨ parentIndex mapping i ∈ done
  treeRoot_eq : ∀ i, i = 0 ∨ i ∈ done ++ pending → b.treeRoot i = some (ptr i)
  ptr_inj : ∀ i j, i = 0 ∨ i ∈ done ++ pending → j = 0 ∨ j ∈ done ++ pending →
    ptr i = ptr j → i = j
  heap_done : ∀ i, i = 0 ∨ i ∈ done →
    b.heap[ptr i]? = some ⟨table i, level i, i, (childIndices mapping done i).map ptr⟩
  heap_pending : ∀ i ∈ pending, b.heap[ptr i]? = some ⟨table i, 0, 0, []⟩

variable {n mapping level table} {b : Builder F} {done pending : List Nat} {ptr : Nat → Nat}

/-- All nodes in use are allocated. -/
theorem Building.ptr_lt (hb : Building n mapping level table b done pending ptr) {i : Nat}
    (hi : i = 0 ∨ i ∈ done ++ pending) : ptr i < b.heap.length := by
  have hsome : ∃ t, b.heap[ptr i]? = some t := by
    rcases hi with rfl | hi
    · exact ⟨_, hb.heap_done 0 (Or.inl rfl)⟩
    · rcases List.mem_append.mp hi with hi | hi
      · exact ⟨_, hb.heap_done i (Or.inr hi)⟩
      · exact ⟨_, hb.heap_pending i hi⟩
  obtain ⟨t, ht⟩ := hsome
  exact (List.getElem?_eq_some_iff.mp ht).1

/-! What the two steps of the builder do to the nodes. -/

theorem Builder.heap_newNode (b : Builder F) (i : Nat) (function : Option F) {p : Nat}
    (hp : p < b.heap.length) : (b.newNode i function).heap[p]? = b.heap[p]? := by
  rw [Builder.newNode, List.getElem?_append_left hp]

theorem Builder.treeRoot_newNode (b : Builder F) (i : Nat) (function : Option F) {j : Nat}
    (hj : j ≠ i) : (b.newNode i function).treeRoot j = b.treeRoot j := by
  simp [Builder.treeRoot, Builder.newNode, Ne.symm hj]

theorem Builder.treeRoot_newNode_self (b : Builder F) {i : Nat} (function : Option F)
    (hi : i < b.functions.length) : (b.newNode i function).treeRoot i = some b.heap.length := by
  have hget : b.functions[i]? = some b.functions[i] := List.getElem?_eq_getElem hi
  simp [Builder.treeRoot, Builder.newNode, hget]

section Attach

variable {root node i : Nat}

theorem Builder.heap_attach {p : Nat} (hroot : root ≠ p) (hnode : node ≠ p) :
    (b.attach root node i).heap[p]? = b.heap[p]? := by
  simp [Builder.attach, hroot, hnode]

/-- The parent receives one more child. -/
theorem Builder.heap_attach_root (hne : node ≠ root) {tree : CallTreeNode F}
    (htree : b.heap[root]? = some tree) : (b.attach root node i).heap[root]? =
      some { tree with children := tree.children ++ [node] } := by
  simp [Builder.attach, hne, htree]

/-- The node receives its level and index. -/
theorem Builder.heap_attach_node (hne : root ≠ node) {tree child : CallTreeNode F}
    (htree : b.heap[root]? = some tree) (hchild : b.heap[node]? = some child) :
    (b.attach root node i).heap[node]? =
      some { child with level := tree.level + 1, functionsIndex := i } := by
  simp [Builder.attach, hne, htree, hchild]

end Attach

/-- Allocating the node of a new function. -/
theorem Building.newNode (hb : Building n mapping level table b done pending ptr) {i : Nat}
    (hzero : mapping 0 = 0) (hlt : i < n) (hentered : mapping i ≠ 0)
    (hdone : i ∉ done) (hpending : i ∉ pending) :
    Building n mapping level table (b.newNode i (table i)) done (i :: pending)
      (Function.update ptr i b.heap.length) := by
  have hi0 : i ≠ 0 := fun heq => hentered (heq ▸ hzero)
  -- the indices in use before keep their pointers
  have hold : ∀ j, j = 0 ∨ j ∈ done ++ pending → j ≠ i := by
    rintro j (rfl | hj) rfl
    · exact hi0 rfl
    · rcases List.mem_append.mp hj with hj | hj
      · exact hdone hj
      · exact hpending hj
  have hsplit : ∀ j, j = 0 ∨ j ∈ done ++ i :: pending → j = i ∨ (j = 0 ∨ j ∈ done ++ pending) := by
    intro j hj
    rcases hj with rfl | hj
    · exact Or.inr (Or.inl rfl)
    · rw [List.mem_append, List.mem_cons] at hj
      rcases hj with hj | rfl | hj
      · exact Or.inr (Or.inr (List.mem_append_left _ hj))
      · exact Or.inl rfl
      · exact Or.inr (Or.inr (List.mem_append_right _ hj))
  constructor
  case length => simpa [Builder.newNode] using hb.length
  case function_eq =>
    intro j f hf
    simp only [Builder.newNode, List.getElem?_modify, Option.map_eq_map,
      Option.map_eq_some_iff] at hf
    obtain ⟨g, hg, rfl⟩ := hf
    split <;> exact hb.function_eq j g hg
  case mapping_eq => exact hb.mapping_eq
  case entered =>
    intro j hj
    rw [List.mem_append, List.mem_cons] at hj
    rcases hj with hj | rfl | hj
    · exact hb.entered j (List.mem_append_left _ hj)
    · exact hentered
    · exact hb.entered j (List.mem_append_right _ hj)
  case nodup =>
    rw [List.nodup_middle]
    exact List.nodup_cons.mpr ⟨fun hmem => hold i (Or.inr hmem) rfl, hb.nodup⟩
  case closed => exact hb.closed
  case treeRoot_eq =>
    intro j hj
    rcases hsplit j hj with rfl | hj
    · rw [Builder.treeRoot_newNode_self b _ (hb.length ▸ hlt), Function.update_self]
    · rw [Builder.treeRoot_newNode b i _ (hold j hj), hb.treeRoot_eq j hj,
        Function.update_of_ne (hold j hj)]
  case ptr_inj =>
    intro j k hj hk heq
    rcases hsplit j hj with hji | hj'
    · rcases hsplit k hk with hki | hk'
      · rw [hji, hki]
      · have hlt := hb.ptr_lt hk'
        rw [hji, Function.update_self, Function.update_of_ne (hold k hk')] at heq
        omega
    · rcases hsplit k hk with hki | hk'
      · have hlt := hb.ptr_lt hj'
        rw [hki, Function.update_self, Function.update_of_ne (hold j hj')] at heq
        omega
      · rw [Function.update_of_ne (hold j hj'), Function.update_of_ne (hold k hk')] at heq
        exact hb.ptr_inj j k hj' hk' heq
  case heap_done =>
    intro j hj
    have hj' : j = 0 ∨ j ∈ done ++ pending := hj.imp id (List.mem_append_left _)
    have hmap : (childIndices mapping done j).map (Function.update ptr i b.heap.length) =
        (childIndices mapping done j).map ptr := by
      apply List.map_congr_left
      intro k hk
      have hk' : k ∈ done := (List.mem_filter.mp hk).1
      exact Function.update_of_ne (hold k (Or.inr (List.mem_append_left _ hk'))) _ _
    rw [Function.update_of_ne (hold j hj'), hmap, Builder.heap_newNode b i _ (hb.ptr_lt hj')]
    exact hb.heap_done j hj
  case heap_pending =>
    intro j hj
    rcases List.mem_cons.mp hj with rfl | hj
    · simp [Builder.newNode]
    · have hj' : j = 0 ∨ j ∈ done ++ pending := Or.inr (List.mem_append_right _ hj)
      rw [Function.update_of_ne (hold j hj'), Builder.heap_newNode b i _ (hb.ptr_lt hj')]
      exact hb.heap_pending j hj

section Newest

variable {i : Nat}

theorem Building.newest_not_done (hb : Building n mapping level table b done (i :: pending) ptr) :
    i ∉ done := fun hmem =>
  (List.nodup_cons.mp (List.nodup_middle.mp hb.nodup)).1 (List.mem_append_left _ hmem)

theorem Building.parent_ne (hb : Building n mapping level table b done (i :: pending) ptr)
    (hm : Leveled n mapping level) : parentIndex mapping i ≠ i := by
  intro heq
  have hlevel := hm.level_parent i (hb.entered i (by simp))
  rw [heq] at hlevel
  omega

/-- Nobody hangs below the newest pending node yet: its finished children would have
    finished it. -/
theorem Building.childIndices_newest
    (hb : Building n mapping level table b done (i :: pending) ptr) (hm : Leveled n mapping level) :
    childIndices mapping (done ++ [i]) i = [] := by
  rw [childIndices, List.filter_eq_nil_iff]
  intro k hk hparent
  have heq : parentIndex mapping k = i := of_decide_eq_true hparent
  rcases List.mem_append.mp hk with hk | hk
  · rcases hb.closed k hk with hzero | hmem
    · exact hb.entered i (by simp) (heq ▸ hzero ▸ hm.zero)
    · exact hb.newest_not_done (heq ▸ hmem)
  · rw [List.mem_singleton.mp hk] at heq
    exact hb.parent_ne hm heq

/-- Finishing the newest pending node: it moves to the end of `done`. -/
theorem Building.attach (hb : Building n mapping level table b done (i :: pending) ptr)
    (hm : Leveled n mapping level)
    (hparent : parentIndex mapping i = 0 ∨ parentIndex mapping i ∈ done) :
    Building n mapping level table (b.attach (ptr (parentIndex mapping i)) (ptr i) i)
      (done ++ [i]) pending ptr := by
  have huse : ∀ j, j = 0 ∨ j ∈ (done ++ [i]) ++ pending → j = 0 ∨ j ∈ done ++ i :: pending := by
    intro j hj
    simpa using hj
  have hiuse : i = 0 ∨ i ∈ done ++ i :: pending := Or.inr (by simp)
  have hpuse : parentIndex mapping i = 0 ∨ parentIndex mapping i ∈ done ++ i :: pending :=
    hparent.imp id (List.mem_append_left _)
  -- different indices in use have different pointers
  have hptr : ∀ {j k}, (j = 0 ∨ j ∈ done ++ i :: pending) → (k = 0 ∨ k ∈ done ++ i :: pending) →
      j ≠ k → ptr j ≠ ptr k := fun hj hk hne heq => hne (hb.ptr_inj _ _ hj hk heq)
  have hroot := hb.heap_done _ hparent
  have hnode := hb.heap_pending i List.mem_cons_self
  constructor
  case length => exact hb.length
  case function_eq => exact hb.function_eq
  case mapping_eq =>
    intro j
    by_cases hj : j = i
    · simp [Builder.attach, hj]
    · simpa [Builder.attach, hj] using hb.mapping_eq j
  case entered => exact fun j hj => hb.entered j (by simpa using hj)
  case nodup => simpa using hb.nodup
  case closed =>
    intro j hj
    rcases List.mem_append.mp hj with hj | hj
    · exact (hb.closed j hj).imp id (List.mem_append_left _)
    · rw [List.mem_singleton.mp hj]
      exact hparent.imp id (List.mem_append_left _)
  case treeRoot_eq => exact fun j hj => hb.treeRoot_eq j (huse j hj)
  case ptr_inj => exact fun j k hj hk => hb.ptr_inj j k (huse j hj) (huse k hk)
  case heap_done =>
    intro j hj
    by_cases hji : j = i
    · -- the finished node itself
      subst hji
      have hlevel : (level (parentIndex mapping j) : Int) + 1 = level j := by
        rw [hm.level_parent j (hb.entered j (by simp))]
        push_cast
        rfl
      rw [Builder.heap_attach_node (hptr hpuse hiuse (hb.parent_ne hm)) hroot hnode,
        hb.childIndices_newest hm, hlevel]
      rfl
    · have hjdone : j = 0 ∨ j ∈ done := by simpa [hji] using hj
      have hjuse : j = 0 ∨ j ∈ done ++ i :: pending := hjdone.imp id (List.mem_append_left _)
      have hptrij := hptr hiuse hjuse (Ne.symm hji)
      by_cases hjp : parentIndex mapping i = j
      · -- the parent receives one more child
        subst hjp
        rw [Builder.heap_attach_root hptrij hroot]
        simp [childIndices, List.filter_append]
      · rw [Builder.heap_attach (hptr hpuse hjuse hjp) hptrij, hb.heap_done j hjdone]
        simp [childIndices, List.filter_append, hjp]
  case heap_pending =>
    intro j hj
    have hjuse : j = 0 ∨ j ∈ done ++ i :: pending := Or.inr (by simp [hj])
    have hij : i ≠ j := by
      rintro rfl
      exact (List.nodup_cons.mp (List.nodup_append.mp hb.nodup).2.1).1 hj
    have hpj : parentIndex mapping i ≠ j := by
      intro heq
      rcases hparent with hzero | hmem
      · have hj0 : mapping j = 0 := by rw [← heq, hzero, hm.zero]
        exact hb.entered j (by simp [hj]) hj0
      · exact (List.nodup_append.mp hb.nodup).2.2 j (heq ▸ hmem) j (by simp [hj]) rfl
    rw [Builder.heap_attach (hptr hpuse hjuse hpj) (hptr hiuse hjuse hij)]
    exact hb.heap_pending j (List.mem_cons_of_mem _ hj)

end Newest

/-- **`fillInCallTree` on a mapping with levels.**  Fuel above the level of the
    index is enough; the chain of callers that is not finished yet is appended
    to `done`, and what was pending stays pending. -/
theorem fillInCallTree_spec (hm : Leveled n mapping level) :
    ∀ (fuel : Nat) (b : Builder F) (done pending : List Nat) (ptr : Nat → Nat) (i : Nat),
      Building n mapping level table b done pending ptr → i < n → level i < fuel →
      (∀ p ∈ pending, level i < level p) →
      ∃ b' chain ptr', fillInCallTree fuel b i = .ok b' ∧
        Building n mapping level table b' (done ++ chain) pending ptr' ∧
        (∀ j, j = 0 ∨ j ∈ done ++ pending → ptr' j = ptr j) ∧
        (mapping i ≠ 0 → i ∈ done ++ chain) := by
  intro fuel
  induction fuel with
  | zero => intro b done pending ptr i _ _ hfuel; omega
  | succ fuel ih =>
      intro b done pending ptr i hb hlt hfuel hpending
      have hget : ∃ f, b.functions[i]? = some f := ⟨_, List.getElem?_eq_getElem (hb.length ▸ hlt)⟩
      obtain ⟨f, hf⟩ := hget
      by_cases hentry : b.mapping i = 0
      · -- nothing recorded, or the node is finished already
        refine ⟨b, [], ptr, by simp [fillInCallTree, hf, hentry], by simpa using hb, fun _ _ => rfl, ?_⟩
        intro hne
        rw [hb.mapping_eq i] at hentry
        by_contra hmem
        exact hne (by simpa [show i ∉ done by simpa using hmem] using hentry)
      · have hdone : i ∉ done := fun hmem => hentry (by simp [hb.mapping_eq i, hmem])
        have hmapping : b.mapping i = mapping i := by simp [hb.mapping_eq i, hdone]
        have hentered : mapping i ≠ 0 := hmapping ▸ hentry
        have hnot : i ∉ pending := fun hmem => lt_irrefl _ (hpending i hmem)
        have hlevel := hm.level_parent i hentered
        have hplt : parentIndex mapping i < n := by
          rcases hm.parent_entered i hentered with hzero | hne
          · rw [hzero]; omega
          · exact hm.range _ hne
        have hb1 := hb.newNode hm.zero hlt hentered hdone hnot
        obtain ⟨b2, chain, ptr2, hrun, hb2, hkeep, hmem⟩ := ih _ _ _ _ (parentIndex mapping i) hb1 hplt
          (by omega) (by
            intro p hp
            rcases List.mem_cons.mp hp with rfl | hp
            · omega
            · have := hpending p hp
              omega)
        have hparent : parentIndex mapping i = 0 ∨ parentIndex mapping i ∈ done ++ chain :=
          (hm.parent_entered i hentered).imp id hmem
        have hroot := hb2.treeRoot_eq (parentIndex mapping i)
          (hparent.imp id (List.mem_append_left _))
        have hnode : ptr2 i = b.heap.length := by
          rw [hkeep i (Or.inr (by simp)), Function.update_self]
        refine ⟨_, chain ++ [i], ptr2, ?_, by simpa using hb2.attach hm hparent, ?_, by simp⟩
        · have hpar : (if mapping i = i then 0 else mapping i) = parentIndex mapping i := rfl
          simp only [fillInCallTree, hf, hmapping, hentered, if_false, hpar,
            hb.function_eq i f hf, hrun, hroot, hnode]
        · intro j hj
          have hji : j ≠ i := by
            rintro rfl
            rcases hj with h0 | hj
            · exact hentered (h0 ▸ hm.zero)
            · exact (List.mem_append.mp hj).elim hdone hnot
          rw [hkeep j (hj.imp id fun h => by
            rcases List.mem_append.mp h with h | h
            · exact List.mem_append_left _ h
            · exact List.mem_append_right _ (List.mem_cons_of_mem _ h)),
            Function.update_of_ne hji]

/-- The loop over a list of indices finishes all of them. -/
theorem fillInAll_spec (hm : Leveled n mapping level) {fuel : Nat} (hfuel : n ≤ fuel)
    (indices : List Nat) (hlt : ∀ i ∈ indices, i < n)
    (hb : Building n mapping level table b done [] ptr) :
    ∃ b' chain ptr', fillInAll fuel indices b = .ok b' ∧
      Building n mapping level table b' (done ++ chain) [] ptr' ∧ ptr' 0 = ptr 0 ∧
      ∀ i ∈ indices, mapping i ≠ 0 → i ∈ done ++ chain := by
  induction indices generalizing b done ptr with
  | nil => exact ⟨b, [], ptr, rfl, by simpa using hb, rfl, by simp⟩
  | cons index indices ih =>
      have hbound := hm.bound index
      obtain ⟨b1, chain1, ptr1, hrun1, hb1, hkeep1, hmem1⟩ :=
        fillInCallTree_spec hm fuel b done [] ptr index hb (hlt index List.mem_cons_self)
          (by omega) (by simp)
      obtain ⟨b2, chain2, ptr2, hrun2, hb2, hkeep2, hmem2⟩ :=
        ih (fun i hi => hlt i (List.mem_cons_of_mem _ hi)) hb1
      refine ⟨b2, chain1 ++ chain2, ptr2, ?_, by simpa using hb2, ?_, ?_⟩
      · simp only [fillInAll, hrun1, hrun2]
      · rw [hkeep2, hkeep1 0 (Or.inl rfl)]
      · intro i hi hne
        rw [← List.append_assoc]
        rcases List.mem_cons.mp hi with rfl | hi
        · exact List.mem_append_left _ (hmem1 hne)
        · exact hmem2 i hi hne

end Building

/-! ### Reading the finished tree -/

section Reading

variable (n : Nat) (mapping level : Nat → Nat) (table : Nat → Option F) (done : List Nat)

/-- The subtree of depth `k` at the node of `i`. -/
def treeAt : Nat → Nat → CallTree F
  | 0, i => .node (table i) (level i) i []
  | k + 1, i => .node (table i) (level i) i ((childIndices mapping done i).map (treeAt k))

/-- The tree at the node of `i`; no chain of callers is longer than the table. -/
def callTreeOf (i : Nat) : CallTree F := treeAt mapping level table done (n - level i) i

variable {n mapping level table done}

/-- A node carries its function, level and index, and below it are the trees of
    the functions it called first. -/
theorem callTreeOf_eq (hm : Leveled n mapping level) (hdone : ∀ i ∈ done, mapping i ≠ 0)
    (i : Nat) :
    callTreeOf n mapping level table done i =
      .node (table i) (level i) i
        ((childIndices mapping done i).map (callTreeOf n mapping level table done)) := by
  have hdepth : n - level i = (n - (level i + 1)) + 1 := by have := hm.bound i; omega
  rw [callTreeOf, hdepth, treeAt]
  congr 1
  apply List.map_congr_left
  intro j hj
  obtain ⟨hmem, hparent⟩ := List.mem_filter.mp hj
  have hlevel := hm.level_parent j (hdone j hmem)
  rw [of_decide_eq_true hparent] at hlevel
  rw [callTreeOf, hlevel]

theorem mapM_eq_some_map {α β : Type} {f : α → Option β} {g : α → β} {values : List α}
    (h : ∀ value ∈ values, f value = some (g value)) : values.mapM f = some (values.map g) := by
  induction values with
  | nil => rfl
  | cons value values ih =>
      rw [List.mapM_cons, h value List.mem_cons_self,
        ih fun v hv => h v (List.mem_cons_of_mem _ hv)]
      rfl

theorem readTree_eq {b : Builder F} {ptr : Nat → Nat} (hm : Leveled n mapping level)
    (hb : Building n mapping level table b done [] ptr) (k i : Nat) (hi : i = 0 ∨ i ∈ done)
    (hk : n ≤ level i + k) :
    readTree b.heap k (ptr i) = some (callTreeOf n mapping level table done i) := by
  have hdone : ∀ j ∈ done, mapping j ≠ 0 := fun j hj => hb.entered j (by simpa using hj)
  induction k generalizing i with
  | zero => have := hm.bound i; omega
  | succ k ih =>
      have hchildren : ((childIndices mapping done i).map ptr).mapM (readTree b.heap k) =
          some ((childIndices mapping done i).map (callTreeOf n mapping level table done)) := by
        rw [List.mapM_map]
        apply mapM_eq_some_map
        intro j hj
        obtain ⟨hmem, hparent⟩ := List.mem_filter.mp hj
        have hlevel := hm.level_parent j (hdone j hmem)
        rw [of_decide_eq_true hparent] at hlevel
        exact ih j (Or.inr hmem) (by omega)
      rw [callTreeOf_eq hm hdone]
      simp only [readTree, hb.heap_done i hi, Option.bind_eq_bind, Option.bind_some, hchildren]
      rfl

end Reading

/-- The function of each index of a table. -/
def tableOf (functions : List (CallTreeFunction F)) (i : Nat) : Option F :=
  (functions[i]?).bind (·.function)

/-- **`createCallTree` returns.**  On a mapping whose chains of callers end, with
    at least as much fuel as there are functions, no assertion fails; the tree
    has one node per recorded function and the mapping is zero afterwards. -/
theorem createCallTree_spec {mapping level : Nat → Nat} {functions : List (CallTreeFunction F)}
    (hm : Leveled functions.length mapping level)
    (hphony : functions.head? = some ⟨none, none⟩) {fuel : Nat} (hfuel : functions.length ≤ fuel) :
    ∃ done : List Nat, done.Nodup ∧ (∀ i, i ∈ done ↔ mapping i ≠ 0) ∧
      createCallTree fuel mapping functions =
        .ok (callTreeOf functions.length mapping level (tableOf functions) done 0, fun _ => 0) := by
  obtain ⟨rest, rfl⟩ := List.head?_eq_some_iff.mp hphony
  set functions : List (CallTreeFunction F) := ⟨none, none⟩ :: rest with hfunctions
  have hinitial : Building functions.length mapping level (tableOf functions)
      (.initial mapping functions) [] [] (fun _ => 0) := by
    refine ⟨by simp [Builder.initial], ?_, by simp [Builder.initial], by simp, by simp, by simp,
      ?_, by simp, ?_, by simp⟩
    · intro i f hf
      simp only [Builder.initial, List.getElem?_modify, Option.map_eq_map,
        Option.map_eq_some_iff] at hf
      obtain ⟨g, hg, rfl⟩ := hf
      split <;> simp [tableOf, hg]
    · intro i hi
      have hi : i = 0 := by simpa using hi
      simp [hi, Builder.treeRoot, Builder.initial, hfunctions]
    · intro i hi
      have hi : i = 0 := by simpa using hi
      simp [hi, Builder.initial, tableOf, hfunctions, childIndices, hm.level_zero]
  obtain ⟨b, done, ptr, hrun, hb, hptr, hall⟩ :=
    fillInAll_spec hm hfuel (List.range' 1 (functions.length - 1))
      (fun i hi => by rw [List.mem_range'_1] at hi; omega) hinitial
  simp only [List.nil_append] at hb hall
  have hmem : ∀ i, i ∈ done ↔ mapping i ≠ 0 := by
    intro i
    refine ⟨fun hi => hb.entered i (by simpa using hi), fun hne => hall i ?_ hne⟩
    have hlt := hm.range i hne
    have hpos : i ≠ 0 := fun h0 => hne (h0 ▸ hm.zero)
    rw [List.mem_range'_1]
    omega
  refine ⟨done, by simpa using hb.nodup, hmem, ?_⟩
  have htree := readTree_eq hm hb fuel 0 (Or.inl rfl) (by omega)
  rw [hptr] at htree
  have hclear : b.mapping = fun _ => 0 := by
    funext i
    rw [hb.mapping_eq i]
    by_cases hi : i ∈ done
    · simp [hi]
    · simpa [hi] using not_not.mp (mt (hmem i).mpr hi)
  rw [hfunctions] at hrun htree ⊢
  simp only [createCallTree, hm.zero, ne_eq, not_true, if_false, Option.isSome_none,
    Bool.false_eq_true, hrun, htree, hclear]

/-- **Recording leaves a forest, and the tree builder accepts it.**  After every
    event of a run, however it goes on, the mapping is a forest; on it
    `createCallTree` ends for every function table of its size without failing
    an assertion. -/
theorem record_isForest {n : Nat} (first rest : List Event) (hrange : InRange n (first ++ rest))
    (hleave : LeavesNonEmpty 0 (first ++ rest)) :
    ∃ info, record .initial first = some info ∧ IsForest n info ∧
      ∀ functions : List (CallTreeFunction F), functions.length = n →
        functions.head? = some ⟨none, none⟩ → ∀ fuel ≥ n, ∃ tree mapping,
          createCallTree fuel info.callTreeMapping functions = .ok (tree, mapping) := by
  have hfirst : InRange n first := fun e he => hrange e (List.mem_append_left _ he)
  have hempty : LeavesNonEmpty InstrumentationInfo.initial.callstack.length first := hleave.left
  obtain ⟨info, hrun⟩ := exists_record hfirst hempty
  obtain ⟨order, hrec⟩ := recorded_of_record hfirst hrun
  refine ⟨info, hrun, hrec.isForest, ?_⟩
  rintro functions rfl hphony fuel hfuel
  have hpos : 0 < functions.length := List.length_pos_of_mem (List.mem_of_head? hphony)
  obtain ⟨done, -, -, htree⟩ := createCallTree_spec (hrec.leveled hpos) hphony hfuel
  exact ⟨_, _, htree⟩

/-- The calls of the recursion test of the call tree, cut off before the second
    call of function `4`. -/
theorem record_isForest_recursion :
    ∃ info, record .initial [.enter 1, .enter 2, .enter 1, .enter 3, .enter 1, .enter 4,
        .leave 4, .leave 1, .leave 3, .leave 1, .leave 2] = some info ∧ IsForest 5 info ∧
      ∀ functions : List (CallTreeFunction Nat), functions.length = 5 →
        functions.head? = some ⟨none, none⟩ → ∀ fuel ≥ 5, ∃ tree mapping,
          createCallTree fuel info.callTreeMapping functions = .ok (tree, mapping) :=
  record_isForest _ [.enter 4, .leave 4, .leave 1]
    (by simp [InRange, Event.functionIndex]) (by simp [LeavesNonEmpty])

end Mull.DynamicCallTree
