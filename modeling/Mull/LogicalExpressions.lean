import Mull.Lib.DecisionChain
import Mull.LogicalMutators
import Mull.Semantics

/-!
# Replacing an operator of a condition

A condition of `&&`, `||` and `!` is lowered to one branch for each of its atoms, in their
order: an atom that decides an operand on its own jumps over the rest of it.  The logical
mutators do not see the condition, they see the branches only.  They pair a branch with the
first later one that meets it, and give it a new target.

Whether that replaces an operator depends on the operand on either side of it: the left one
has to be the atom of the branch, and in the right one only the last atom may meet it
(`replaces_one_operator_iff`).
-/

namespace Mull.LogicalExpressions

open IR MutationPoints Mutators DecisionChain

/-! ### Conditions -/

inductive LogicalOperator where
  | and | or
deriving DecidableEq, Repr

namespace LogicalOperator

def apply : LogicalOperator → Bool → Bool → Bool
  | .and, left, right => left && right
  | .or, left, right => left || right

def other : LogicalOperator → LogicalOperator
  | .and => .or
  | .or => .and

/-- The value of the left operand that decides. -/
def short : LogicalOperator → Bool
  | .and => false
  | .or => true

/-- The mutator that replaces the operator by the other one. -/
def rules : LogicalOperator → Rules
  | .and => LogicalAndToOr.rules
  | .or => LogicalOrToAnd.rules

@[simp]
theorem short_other (op : LogicalOperator) : op.other.short = !op.short := by
  cases op <;> rfl

theorem apply_short (op : LogicalOperator) (right : Bool) :
    op.apply op.short right = op.short := by
  cases op <;> rfl

theorem apply_of_ne (op : LogicalOperator) {left : Bool} (h : left ≠ op.short) (right : Bool) :
    op.apply left right = right := by
  obtain rfl : left = !op.short := Bool.eq_not.mpr h
  cases op <;> rfl

end LogicalOperator

/-- An atom is opaque: what it is in one place says nothing about any other.  So every
    occurrence is an atom of its own, and they are numbered from the left. -/
inductive Condition where
  | atom
  | not (operand : Condition)
  | binary (op : LogicalOperator) (left right : Condition)
deriving DecidableEq, Repr

namespace Condition

/-- The number of atoms. -/
def size : Condition → Nat
  | .atom => 1
  | .not operand => operand.size
  | .binary _ left right => left.size + right.size

/-- The value, if the atoms are those from `start` on. -/
def eval (v : Nat → Bool) : Condition → Nat → Bool
  | .atom, start => v start
  | .not operand, start => !operand.eval v start
  | .binary op left right, start => op.apply (left.eval v start) (right.eval v (start + left.size))

theorem size_pos (e : Condition) : 0 < e.size := by
  induction e with
  | atom => exact Nat.one_pos
  | not operand ih => exact ih
  | binary op left right ihLeft ihRight => exact Nat.add_pos_left ihLeft _

/-! ### Lowering -/

/-- The exits of a left operand: control leaves the whole condition if it is decided, and goes
    to the right operand in block `next` otherwise. -/
def shortcut (op : LogicalOperator) (leave : Bool → Nat) (next : Nat) (b : Bool) : Nat :=
  if b = op.short then leave b else next

/-- The branches of a condition, whose first one is in block `start`.  Control goes on to
    `leave b` if the condition is `b`. -/
def branches : Condition → Nat → (Bool → Nat) → Nodes
  | .atom, _, leave => [leave]
  | .not operand, start, leave => operand.branches start fun b => leave (!b)
  | .binary op left right, start, leave =>
      left.branches start (shortcut op leave (start + left.size)) ++
        right.branches (start + left.size) leave

/-- The blocks of the exits follow those of the branches. -/
def exits (n : Nat) (b : Bool) : Nat := if b then n else n + 1

def nodes (e : Condition) : Nodes := e.branches 0 (exits e.size)

end Condition

/-- A block for each branch, and two that return what was decided. -/
def graph (nodes : Nodes) : List Block :=
  (nodes.mapIdx fun i next => [Instruction.condBr (.argument i) (next true) (next false)]) ++
    [[.ret (some (.constant (.int 1 1)))], [.ret (some (.constant (.int 1 0)))]]

/-- The function that returns the condition of its arguments. -/
def Condition.lower (e : Condition) : List Block := graph e.nodes

/-- What is returned from block `b` on, if the arguments are `v`. -/
def decisionFrom (blocks : List Block) (v : Nat → Bool) : Nat → Nat → Option Bool
  | 0, _ => none
  | fuel + 1, b =>
      match blocks[b]? with
      | some [.condBr (.argument i) ifTrue ifFalse] =>
          decisionFrom blocks v fuel (if v i then ifTrue else ifFalse)
      | some [.ret (some (.constant (.int 1 value)))] => some (value ≠ 0)
      | _ => none

/-- No block is entered twice. -/
def decision (blocks : List Block) (v : Nat → Bool) : Option Bool :=
  decisionFrom blocks v blocks.length 0

namespace Condition

/-! ### The branches form a chain -/

@[simp]
theorem shortcut_short (op : LogicalOperator) (leave : Bool → Nat) (next : Nat) :
    shortcut op leave next op.short = leave op.short := if_pos rfl

theorem shortcut_of_ne {op : LogicalOperator} {b : Bool} (h : b ≠ op.short) (leave : Bool → Nat)
    (next : Nat) : shortcut op leave next b = next := if_neg h

/-- The exits are others if the operator is the other one. -/
theorem shortcut_ne_shortcut_other (op : LogicalOperator) {leave : Bool → Nat} {next : Nat}
    (h : ∀ b, next < leave b) (b : Bool) :
    shortcut op leave next b ≠ shortcut op.other leave next b := by
  have hlt := h b
  by_cases hb : b = op.short
  · have hother : b ≠ op.other.short := by simp [hb]
    rw [shortcut_of_ne hother, hb, shortcut_short, ← hb]
    omega
  · have hother : b = op.other.short := by simpa using Bool.eq_not.mpr hb
    rw [shortcut_of_ne hb, hother, shortcut_short, ← hother]
    omega

@[simp]
theorem length_branches (e : Condition) (start : Nat) (leave : Bool → Nat) :
    (e.branches start leave).length = e.size := by
  induction e generalizing start leave with
  | atom => rfl
  | not operand ih => exact ih _ _
  | binary op left right ihLeft ihRight =>
      rw [branches, List.length_append, ihLeft, ihRight, size]

/-- One exit is the block `last`, the other one is further ahead. -/
def Leaves (last bound : Nat) (leave : Bool → Nat) : Prop :=
  ∃ b, leave b = last ∧ last < leave (!b) ∧ leave (!b) ≤ bound

theorem Leaves.not {last bound : Nat} {leave : Bool → Nat} (h : Leaves last bound leave) :
    Leaves last bound fun b => leave (!b) := by
  obtain ⟨b, hlast, hlt, hle⟩ := h
  refine ⟨!b, ?_, ?_, ?_⟩ <;> simpa only [Bool.not_not]

theorem Leaves.le {last bound : Nat} {leave : Bool → Nat} (h : Leaves last bound leave) (b : Bool) :
    last ≤ leave b ∧ leave b ≤ bound := by
  obtain ⟨c, hlast, hlt, hle⟩ := h
  by_cases hb : b = c
  · rw [hb, hlast]
    omega
  · obtain rfl : b = !c := Bool.eq_not.mpr hb
    omega

theorem Leaves.injective {last bound : Nat} {leave : Bool → Nat} (h : Leaves last bound leave) :
    Function.Injective leave := by
  obtain ⟨c, hlast, hlt, -⟩ := h
  have hne : ∀ b, leave b ≠ leave (!b) := by
    intro b
    by_cases hb : b = c
    · rw [hb]
      omega
    · obtain rfl : b = !c := Bool.eq_not.mpr hb
      rw [Bool.not_not]
      omega
  intro a b hab
  by_contra hab'
  obtain rfl : b = !a := Bool.eq_not.mpr (Ne.symm hab')
  exact hne a hab

/-- The exits of a left operand. -/
theorem Leaves.left {op : LogicalOperator} {left right : Condition} {start bound : Nat}
    {leave : Bool → Nat} (h : Leaves (start + (binary op left right).size) bound leave) :
    Leaves (start + left.size) bound (shortcut op leave (start + left.size)) := by
  have hsize := right.size_pos
  have hle := h.le op.short
  rw [size] at hle
  refine ⟨!op.short, shortcut_of_ne (Bool.not_ne_self op.short) _ _, ?_⟩
  rw [Bool.not_not, shortcut_short]
  omega

theorem Leaves.left_lt {op : LogicalOperator} {left right : Condition} {start bound : Nat}
    {leave : Bool → Nat} (h : Leaves (start + (binary op left right).size) bound leave) (b : Bool) :
    start + left.size < leave b := by
  have hsize := right.size_pos
  have hle := h.le b
  rw [size] at hle
  omega

theorem Leaves.right {op : LogicalOperator} {left right : Condition} {start bound : Nat}
    {leave : Bool → Nat} (h : Leaves (start + (binary op left right).size) bound leave) :
    Leaves (start + left.size + right.size) bound leave := by
  rwa [size, ← Nat.add_assoc] at h

/-- A branch of `left op right` is one of its left operand or one of its right operand. -/
theorem getElem?_branches_binary {op : LogicalOperator} {left right : Condition} {start : Nat}
    {leave : Bool → Nat} {i : Nat} {next : Bool → Nat}
    (hi : ((binary op left right).branches start leave)[i]? = some next) :
    (i < left.size ∧
      (left.branches start (shortcut op leave (start + left.size)))[i]? = some next) ∨
    ∃ j, i = left.size + j ∧ (right.branches (start + left.size) leave)[j]? = some next := by
  rw [branches] at hi
  by_cases hlt : i < left.size
  · rw [List.getElem?_append_left (by simpa using hlt)] at hi
    exact .inl ⟨hlt, hi⟩
  · rw [List.getElem?_append_right (by simpa using hlt), length_branches] at hi
    exact .inr ⟨i - left.size, by omega, hi⟩

/-- Every branch goes to the next block or further ahead. -/
theorem branches_next {e : Condition} {start bound : Nat} {leave : Bool → Nat}
    (h : Leaves (start + e.size) bound leave) {i : Nat} {next : Bool → Nat}
    (hi : (e.branches start leave)[i]? = some next) :
    ∃ b, next b = start + i + 1 ∧ start + i + 1 < next (!b) ∧ next (!b) ≤ bound := by
  induction e generalizing start leave i with
  | atom =>
      obtain ⟨rfl, rfl⟩ : i = 0 ∧ leave = next := by
        cases i with
        | zero => exact ⟨rfl, Option.some.inj hi⟩
        | succ i => cases hi
      exact h
  | not operand ih => exact ih h.not hi
  | binary op left right ihLeft ihRight =>
      rcases getElem?_branches_binary hi with ⟨-, hi⟩ | ⟨j, rfl, hj⟩
      · exact ihLeft h.left hi
      · rw [← Nat.add_assoc start left.size j]
        exact ihRight h.right hj

theorem leaves_exits (n : Nat) : Leaves n (n + 1) (exits n) :=
  ⟨true, rfl, Nat.lt_succ_self n, Nat.le_refl _⟩

theorem leaves_nodes (e : Condition) : Leaves (0 + e.size) (e.size + 1) (exits e.size) := by
  rw [Nat.zero_add]
  exact leaves_exits e.size

theorem isChain_nodes (e : Condition) : IsChain e.nodes := by
  constructor
  intro i next hi
  have := branches_next e.leaves_nodes hi
  rwa [Nat.zero_add, ← e.length_branches 0 (exits e.size)] at this

/-! ### The branches decide the condition -/

theorem exit_branches {chain : Nodes} (hchain : IsChain chain) (v : Nat → Bool) {e : Condition}
    {start : Nat} {leave : Bool → Nat}
    (h : ∀ i next, (e.branches start leave)[i]? = some next → chain[start + i]? = some next) :
    exit chain v start = exit chain v (leave (e.eval v start)) := by
  induction e generalizing start leave with
  | atom => exact hchain.exit_step v (h 0 leave rfl)
  | not operand ih => exact ih h
  | binary op left right ihLeft ihRight =>
      have hleft := ihLeft fun i next hi => h i next <| by
        rwa [branches, List.getElem?_append_left (List.getElem?_eq_some_iff.mp hi).1]
      rw [hleft, eval]
      by_cases hshort : left.eval v start = op.short
      · rw [hshort, shortcut_short, op.apply_short]
      · rw [shortcut_of_ne hshort, op.apply_of_ne hshort]
        refine ihRight fun i next hi => ?_
        have := h (left.size + i) next <| by
          rw [branches, List.getElem?_append_right (by simp), length_branches,
            Nat.add_sub_cancel_left]
          exact hi
        rwa [← Nat.add_assoc] at this

theorem exit_nodes (e : Condition) (v : Nat → Bool) :
    exit e.nodes v 0 = exits e.size (e.eval v 0) := by
  rw [exit_branches e.isChain_nodes v (fun i next hi => by rwa [Nat.zero_add])]
  exact exit_of_length_le v (((length_branches _ _ _).trans_le
    ((leaves_exits e.size).le _).1))

end Condition

/-! ### The graph of a chain -/

section Graph

variable {nodes : Nodes}

theorem length_graph (nodes : Nodes) : (graph nodes).length = nodes.length + 2 := by
  simp [graph]

theorem getElem?_graph {i : Nat} {next : Bool → Nat} (hi : nodes[i]? = some next) :
    (graph nodes)[i]? = some [.condBr (.argument i) (next true) (next false)] := by
  have hlt := (List.getElem?_eq_some_iff.mp hi).1
  rw [graph, List.getElem?_append_left (by simpa using hlt), List.getElem?_mapIdx, hi]
  rfl

theorem getElem?_graph_exits (b : Bool) :
    (graph nodes)[Condition.exits nodes.length b]? =
      some [.ret (some (.constant (.int 1 (if b then 1 else 0))))] := by
  cases b <;> simp [graph, Condition.exits]

/-- A block of the graph is a single terminator. -/
theorem eq_singleton_of_mem_graph {block : Block} (h : block ∈ graph nodes) :
    ∃ terminator : Instruction, block = [terminator] ∧ terminator.isTerminator = true := by
  simp only [graph, List.mem_append, List.mem_mapIdx, List.mem_cons, List.not_mem_nil,
    or_false] at h
  rcases h with ⟨i, hi, rfl⟩ | rfl | rfl
  · exact ⟨_, rfl, rfl⟩
  · exact ⟨_, rfl, rfl⟩
  · exact ⟨_, rfl, rfl⟩

theorem verified_graph : ∀ block ∈ graph nodes, VerifiedBlock block := by
  intro block hblock
  obtain ⟨terminator, rfl, hterminator⟩ := eq_singleton_of_mem_graph hblock
  exact verifiedBlock_singleton hterminator

theorem phiIncomingBlocks_graph (b : Nat) : phiIncomingBlocks (graph nodes) b = [] := by
  refine List.eq_nil_iff_forall_not_mem.mpr fun source hsource => ?_
  obtain ⟨block, incoming, dest, hblock, hphi, -⟩ := mem_phiIncomingBlocks.mp hsource
  obtain ⟨terminator, rfl, hterminator⟩ := eq_singleton_of_mem_graph (List.mem_of_getElem? hblock)
  rw [← List.mem_singleton.mp hphi] at hterminator
  cases hterminator

theorem decisionFrom_graph (v : Nat → Bool) {fuel i : Nat} {b : Bool}
    (h : walk nodes v fuel i = Condition.exits nodes.length b) :
    decisionFrom (graph nodes) v (fuel + 1) i = some b := by
  -- the walk is over when an exit is reached
  have hexit : ∀ fuel,
      decisionFrom (graph nodes) v (fuel + 1) (Condition.exits nodes.length b) = some b := by
    intro fuel
    rw [decisionFrom, getElem?_graph_exits]
    cases b <;> rfl
  induction fuel generalizing i with
  | zero =>
      rw [walk] at h
      exact h ▸ hexit 0
  | succ fuel ih =>
      cases hi : nodes[i]? with
      | none =>
          simp only [walk, hi] at h
          exact h ▸ hexit (fuel + 1)
      | some next =>
          rw [walk, hi] at h
          rw [decisionFrom, getElem?_graph hi]
          have hnext : (if v i then next true else next false) = next (v i) := by
            cases v i <;> rfl
          simp only [hnext]
          exact ih h

/-- What the graph of a chain decides. -/
theorem decision_graph_iff (h : IsChain nodes) (v : Nat → Bool) (b : Bool) :
    decision (graph nodes) v = some b ↔ exit nodes v 0 = Condition.exits nodes.length b := by
  have hwalk : walk nodes v (nodes.length + 1) 0 = exit nodes v 0 :=
    h.walk_succ v (Nat.le_add_left _ _)
  have hdecision : ∀ b, exit nodes v 0 = Condition.exits nodes.length b →
      decision (graph nodes) v = some b := fun b hb => by
    rw [decision, length_graph]
    exact decisionFrom_graph v (hwalk.trans hb)
  refine ⟨fun hb => ?_, hdecision b⟩
  obtain ⟨c, hc⟩ : ∃ c, exit nodes v 0 = Condition.exits nodes.length c := by
    obtain ⟨hle, hle'⟩ := h.exit_mem v (Nat.zero_le _)
    rcases Nat.eq_or_lt_of_le hle with heq | hlt
    · exact ⟨true, heq.symm⟩
    · exact ⟨false, Nat.le_antisymm hle' hlt⟩
  rw [hdecision c hc] at hb
  exact Option.some.inj hb ▸ hc

/-! ### What the search finds in the graph -/

def branchOf (i : Nat) (next : Bool → Nat) : ConditionalBranch := ⟨i, 0, next true, next false⟩

@[simp]
theorem block_branchOf (i : Nat) (next : Bool → Nat) : (branchOf i next).block = i := rfl

@[simp]
theorem position_branchOf (i : Nat) (next : Bool → Nat) : (branchOf i next).position = 0 := rfl

theorem conditionalBranches_graph (nodes : Nodes) :
    conditionalBranches (graph nodes) = nodes.mapIdx branchOf := by
  -- for any numbering, so that the induction goes through
  have hnodes : ∀ (branches : Block × Nat → List ConditionalBranch) (nodes : Nodes)
      (blockOf : Nat → (Bool → Nat) → Block) (start : Nat),
      (∀ i next, branches (blockOf i next, start + i) = [branchOf (start + i) next]) →
      ((nodes.mapIdx blockOf).zipIdx start).flatMap branches =
        nodes.mapIdx fun i next => branchOf (start + i) next := by
    intro branches nodes
    induction nodes with
    | nil => exact fun _ _ _ => rfl
    | cons next nodes ih =>
        intro blockOf start hblock
        have hfirst := hblock 0 next
        have hrest := ih (fun i => blockOf (i + 1)) (start + 1) fun i next => by
          rw [Nat.add_assoc, Nat.add_comm 1 i]
          exact hblock (i + 1) next
        rw [Nat.add_zero] at hfirst
        rw [List.mapIdx_cons, List.zipIdx_cons, List.flatMap_cons, List.mapIdx_cons, hfirst, hrest]
        simp [Nat.add_comm, Nat.add_left_comm]
  rw [conditionalBranches, graph, List.zipIdx_append, List.flatMap_append,
    hnodes _ nodes _ 0 (fun _ _ => rfl)]
  simp

theorem tail_dropWhile_ne {α : Type} [DecidableEq α] {l : List α} (h : l.Nodup) {k : Nat} {a : α}
    (hk : l[k]? = some a) : (l.dropWhile fun b => decide (b ≠ a)).tail = l.drop (k + 1) := by
  induction l generalizing k with
  | nil => cases hk
  | cons b l ih =>
      obtain ⟨hb, hl⟩ := List.nodup_cons.mp h
      cases k with
      | zero =>
          obtain rfl : b = a := Option.some.inj hk
          simp
      | succ k =>
          have hmem : a ∈ l := List.mem_of_getElem? hk
          have hne : b ≠ a := fun heq => hb (heq ▸ hmem)
          simp only [List.dropWhile_cons, hne, ne_eq, not_false_eq_true, decide_true, if_true]
          exact ih hl hk

variable {op : LogicalOperator}

theorem LogicalOperator.side_branchOf (i : Nat) (next : Bool → Nat) :
    op.rules.side (branchOf i next) = next op.short ∧
      op.rules.otherSide (branchOf i next) = next (!op.short) ∧
      op.rules.newTarget (branchOf i next) = next (!op.short) := by
  cases op <;> exact ⟨rfl, rfl, rfl⟩

theorem candidatePattern_graph (i j : Nat) (first second : Bool → Nat) :
    candidatePattern op.rules.side op.rules.otherSide (graph nodes) (branchOf i first)
        (branchOf j second) =
      if second op.short = first op.short then some .pattern1
      else if second op.short = first (!op.short) then some .pattern2
      else none := by
  simp [candidatePattern, LogicalOperator.side_branchOf, phiIncomingBlocks_graph]

/-- The first later branch that goes, for the value that decides, to a target of the given
    one.  The latter does that if its atom is `c`. -/
structure Found (nodes : Nodes) (op : LogicalOperator) (k : Nat) (first : Bool → Nat) (j : Nat)
    (second : Bool → Nat) (c : Bool) : Prop where
  lt : k < j
  get : nodes[j]? = some second
  meets : second op.short = first c
  before : ∀ i next, k < i → i < j → nodes[i]? = some next → ∀ c, next op.short ≠ first c

theorem exists_found {k : Nat} {first : Bool → Nat} (hk : nodes[k]? = some first)
    {found : LogicalPattern × ConditionalBranch}
    (h : op.rules.findPossibleMutationInBranch (graph nodes) (branchOf k first) = some found) :
    ∃ j second c, Found nodes op k first j second c ∧
      (found = (.pattern1, branchOf j second) ∧ c = op.short ∨
        found = (.pattern2, branchOf j second) ∧ c = !op.short) := by
  have hnodup := nodup_conditionalBranches (graph nodes)
  rw [conditionalBranches_graph] at hnodup
  have hfirst : (nodes.mapIdx branchOf)[k]? = some (branchOf k first) := by
    rw [List.getElem?_mapIdx, hk]
    rfl
  rw [Rules.findPossibleMutationInBranch, Mutators.findPossibleMutationInBranch,
    conditionalBranches_graph, tail_dropWhile_ne hnodup hfirst,
    List.findSome?_eq_some_iff] at h
  obtain ⟨before, candidate, after, hdrop, hcandidate, hbefore⟩ := h
  have hget : ∀ i, (nodes.mapIdx branchOf)[k + 1 + i]? = (before ++ candidate :: after)[i]? := by
    intro i
    rw [← hdrop, List.getElem?_drop]
  obtain ⟨second, hsecond, rfl⟩ : ∃ second, nodes[k + 1 + before.length]? = some second ∧
      branchOf (k + 1 + before.length) second = candidate := by
    have := hget before.length
    rw [List.getElem?_append_right (Nat.le_refl _), Nat.sub_self, List.getElem?_cons_zero,
      List.getElem?_mapIdx, Option.map_eq_some_iff] at this
    exact this
  have hnone : ∀ i next, k < i → i < k + 1 + before.length → nodes[i]? = some next →
      ∀ c, next op.short ≠ first c := by
    intro i next hki hij hnext c
    have hmem : branchOf i next ∈ before := by
      have := hget (i - (k + 1))
      rw [List.getElem?_append_left (by omega), List.getElem?_mapIdx,
        show k + 1 + (i - (k + 1)) = i by omega, hnext] at this
      exact List.mem_of_getElem? this.symm
    have := hbefore _ hmem
    rw [Option.map_eq_none_iff, candidatePattern_graph] at this
    split at this
    · cases this
    · split at this
      · cases this
      · rename_i hside hother
        by_cases hc : c = op.short
        · rwa [hc]
        · obtain rfl : c = !op.short := Bool.eq_not.mpr hc
          exact hother
  obtain ⟨pattern, hpattern, rfl⟩ := Option.map_eq_some_iff.mp hcandidate
  rw [candidatePattern_graph] at hpattern
  split at hpattern
  · rename_i hside
    cases hpattern
    exact ⟨_, second, op.short, ⟨by omega, hsecond, hside, hnone⟩, .inl ⟨rfl, rfl⟩⟩
  · split at hpattern
    · rename_i hother
      cases hpattern
      exact ⟨_, second, !op.short, ⟨by omega, hsecond, hother, hnone⟩, .inr ⟨rfl, rfl⟩⟩
    · cases hpattern

/-! ### What the mutator makes of the graph -/

/-- The new targets of the first branch: the atom with the value `c`, which met the second
    branch, now goes where it went with the other value. -/
def rewired (op : LogicalOperator) (first second : Bool → Nat) (c b : Bool) : Nat :=
  if b = c then first (!c) else second (!op.short)

theorem rules_pattern1 (i j : Nat) (first second : Bool → Nat) :
    op.rules.pattern1 (branchOf i first) (branchOf j second) =
      (rewired op first second op.short true, rewired op first second op.short false) := by
  cases op <;> rfl

theorem rules_pattern2 (i j : Nat) (first second : Bool → Nat) :
    op.rules.pattern2 (branchOf i first) (branchOf j second) =
      (rewired op first second (!op.short) true, rewired op first second (!op.short) false) := by
  cases op <;> rfl

theorem getElem?_graph_set {k : Nat} {first next : Bool → Nat} (hk : nodes[k]? = some first)
    (b : Nat) : (graph (nodes.set k next))[b]? =
      if k = b then some [.condBr (.argument k) (next true) (next false)] else (graph nodes)[b]? := by
  have hlt := (List.getElem?_eq_some_iff.mp hk).1
  by_cases hkb : k = b
  · subst hkb
    rw [if_pos rfl]
    exact getElem?_graph (List.getElem?_set_self hlt)
  · rw [if_neg hkb]
    by_cases hb : b < nodes.length
    · obtain ⟨other, hother⟩ : ∃ other, nodes[b]? = some other := ⟨_, List.getElem?_eq_getElem hb⟩
      rw [getElem?_graph hother, getElem?_graph ((List.getElem?_set_ne hkb).trans hother)]
    · rw [graph, graph, List.getElem?_append_right (by simpa using hb),
        List.getElem?_append_right (by simpa using hb)]
      simp

theorem rewire_graph {k : Nat} {first next : Bool → Nat} (hk : nodes[k]? = some first)
    (second : ConditionalBranch) (newTarget n : Nat) :
    rewire (branchOf k first) second (.argument k) (next true, next false) newTarget n
      (graph nodes) = graph (nodes.set k next) := by
  refine List.ext_getElem? fun b => ?_
  rw [getElem?_rewire, getElem?_graph_set hk]
  -- there are no PHI nodes that could get new entries
  have hphi : ∀ terminator : Instruction, terminator.isTerminator = true →
      [terminator].map (addIncoming second.block k)^[n] = [terminator] := by
    intro terminator hterminator
    rw [List.map_singleton, addIncoming_iterate_of_not_phi]
    cases terminator with
    | phi => cases hterminator
    | _ => rfl
  by_cases hkb : k = b
  · subst hkb
    rw [getElem?_graph hk]
    simp only [block_branchOf, position_branchOf, Option.map_some, if_true, List.set_cons_zero]
    split
    · rw [hphi _ rfl]
    · rfl
  · cases hb : (graph nodes)[b]? with
    | none => simp [hkb]
    | some block =>
        obtain ⟨terminator, rfl, hterminator⟩ := eq_singleton_of_mem_graph (List.mem_of_getElem? hb)
        have hne : (branchOf k first).block ≠ b := hkb
        simp only [Option.map_some, if_neg hne, if_neg hkb]
        split
        · rw [block_branchOf, hphi _ hterminator]
        · rfl

/-- **One node of the chain is rewired.** -/
theorem applyMutation_graph {k : Nat} {first : Bool → Nat} (hk : nodes[k]? = some first)
    {found : LogicalPattern × ConditionalBranch}
    (h : op.rules.findPossibleMutationInBranch (graph nodes) (branchOf k first) = some found)
    (functionIndex : Nat) :
    ∃ j second c, Found nodes op k first j second c ∧
      op.rules.applyMutation ⟨functionIndex, k, 0⟩ (graph nodes) =
        some (graph (nodes.set k (rewired op first second c))) := by
  have happly : op.rules.applyMutation ⟨functionIndex, k, 0⟩ (graph nodes) =
      op.rules.applyPattern (graph nodes) (branchOf k first) (.argument k) found := by
    simp only [Rules.applyMutation, MutationPointAddress.findInstruction, getElem?_graph hk,
      Option.bind_some, List.getElem?_cons_zero]
    rw [show (⟨k, 0, first true, first false⟩ : ConditionalBranch) = branchOf k first from rfl, h]
  have hblock : (graph nodes)[(branchOf k first).block]? =
      some [.condBr (.argument k) (first true) (first false)] := getElem?_graph hk
  rcases exists_found hk h with ⟨j, second, c, hfound, ⟨rfl, rfl⟩ | ⟨rfl, rfl⟩⟩
  · refine ⟨j, second, _, hfound, ?_⟩
    rw [happly, applyPattern_rewires verified_graph hblock rfl h (.inl ⟨rfl, rfl⟩),
      rules_pattern1, rewire_graph hk]
  · refine ⟨j, second, _, hfound, ?_⟩
    rw [happly, applyPattern_rewires verified_graph hblock rfl h (.inr ⟨rfl, rfl⟩),
      rules_pattern2, rewire_graph hk]

end Graph

/-- **The branches decide the condition.** -/
theorem Condition.decision_lower (e : Condition) (v : Nat → Bool) :
    decision e.lower v = some (e.eval v 0) := by
  rw [lower, decision_graph_iff e.isChain_nodes, exit_nodes, nodes, length_branches]

/-! ### What the function returns -/

section Returns

open Semantics

variable {T : Target} {m : Module} {slots : String → Option Nat} {f : Nat} {args : List T.Val}
  {v : Nat → Bool} (hargs : ∀ i, T.isTrue (args.getD i T.noValue) = v i) (world : T.World)

omit hargs in
/-- There are no PHI nodes where something is decided. -/
theorem jump_of_decisionFrom {blocks : List Block} {fuel target : Nat} {decided : Bool}
    (h : decisionFrom blocks v fuel target = some decided) (activation : Activation T) :
    activation.jump blocks target world =
      .goOn { activation with block := target, position := 0 } world := by
  cases fuel with
  | zero => cases h
  | succ fuel =>
      rw [decisionFrom] at h
      split at h
      case h_1 hblock => simp [Activation.jump, hblock, Activation.phiValues]
      case h_2 hblock => simp [Activation.jump, hblock, Activation.phiValues]
      case h_3 => cases h

include hargs

theorem returns_of_decisionFrom {fuel b : Nat} {decided : Bool}
    (h : decisionFrom (body m f) v fuel b = some decided) (registers : Nat → Content T) :
    ∃ value : Int, decide (value ≠ 0) = decided ∧
      Relation.ReflTransGen (fun state state' => step m slots state = some state')
        (.running [.code f ⟨args, registers, b, 0⟩] world)
        (.returning (.returned (T.constant (.int 1 value))) [] world) := by
  induction fuel generalizing b with
  | zero => cases h
  | succ fuel ih =>
      rw [decisionFrom] at h
      split at h
      case h_1 i ifTrue ifFalse hblock =>
        obtain ⟨value, hvalue, hrun⟩ := ih h
        refine ⟨value, hvalue, .head ?_ hrun⟩
        have hvalue : Activation.value ⟨args, registers, b, 0⟩ (.argument i) =
            args.getD i T.noValue := rfl
        simp only [step, Activation.execute, Activation.instruction?, hblock, Option.bind_some,
          List.getElem?_cons_zero, Activation.executeInstruction, hvalue, hargs]
        rw [jump_of_decisionFrom world h]
        rfl
      case h_2 value hblock =>
        cases h
        refine ⟨value, rfl, .single ?_⟩
        simp only [step, Activation.execute, Activation.instruction?, hblock, Option.bind_some,
          List.getElem?_cons_zero, Activation.executeInstruction]
        rfl
      case h_3 => cases h

/-- **A function that decides returns what it decides.** -/
theorem returns_of_decision {decided : Bool} (h : decision (body m f) v = some decided) :
    ∃ value : Int, decide (value ≠ 0) = decided ∧
      Relation.ReflTransGen (fun state state' => step m slots state = some state')
        (.running [.code f (Activation.start args)] world)
        (.returning (.returned (T.constant (.int 1 value))) [] world) :=
  returns_of_decisionFrom hargs world h _

end Returns

namespace Condition

/-! ### Replacing one operator -/

/-- One `op` of the condition has become the other operator. -/
inductive OneReplaced (op : LogicalOperator) : Condition → Condition → Prop where
  | here (left right : Condition) :
      OneReplaced op (.binary op left right) (.binary op.other left right)
  | not {operand operand' : Condition} (h : OneReplaced op operand operand') :
      OneReplaced op (.not operand) (.not operand')
  | left {left left' : Condition} (op' : LogicalOperator) (right : Condition)
      (h : OneReplaced op left left') :
      OneReplaced op (.binary op' left right) (.binary op' left' right)
  | right {right right' : Condition} (op' : LogicalOperator) (left : Condition)
      (h : OneReplaced op right right') :
      OneReplaced op (.binary op' left right) (.binary op' left right')

/-- The right operand of the `op` whose left operand is nothing but atom `k`, possibly
    negated. -/
def rightOperand? (op : LogicalOperator) : Condition → Nat → Option Condition
  | .atom, _ => none
  | .not operand, k => operand.rightOperand? op k
  | .binary op' left right, k =>
      if left.size ≤ k then right.rightOperand? op (k - left.size)
      else if left.size = 1 ∧ op' = op then some right
      else left.rightOperand? op k

/-- For each atom, whether the value `x` of it decides the condition as `y`. -/
def deciding (x : Bool) : Condition → Bool → List Bool
  | .atom, y => [x == y]
  | .not operand, y => operand.deciding x (!y)
  | .binary op left right, y =>
      (left.deciding x y).map (fun decided => decided && y == op.short) ++ right.deciding x y

/-- Atom `k` is on its own the left operand of an `op`.  In the right operand it is the last
    atom, and no other one, that decides it as the `op` is decided if it has that value. -/
def replaceable (op : LogicalOperator) (e : Condition) (k : Nat) : Bool :=
  (e.rightOperand? op k).any fun right =>
    right.deciding op.short op.short = List.replicate (right.size - 1) false ++ [true]

namespace OneReplaced

variable {op : LogicalOperator} {e e' : Condition}

theorem size_eq (h : OneReplaced op e e') : e'.size = e.size := by
  induction h with
  | here left right => rfl
  | not h ih => exact ih
  | left op' right h ih => rw [size, size, ih]
  | right op' left h ih => rw [size, size, ih]

theorem one_lt_size (h : OneReplaced op e e') : 1 < e.size := by
  induction h with
  | here left right =>
      have := left.size_pos
      have := right.size_pos
      rw [size]
      omega
  | not h ih => exact ih
  | left op' right h ih => exact Nat.lt_add_right _ ih
  | right op' left h ih => exact Nat.lt_add_left _ ih

end OneReplaced

/-! ### Targets of the branches -/

/-- Every branch stays within the condition, or leaves it by one of the exits. -/
theorem branches_target {e : Condition} {start : Nat} {leave : Bool → Nat} {i : Nat}
    {next : Bool → Nat} (hi : (e.branches start leave)[i]? = some next) (b : Bool) :
    next b < start + e.size ∨ ∃ c, next b = leave c := by
  induction e generalizing start leave i with
  | atom =>
      cases i with
      | zero => exact .inr ⟨b, congrFun (Option.some.inj hi).symm b⟩
      | succ i => cases hi
  | not operand ih =>
      rcases ih hi with hlt | ⟨c, hc⟩
      · exact .inl hlt
      · exact .inr ⟨!c, hc⟩
  | binary op left right ihLeft ihRight =>
      have hpos := right.size_pos
      rw [size]
      rcases getElem?_branches_binary hi with ⟨-, hi⟩ | ⟨j, -, hj⟩
      · rcases ihLeft hi with hnext | ⟨c, hc⟩
        · exact .inl (by omega)
        · by_cases hshort : c = op.short
          · rw [hshort, shortcut_short] at hc
            exact .inr ⟨op.short, hc⟩
          · rw [shortcut_of_ne hshort] at hc
            exact .inl (by omega)
      · rcases ihRight hj with hnext | hleave
        · exact .inl (by omega)
        · exact .inr hleave

theorem branches_of_size_eq_one {e : Condition} (h : e.size = 1) :
    ∃ negated, ∀ start leave, e.branches start leave = [fun b => leave (b ^^ negated)] := by
  induction e with
  | atom => exact ⟨false, fun _ _ => by simp [branches]⟩
  | not operand ih =>
      obtain ⟨negated, hbranches⟩ := ih h
      refine ⟨!negated, fun start leave => ?_⟩
      rw [branches, hbranches]
      simp
  | binary op left right ihLeft ihRight =>
      have := left.size_pos
      have := right.size_pos
      rw [size] at h
      omega

/-- The last branch leaves the condition with either value. -/
theorem getElem?_branches_last (e : Condition) :
    ∃ negated, ∀ start leave,
      (e.branches start leave)[e.size - 1]? = some fun b => leave (b ^^ negated) := by
  induction e with
  | atom => exact ⟨false, fun _ _ => by simp [branches, size]⟩
  | not operand ih =>
      obtain ⟨negated, hlast⟩ := ih
      refine ⟨!negated, fun start leave => ?_⟩
      rw [branches, size, hlast]
      simp
  | binary op left right ihLeft ihRight =>
      obtain ⟨negated, hlast⟩ := ihRight
      refine ⟨negated, fun start leave => ?_⟩
      have := right.size_pos
      rw [branches, size, List.getElem?_append_right (by rw [length_branches]; omega),
        length_branches, show left.size + right.size - 1 - left.size = right.size - 1 by omega, hlast]

/-- The last branch shows where the exits are. -/
theorem branches_last_ne (e : Condition) (start : Nat) {leave leave' : Bool → Nat} {b : Bool}
    (h : leave b ≠ leave' b) :
    (e.branches start leave)[e.size - 1]? ≠ (e.branches start leave')[e.size - 1]? := by
  obtain ⟨negated, hlast⟩ := e.getElem?_branches_last
  rw [hlast, hlast]
  intro heq
  have := congrFun (Option.some.inj heq) (b ^^ negated)
  rw [Bool.xor_assoc, Bool.xor_self, Bool.xor_false] at this
  exact h this

/-- Only if there is but one atom, one branch alone depends on the exits. -/
theorem size_eq_one_of_branches {e : Condition} {start k : Nat} {leave leave' : Bool → Nat}
    (hne : ∀ b, leave b ≠ leave' b)
    (h : ∀ i, i ≠ k → (e.branches start leave)[i]? = (e.branches start leave')[i]?) :
    e.size = 1 ∧ k = 0 := by
  induction e generalizing leave leave' with
  | atom =>
      refine ⟨rfl, ?_⟩
      by_contra hk
      exact branches_last_ne .atom start (hne true) (h 0 (Ne.symm hk))
  | not operand ih => exact ih (fun b => hne (!b)) h
  | binary op left right ihLeft ihRight =>
      -- the last branches of both operands would be branch `k`
      have hpos := left.size_pos
      have hpos' := right.size_pos
      have hlast : left.size + right.size - 1 = k := by
        by_contra hk
        exact (binary op left right).branches_last_ne start (hne true) (h _ hk)
      have hlast' : left.size - 1 = k := by
        by_contra hk
        have heq := h _ hk
        rw [branches, branches, List.getElem?_append_left (by rw [length_branches]; omega),
          List.getElem?_append_left (by rw [length_branches]; omega)] at heq
        refine @branches_last_ne left start _ _ op.short ?_ heq
        rw [shortcut_short, shortcut_short]
        exact hne op.short
      omega

@[simp]
theorem length_deciding (e : Condition) (x y : Bool) : (e.deciding x y).length = e.size := by
  induction e generalizing y with
  | atom => rfl
  | not operand ih => exact ih _
  | binary op left right ihLeft ihRight => simp [deciding, size, ihLeft, ihRight]

theorem getElem?_deciding {e : Condition} {start bound : Nat} {leave : Bool → Nat}
    (h : Leaves (start + e.size) bound leave) {i : Nat} {next : Bool → Nat}
    (hi : (e.branches start leave)[i]? = some next) (x y : Bool) :
    (e.deciding x y)[i]? = some (decide (next x = leave y)) := by
  induction e generalizing start leave i y with
  | atom =>
      cases i with
      | zero =>
          obtain rfl : leave = next := Option.some.inj hi
          simp [deciding, h.injective.eq_iff, Bool.beq_eq_decide_eq]
      | succ i => cases hi
  | not operand ih =>
      have := ih h.not hi (!y)
      rwa [Bool.not_not] at this
  | binary op left right ihLeft ihRight =>
      rcases getElem?_branches_binary hi with ⟨hlt, hi⟩ | ⟨j, rfl, hj⟩
      · rw [deciding, List.getElem?_append_left (by simpa using hlt), List.getElem?_map,
          ihLeft h.left hi y]
        by_cases hy : y = op.short
        · simp [hy]
        · -- the left operand goes on to the right one then
          have hnot : next x ≠ leave y := by
            have hle := h.le y
            have hpos := right.size_pos
            rw [size] at hle
            rcases branches_target hi x with hnext | ⟨c, hc⟩
            · omega
            · by_cases hshort : c = op.short
              · rw [hc, hshort, shortcut_short]
                exact fun heq => hy (h.injective heq).symm
              · rw [hc, shortcut_of_ne hshort]
                omega
          simp [hy, hnot]
      · rw [deciding, List.getElem?_append_right (by simp), List.length_map, length_deciding,
          Nat.add_sub_cancel_left]
        exact ihRight h.right hj y

/-! ### The place of the operator -/

/-- Branch `k` and those of the right operand, and what branch `k` is if the operator is the
    other one. -/
structure Site (op : LogicalOperator) (right : Condition) (start bound : Nat) (negated : Bool)
    (leave : Bool → Nat) (nodes nodes' : Nodes) (k : Nat) : Prop where
  branch : nodes[k]? = some fun b => shortcut op leave (start + k + 1) (b ^^ negated)
  operand : ∀ i next, (right.branches (start + k + 1) leave)[i]? = some next →
    nodes[k + 1 + i]? = some next
  leaves : Leaves (start + k + 1 + right.size) bound leave
  replaced : nodes' = nodes.set k fun b => shortcut op.other leave (start + k + 1) (b ^^ negated)

section Site

variable {op : LogicalOperator} {right : Condition} {start bound : Nat} {negated : Bool}
  {leave : Bool → Nat} {nodes nodes' : Nodes} {k : Nat}

theorem site_here {left : Condition} (hleft : left.size = 1)
    (h : Leaves (start + (binary op left right).size) bound leave) :
    ∃ negated, Site op right start bound negated leave ((binary op left right).branches start leave)
      ((binary op.other left right).branches start leave) 0 := by
  obtain ⟨negated, hbranches⟩ := branches_of_size_eq_one hleft
  refine ⟨negated, ?_, ?_, ?_, ?_⟩
  · rw [branches, hbranches, List.singleton_append, List.getElem?_cons_zero, hleft]
  · intro i next hi
    rw [branches, hbranches, List.singleton_append, Nat.zero_add, Nat.add_comm 1 i,
      List.getElem?_cons_succ, hleft]
    exact hi
  · have := h.right
    rwa [hleft] at this
  · rw [branches, branches, hbranches, hbranches, List.singleton_append, List.singleton_append,
      List.set_cons_zero, hleft]

theorem Site.append (h : Site op right start bound negated leave nodes nodes' k) (rest : Nodes) :
    Site op right start bound negated leave (nodes ++ rest) (nodes' ++ rest) k := by
  have hlt := (List.getElem?_eq_some_iff.mp h.branch).1
  refine ⟨?_, ?_, h.leaves, ?_⟩
  · rw [List.getElem?_append_left hlt]
    exact h.branch
  · intro i next hi
    have hget := h.operand i next hi
    rw [List.getElem?_append_left (List.getElem?_eq_some_iff.mp hget).1]
    exact hget
  · rw [List.set_append_left _ _ hlt, ← h.replaced]

theorem Site.prepend {before : Nodes} {n : Nat} (hbefore : before.length = n)
    (h : Site op right (start + n) bound negated leave nodes nodes' k) :
    Site op right start bound negated leave (before ++ nodes) (before ++ nodes') (n + k) := by
  subst hbefore
  have hstart : start + (before.length + k) + 1 = start + before.length + k + 1 := by omega
  refine ⟨?_, ?_, ?_, ?_⟩
  · rw [List.getElem?_append_right (by omega), Nat.add_sub_cancel_left, hstart]
    exact h.branch
  · intro i next hi
    rw [hstart] at hi
    rw [List.getElem?_append_right (by omega),
      show before.length + k + 1 + i - before.length = k + 1 + i by omega]
    exact h.operand i next hi
  · rw [hstart]
    exact h.leaves
  · rw [List.set_append_right _ _ (by omega), Nat.add_sub_cancel_left, hstart, ← h.replaced]

end Site

/-- The operator on the right of an atom can be replaced. -/
theorem exists_site {op : LogicalOperator} {e right : Condition} {k : Nat}
    (h : e.rightOperand? op k = some right) :
    ∃ e', OneReplaced op e e' ∧ ∀ start bound leave, Leaves (start + e.size) bound leave →
      ∃ negated leave', Site op right start bound negated leave' (e.branches start leave)
        (e'.branches start leave) k := by
  induction e generalizing k with
  | atom => cases h
  | not operand ih =>
      obtain ⟨operand', hreplaced, hsite⟩ := ih h
      exact ⟨_, .not hreplaced, fun start bound leave hleave => hsite start bound _ hleave.not⟩
  | binary op' left right' ihLeft ihRight =>
      rw [rightOperand?] at h
      split at h
      case isTrue hle =>
        obtain ⟨right'', hreplaced, hsite⟩ := ihRight h
        refine ⟨_, .right op' left hreplaced, fun start bound leave hleave => ?_⟩
        obtain ⟨negated, leave', hright⟩ := hsite (start + left.size) bound leave hleave.right
        have hsite := hright.prepend (left.length_branches start
          (shortcut op' leave (start + left.size)))
        rw [Nat.add_sub_of_le hle] at hsite
        exact ⟨negated, leave', hsite⟩
      case isFalse hlt =>
        split at h
        case isTrue hhere =>
          obtain ⟨hleft, rfl⟩ := hhere
          cases h
          refine ⟨_, .here left right, fun start bound leave hleave => ?_⟩
          obtain ⟨negated, hsite⟩ := site_here hleft hleave
          obtain rfl : k = 0 := by omega
          exact ⟨negated, leave, hsite⟩
        case isFalse =>
          obtain ⟨left', hreplaced, hsite⟩ := ihLeft h
          refine ⟨_, .left op' right' hreplaced, fun start bound leave hleave => ?_⟩
          obtain ⟨negated, leave', hleft⟩ := hsite start bound _ hleave.left
          refine ⟨negated, leave', ?_⟩
          rw [branches, branches, hreplaced.size_eq]
          exact hleft.append _

/-- Replacing an operator changes some branch. -/
theorem OneReplaced.branches_ne {op : LogicalOperator} {e e' : Condition}
    (h : OneReplaced op e e') {start bound : Nat} {leave : Bool → Nat}
    (hleave : Leaves (start + e.size) bound leave) :
    e'.branches start leave ≠ e.branches start leave := by
  induction h generalizing start leave with
  | here left right =>
      intro heq
      rw [branches, branches] at heq
      have hleft := (List.append_inj heq (by simp)).1
      exact @branches_last_ne left start _ _ op.short
        (shortcut_ne_shortcut_other op hleave.left_lt op.short).symm
        (congrArg (·[left.size - 1]?) hleft)
  | not h ih => exact ih hleave.not
  | left op' right h ih =>
      intro heq
      rw [branches, branches, h.size_eq] at heq
      exact ih hleave.left (List.append_cancel_right heq)
  | right op' left h ih =>
      intro heq
      rw [branches, branches] at heq
      exact ih hleave.right (List.append_cancel_left heq)

/-- If replacing an operator changes branch `k` only, its atom is on the left of the
    operator. -/
theorem OneReplaced.site {op : LogicalOperator} {e e' : Condition} (h : OneReplaced op e e')
    {start bound : Nat} {leave : Bool → Nat} (hleave : Leaves (start + e.size) bound leave) {k : Nat}
    {next : Bool → Nat}
    (hset : e'.branches start leave = (e.branches start leave).set k next) :
    ∃ right, e.rightOperand? op k = some right ∧ ∃ negated leave',
      Site op right start bound negated leave' (e.branches start leave) (e'.branches start leave) k := by
  induction h generalizing start leave k with
  | here left right =>
      -- the branches of the left operand get other exits, so that there is but one of them
      have hother : ∀ i, i ≠ k → (left.branches start (shortcut op leave (start + left.size)))[i]? =
          (left.branches start (shortcut op.other leave (start + left.size)))[i]? := by
        intro i hi
        by_cases hlt : i < left.size
        · have heq := congrArg (·[i]?) hset
          simp only [branches] at heq
          rw [List.getElem?_set_ne (Ne.symm hi), List.getElem?_append_left (by simpa using hlt),
            List.getElem?_append_left (by simpa using hlt)] at heq
          exact heq.symm
        · rw [List.getElem?_eq_none (by simpa using hlt), List.getElem?_eq_none (by simpa using hlt)]
      obtain ⟨hleft, rfl⟩ := size_eq_one_of_branches
        (shortcut_ne_shortcut_other op hleave.left_lt) hother
      obtain ⟨negated, hsite⟩ := site_here hleft hleave
      refine ⟨right, ?_, negated, leave, hsite⟩
      simp [rightOperand?, hleft]
  | not h ih => exact ih hleave.not hset
  | @left left _ op' right h ih =>
      rw [branches, branches, h.size_eq] at hset ⊢
      by_cases hlt : k < (left.branches start (shortcut op' leave (start + left.size))).length
      · rw [List.set_append_left _ _ hlt] at hset
        obtain ⟨right', hright', negated, leave', hsite⟩ :=
          ih hleave.left (List.append_cancel_right hset)
        refine ⟨right', ?_, negated, leave', hsite.append _⟩
        have := h.one_lt_size
        rw [length_branches] at hlt
        rw [rightOperand?, if_neg (by omega), if_neg (by omega), hright']
      · rw [List.set_append_right _ _ (by omega)] at hset
        have hleft := (List.append_inj hset (by simp [h.size_eq])).1
        exact absurd hleft (h.branches_ne hleave.left)
  | right op' left h ih =>
      rw [branches, branches] at hset ⊢
      by_cases hlt : k < (left.branches start (shortcut op' leave (start + left.size))).length
      · rw [List.set_append_left _ _ hlt] at hset
        have hright := (List.append_inj hset (by simp)).2
        exact absurd hright (h.branches_ne hleave.right)
      · rw [List.set_append_right _ _ (by omega)] at hset
        rw [length_branches] at hset hlt
        obtain ⟨right', hright', negated, leave', hright⟩ :=
          ih hleave.right (List.append_cancel_left hset)
        have hsite := hright.prepend (left.length_branches start
          (shortcut op' leave (start + left.size)))
        rw [Nat.add_sub_of_le (by omega)] at hsite
        refine ⟨right', ?_, negated, leave', hsite⟩
        rw [rightOperand?, if_pos (by omega), hright']

/-! ### What the mutator replaces -/

theorem eq_replicate_concat_iff {l : List Bool} {n : Nat} (hlength : l.length = n + 1) :
    l = List.replicate n false ++ [true] ↔
      l[n]? = some true ∧ ∀ i, i < n → l[i]? = some false := by
  constructor
  · rintro rfl
    refine ⟨by simp, fun i hi => ?_⟩
    rw [List.getElem?_append_left (by simpa using hi), List.getElem?_replicate_of_lt hi]
  · rintro ⟨hlast, hbefore⟩
    refine List.ext_getElem? fun i => ?_
    rcases Nat.lt_trichotomy i n with hlt | rfl | hgt
    · rw [hbefore i hlt, List.getElem?_append_left (by simpa using hlt),
        List.getElem?_replicate_of_lt hlt]
    · rw [hlast, List.getElem?_append_right (by simp)]
      simp
    · rw [List.getElem?_eq_none (by omega), List.getElem?_eq_none (by simp; omega)]

theorem isChain_set_rewired {op : LogicalOperator} {nodes : Nodes} (hchain : IsChain nodes)
    {j k : Nat} {first second : Bool → Nat} {c : Bool} (hk : nodes[k]? = some first)
    (hfound : Found nodes op k first j second c) :
    IsChain (nodes.set k (rewired op first second c)) := by
  obtain ⟨b, hb, -⟩ := hchain.next k first hk
  have hkj := hfound.lt
  have hmeets := (hchain.lt_next hfound.get op.short).1
  have hother := hchain.lt_next hfound.get (!op.short)
  -- the branches do not meet in the next block
  have hc : c ≠ b := by
    rintro rfl
    rw [hfound.meets, hb] at hmeets
    omega
  obtain rfl : b = !c := Bool.eq_not.mpr (Ne.symm hc)
  refine hchain.set (b := c) ?_ ?_ ?_
  · rw [rewired, if_pos rfl, hb]
  · rw [rewired, if_neg (Bool.not_ne_self c)]
    omega
  · rw [rewired, if_neg (Bool.not_ne_self c)]
    exact hother.2

section Replaced

variable {op : LogicalOperator} {right : Condition} {bound : Nat} {negated : Bool}
  {leave : Bool → Nat} {nodes nodes' : Nodes} {j k : Nat} {first second : Bool → Nat} {c : Bool}
  (hchain : IsChain nodes) (hsite : Site op right 0 bound negated leave nodes nodes' k)
  (hk : nodes[k]? = some first) (hfound : Found nodes op k first j second c)

include hchain hsite hk hfound

/-- The branches meet where the right operand is left. -/
theorem first_of_found :
    (c ^^ negated) = op.short ∧ first c = leave op.short ∧ first (!c) = k + 1 := by
  have hfirst : ∀ b, first b = shortcut op leave (k + 1) (b ^^ negated) := by
    have := hk.symm.trans hsite.branch
    rw [Nat.zero_add] at this
    exact congrFun (Option.some.inj this)
  have hc : (c ^^ negated) = op.short := by
    by_contra hc
    -- the second branch would go backwards
    have hlt := (hchain.lt_next hfound.get op.short).1
    have hkj := hfound.lt
    rw [hfound.meets, hfirst, shortcut_of_ne hc] at hlt
    omega
  refine ⟨hc, ?_, ?_⟩
  · rw [hfirst, hc, shortcut_short]
  · rw [hfirst, Bool.not_xor, hc, shortcut_of_ne (Bool.not_ne_self op.short)]

/-- The branch becomes that of the other operator if the second branch leaves the right
    operand with either value. -/
theorem set_rewired_eq_iff :
    nodes.set k (rewired op first second c) = nodes' ↔ second (!op.short) = leave (!op.short) := by
  obtain ⟨hc, -, hother⟩ := first_of_found hchain hsite hk hfound
  have hlt := (List.getElem?_eq_some_iff.mp hk).1
  have hself : shortcut op.other leave (0 + k + 1) (c ^^ negated) = k + 1 := by
    rw [hc, shortcut_of_ne (by simp), Nat.zero_add]
  have hnot : shortcut op.other leave (0 + k + 1) ((!c) ^^ negated) = leave (!op.short) := by
    rw [Bool.not_xor, hc, ← op.short_other, shortcut_short]
  constructor
  · intro heq
    have hget := congrArg (·[k]?) heq
    simp only [hsite.replaced] at hget
    rw [List.getElem?_set_self hlt, List.getElem?_set_self hlt] at hget
    have hvalue := congrFun (Option.some.inj hget) (!c)
    rwa [rewired, if_neg (Bool.not_ne_self c), hnot] at hvalue
  · intro hsecond
    rw [hsite.replaced]
    refine congrArg (nodes.set k) (funext fun b => ?_)
    by_cases hb : b = c
    · rw [hb, hself, rewired, if_pos rfl, hother]
    · obtain rfl : b = !c := Bool.eq_not.mpr hb
      rw [hnot, rewired, if_neg hb, hsecond]

omit hk hfound hchain in
/-- The branches of the right operand, and which of them decide it. -/
theorem exists_deciding {i : Nat} (hi : i < right.size) : ∃ next, nodes[k + 1 + i]? = some next ∧
    (right.deciding op.short op.short)[i]? = some (decide (next op.short = leave op.short)) := by
  have hi' : i < (right.branches (0 + k + 1) leave).length := by simpa using hi
  exact ⟨_, hsite.operand i _ (List.getElem?_eq_getElem hi'),
    getElem?_deciding hsite.leaves (List.getElem?_eq_getElem hi') _ _⟩

omit hk hfound hchain in
theorem exists_last : ∃ negated', nodes[k + right.size]? = some fun b => leave (b ^^ negated') := by
  obtain ⟨negated', hlast⟩ := right.getElem?_branches_last
  have hget := hsite.operand _ _ (hlast (0 + k + 1) leave)
  have hpos := right.size_pos
  rw [show k + 1 + (right.size - 1) = k + right.size by omega] at hget
  exact ⟨negated', hget⟩

/-- A branch that leaves the right operand with either value is the last one. -/
theorem eq_last_of_leaves (hsecond : second (!op.short) = leave (!op.short)) :
    j = k + right.size := by
  obtain ⟨-, hfirst, -⟩ := first_of_found hchain hsite hk hfound
  have hsame : ∀ b, second b = leave b := by
    intro b
    by_cases hb : b = op.short
    · rw [hb, hfound.meets, hfirst]
    · rw [Bool.eq_not.mpr hb, hsecond]
  -- one exit is the block behind the right operand, and one target that behind the branch
  obtain ⟨b, hb, -⟩ := hsite.leaves
  obtain ⟨d, hd, -⟩ := hchain.next j second hfound.get
  have hjump := (hchain.lt_next hfound.get b).1
  have hle := (hsite.leaves.le d).1
  rw [hsame] at hd hjump
  omega

/-- The search comes to the last branch if no earlier one of the right operand meets the
    first one. -/
theorem eq_last_of_deciding {negated' : Bool}
    (hlast : nodes[k + right.size]? = some fun b => leave (b ^^ negated'))
    (hdecides : leave (op.short ^^ negated') = leave op.short)
    (hbefore : ∀ i, i < right.size - 1 → (right.deciding op.short op.short)[i]? = some false) :
    j = k + right.size := by
  obtain ⟨-, hfirst, -⟩ := first_of_found hchain hsite hk hfound
  have hkj := hfound.lt
  rcases Nat.lt_trichotomy j (k + right.size) with hlt | heq | hgt
  · obtain ⟨next, hnext, hdeciding⟩ := exists_deciding hsite (by omega : j - (k + 1) < right.size)
    rw [show k + 1 + (j - (k + 1)) = j by omega, hfound.get] at hnext
    cases hnext
    rw [hbefore _ (by omega), decide_eq_true (hfound.meets.trans hfirst)] at hdeciding
    cases hdeciding
  · exact heq
  · have hpos := right.size_pos
    have hne := hfound.before _ _ (by omega) hgt hlast c
    exact absurd (hdecides.trans hfirst.symm) hne

/-- The second branch leaves the right operand with either value if and only if the last
    branch alone decides it. -/
theorem leaves_iff_deciding : second (!op.short) = leave (!op.short) ↔
    right.deciding op.short op.short = List.replicate (right.size - 1) false ++ [true] := by
  obtain ⟨-, hfirst, -⟩ := first_of_found hchain hsite hk hfound
  have hpos := right.size_pos
  have hback : k + 1 + (right.size - 1) = k + right.size := by omega
  rw [eq_replicate_concat_iff (by rw [length_deciding]; omega)]
  constructor
  · intro hsecond
    have hj := eq_last_of_leaves hchain hsite hk hfound hsecond
    constructor
    · obtain ⟨next, hnext, hdeciding⟩ :=
        exists_deciding hsite (by omega : right.size - 1 < right.size)
      rw [hback, ← hj, hfound.get] at hnext
      cases hnext
      rw [hdeciding, decide_eq_true (hfound.meets.trans hfirst)]
    · intro i hi
      obtain ⟨next, hnext, hdeciding⟩ := exists_deciding hsite (by omega : i < right.size)
      have hne := hfound.before _ next (by omega) (by omega) hnext c
      rw [hfirst] at hne
      rw [hdeciding, decide_eq_false hne]
  · rintro ⟨hdecides, hbefore⟩
    obtain ⟨negated', hlast⟩ := exists_last hsite
    obtain ⟨next, hnext, hdeciding⟩ :=
      exists_deciding hsite (by omega : right.size - 1 < right.size)
    rw [hback, hlast] at hnext
    cases hnext
    rw [hdecides] at hdeciding
    have hsame := of_decide_eq_true (Option.some.inj hdeciding).symm
    have hget := hfound.get
    rw [eq_last_of_deciding hchain hsite hk hfound hlast hsame hbefore, hlast] at hget
    rw [← Option.some.inj hget]
    -- the exits are different, so that the last atom is not negated
    have hpositive : (op.short ^^ negated') = op.short := hsite.leaves.injective hsame
    show leave ((!op.short) ^^ negated') = leave (!op.short)
    rw [Bool.not_xor, hpositive]

end Replaced

theorem findInstruction_graph {nodes : Nodes} {address : MutationPointAddress} {condition : Operand}
    {ifTrue ifFalse : Nat}
    (h : address.findInstruction (graph nodes) = some (.condBr condition ifTrue ifFalse)) :
    address.instructionIndex = 0 ∧ ∃ next, nodes[address.basicBlockIndex]? = some next ∧
      ifTrue = next true ∧ ifFalse = next false := by
  obtain ⟨block, hblock, hinstruction⟩ := Option.bind_eq_some_iff.mp h
  have hmem : (⟨address.basicBlockIndex, address.instructionIndex, ifTrue, ifFalse⟩ :
      ConditionalBranch) ∈ conditionalBranches (graph nodes) :=
    mem_conditionalBranches.mpr ⟨block, condition, hblock, hinstruction⟩
  rw [conditionalBranches_graph, List.mem_mapIdx] at hmem
  obtain ⟨i, hi, heq⟩ := hmem
  simp only [branchOf, ConditionalBranch.mk.injEq] at heq
  obtain ⟨rfl, hposition, htrue, hfalse⟩ := heq
  exact ⟨hposition.symm, _, List.getElem?_eq_getElem hi, htrue.symm, hfalse.symm⟩

/-- A chain decides an expression of as many atoms only if it is its own. -/
theorem eq_nodes_of_decision {chain : Nodes} (hchain : IsChain chain) {e : Condition}
    (hlength : chain.length = e.size)
    (h : ∀ v, decision (graph chain) v = some (e.eval v 0)) : chain = e.nodes := by
  refine hchain.eq_of_exit_eq e.isChain_nodes (hlength.trans (e.length_branches _ _).symm) fun v => ?_
  rw [exit_nodes, ← hlength]
  exact (decision_graph_iff hchain v _).mp (h v)

/-- **A logical mutator replaces one operator of a condition if and only if the atom of the
    branch is the left operand of one, and in the right operand the last atom alone decides
    as the operator does.** -/
theorem replaces_one_operator_iff (op : LogicalOperator) (e : Condition)
    (address : MutationPointAddress) {condition : Operand} {ifTrue ifFalse : Nat}
    (hbranch : address.findInstruction e.lower = some (.condBr condition ifTrue ifFalse))
    {found : LogicalPattern × ConditionalBranch}
    (hfound : op.rules.findPossibleMutationInBranch e.lower
      ⟨address.basicBlockIndex, address.instructionIndex, ifTrue, ifFalse⟩ = some found) :
    ∃ blocks', op.rules.applyMutation address e.lower = some blocks' ∧
      ((∃ e', OneReplaced op e e' ∧ ∀ v, decision blocks' v = some (e'.eval v 0)) ↔
        e.replaceable op address.basicBlockIndex) := by
  obtain ⟨functionIndex, k, i⟩ := address
  obtain ⟨rfl, first, hk, rfl, rfl⟩ := findInstruction_graph hbranch
  obtain ⟨j, second, c, hpair, happly⟩ := applyMutation_graph hk hfound functionIndex
  refine ⟨_, happly, ?_⟩
  have hleaves := e.leaves_nodes
  have hchain := e.isChain_nodes
  have hrewired := isChain_set_rewired hchain hk hpair
  constructor
  · rintro ⟨e', hreplaced, hdecides⟩
    have hset := eq_nodes_of_decision hrewired
      (by rw [List.length_set, nodes, length_branches, hreplaced.size_eq]) hdecides
    have hset' : e'.branches 0 (exits e.size) = (e.branches 0 (exits e.size)).set k
        (rewired op first second c) := by
      rw [← nodes, hset, nodes, hreplaced.size_eq]
    obtain ⟨right, hright, negated, leave, hsite⟩ := hreplaced.site hleaves hset'
    rw [replaceable, hright, Option.any_some, decide_eq_true_eq,
      ← leaves_iff_deciding hchain hsite hk hpair, ← set_rewired_eq_iff hchain hsite hk hpair]
    exact hset'.symm
  · intro hreplaceable
    obtain ⟨right, hright, hdeciding⟩ := (Option.any_eq_true _ _).mp hreplaceable
    obtain ⟨e', hreplaced, hsites⟩ := exists_site hright
    obtain ⟨negated, leave, hsite⟩ := hsites 0 _ _ hleaves
    have hset := (set_rewired_eq_iff hchain hsite hk hpair).mpr
      ((leaves_iff_deciding hchain hsite hk hpair).mpr (of_decide_eq_true hdeciding))
    refine ⟨e', hreplaced, fun v => ?_⟩
    rw [hset, ← hreplaced.size_eq]
    exact e'.decision_lower v

/-- `(a && b) && c`. -/
def conjunctions : Condition := .binary .and (.binary .and .atom .atom) .atom

/-- `(a || b) && c`. -/
def disjunctionAndAtom : Condition := .binary .and (.binary .or .atom .atom) .atom

/-- At the first branch of `(a && b) && c`, one operator is replaced. -/
theorem replaces_one_operator_conjunctions :
    ∃ blocks', LogicalAndToOr.rules.applyMutation ⟨0, 0, 0⟩ conjunctions.lower = some blocks' ∧
      ∃ e', OneReplaced .and conjunctions e' ∧ ∀ v, decision blocks' v = some (e'.eval v 0) := by
  obtain ⟨blocks', happly, hiff⟩ := @replaces_one_operator_iff .and conjunctions ⟨0, 0, 0⟩
    (.argument 0) 1 4 (by decide) (.pattern1, ⟨1, 0, 2, 4⟩) (by decide)
  exact ⟨blocks', happly, hiff.mpr (by decide)⟩

/-- At the second branch of `(a || b) && c`, the mutator makes `a ? c : b || c` of it. -/
theorem not_replaces_one_operator_disjunction :
    LogicalAndToOr.rules.findPossibleMutationInBranch disjunctionAndAtom.lower ⟨1, 0, 2, 4⟩ =
      some (.pattern1, ⟨2, 0, 3, 4⟩) ∧
    ∃ blocks', LogicalAndToOr.applyMutation ⟨0, 1, 0⟩ disjunctionAndAtom.lower = some blocks' ∧
      ¬ ∃ e', OneReplaced .and disjunctionAndAtom e' ∧
        ∀ v, decision blocks' v = some (e'.eval v 0) := by
  refine ⟨by decide, _, rfl, ?_⟩
  rintro ⟨e', hreplaced, hdecides⟩
  have hv := hdecides fun i => i = 0
  cases hreplaced with
  | here => exact absurd hv (by decide)
  | left _ _ h =>
      cases h with
      | left _ _ h => cases h
      | right _ _ h => cases h
  | right _ _ h => cases h

end Condition

end Mull.LogicalExpressions
