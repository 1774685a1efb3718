import Mathlib.Logic.Relation
import Mathlib.Algebra.BigOperators.Group.List.Basic
import Mathlib.Algebra.Order.BigOperators.Group.List
import Mathlib.Algebra.GroupWithZero.Nat

/-!
# Walking a forest with a queue

`walk children fuel queue` is the loop that takes the front of a queue, visits
it, and appends its children at the back, until the queue is empty.  Its result
is the list of visited nodes in the order of the visits, or `none` when `fuel`
visits were not enough.

A size function that decreases from a node to its children bounds the number of
visits (`walk_total`), and the visited nodes are exactly the descendants of the
nodes in the queue (`mem_walk_iff`).  The visits start at the front of the queue and
go level by level (`walk_sorted`), and in a forest no node is visited twice
(`walk_nodup`).
-/

namespace QueueWalk

variable {τ : Type} (children : τ → List τ)

/-- The queue loop: visited nodes in order, or `none` when out of fuel. -/
def walk : Nat → List τ → Option (List τ)
  | _, [] => some []
  | 0, _ :: _ => none
  | fuel + 1, node :: queue => (walk fuel (queue ++ children node)).map (node :: ·)

/-- `Descendant s t`: `t` is `s` itself or lies below it. -/
abbrev Descendant : τ → τ → Prop := Relation.ReflTransGen fun s t => t ∈ children s

@[simp] theorem walk_nil (fuel : Nat) : walk children fuel [] = some [] := by
  cases fuel <;> rfl

@[simp] theorem walk_cons (fuel : Nat) (node : τ) (queue : List τ) :
    walk children (fuel + 1) (node :: queue) =
      (walk children fuel (queue ++ children node)).map (node :: ·) := rfl

theorem descendant_iff (s t : τ) :
    Descendant children s t ↔ s = t ∨ ∃ c ∈ children s, Descendant children c t := by
  constructor
  · intro h
    rcases Relation.ReflTransGen.cases_head h with heq | ⟨c, hc, hct⟩
    · exact Or.inl heq
    · exact Or.inr ⟨c, hc, hct⟩
  · rintro (rfl | ⟨c, hc, hct⟩)
    · exact Relation.ReflTransGen.refl
    · exact Relation.ReflTransGen.head hc hct

/-- With one unit of fuel per node the walk ends. -/
theorem walk_total (size : τ → Nat)
    (hsize : ∀ t, ((children t).map size).sum < size t) (fuel : Nat) (queue : List τ)
    (hfuel : (queue.map size).sum ≤ fuel) : ∃ visited, walk children fuel queue = some visited := by
  induction fuel generalizing queue with
  | zero =>
      cases queue with
      | nil => exact ⟨[], rfl⟩
      | cons node queue =>
          have hpos := hsize node
          simp only [List.map_cons, List.sum_cons] at hfuel
          omega
  | succ fuel ih =>
      cases queue with
      | nil => exact ⟨[], rfl⟩
      | cons node queue =>
          have hnode := hsize node
          have htail : ((queue ++ children node).map size).sum ≤ fuel := by
            simp only [List.map_cons, List.sum_cons] at hfuel
            rw [List.map_append, List.sum_append]
            omega
          obtain ⟨visited, hvisited⟩ := ih _ htail
          exact ⟨node :: visited, by rw [walk_cons, hvisited]; rfl⟩

theorem walk_eq_some_cons {fuel : Nat} {node : τ} {queue visited : List τ}
    (h : walk children fuel (node :: queue) = some visited) :
    ∃ smaller rest, fuel = smaller + 1 ∧
      walk children smaller (queue ++ children node) = some rest ∧ visited = node :: rest := by
  cases fuel with
  | zero => simp [walk] at h
  | succ fuel =>
      rw [walk_cons, Option.map_eq_some_iff] at h
      obtain ⟨rest, hrest, rfl⟩ := h
      exact ⟨fuel, rest, rfl, hrest, rfl⟩

/-- What holds of the empty queue, and of a queue if it holds of the rest of its walk, holds of
    every walk. -/
theorem walk_induction {motive : List τ → List τ → Prop} (nil : motive [] [])
    (cons : ∀ fuel node queue rest, walk children fuel (queue ++ children node) = some rest →
      motive (queue ++ children node) rest → motive (node :: queue) (node :: rest))
    {fuel : Nat} {queue visited : List τ} (h : walk children fuel queue = some visited) :
    motive queue visited := by
  induction fuel generalizing queue visited with
  | zero =>
      cases queue with
      | nil =>
          rcases Option.some.inj h with rfl
          exact nil
      | cons node queue => cases h
  | succ fuel ih =>
      cases queue with
      | nil =>
          rcases Option.some.inj h with rfl
          exact nil
      | cons node queue =>
          rcases walk_eq_some_cons children h with ⟨_, rest, hfuel, hrest, rfl⟩
          rcases Nat.succ.inj hfuel with rfl
          exact cons _ node queue rest hrest (ih hrest)

/-- The visited nodes are the descendants of the nodes in the queue. -/
theorem mem_walk_iff {fuel : Nat} {queue visited : List τ}
    (h : walk children fuel queue = some visited) (t : τ) :
    t ∈ visited ↔ ∃ s ∈ queue, Descendant children s t := by
  refine walk_induction children
    (motive := fun queue visited => t ∈ visited ↔ ∃ s ∈ queue, Descendant children s t) ?_ ?_ h
  · simp
  · intro fuel node queue rest hrest ih
    rw [List.mem_cons, ih]
    constructor
    · rintro (rfl | ⟨s, hs, hst⟩)
      · exact ⟨t, List.mem_cons_self, Relation.ReflTransGen.refl⟩
      · rcases List.mem_append.mp hs with hs | hs
        · exact ⟨s, List.mem_cons_of_mem _ hs, hst⟩
        · exact ⟨node, List.mem_cons_self, Relation.ReflTransGen.head hs hst⟩
    · rintro ⟨s, hs, hst⟩
      rcases List.mem_cons.mp hs with rfl | hs
      · rcases (descendant_iff children s t).mp hst with heq | ⟨c, hc, hct⟩
        · exact Or.inl heq.symm
        · exact Or.inr ⟨c, List.mem_append_right _ hc, hct⟩
      · exact Or.inr ⟨s, List.mem_append_left _ hs, hst⟩

/-- What does not decrease from a node to its children does not decrease further below. -/
theorem le_of_descendant {α : Type} [Preorder α] {rank : τ → α}
    (hrank : ∀ s, ∀ c ∈ children s, rank s ≤ rank c) {s t : τ} (h : Descendant children s t) :
    rank s ≤ rank t := by
  induction h with
  | refl => exact le_rfl
  | tail _ hc ih => exact le_trans ih (hrank _ _ hc)

/-- `DescendantAt k s t`: `t` lies `k` levels below `s`. -/
inductive DescendantAt : Nat → τ → τ → Prop
  | refl (s : τ) : DescendantAt 0 s s
  | tail {k : Nat} {s t c : τ} (h : DescendantAt k s t) (hc : c ∈ children t) :
      DescendantAt (k + 1) s c

theorem DescendantAt.descendant {k : Nat} {s t : τ} (h : DescendantAt children k s t) :
    Descendant children s t := by
  induction h with
  | refl => exact Relation.ReflTransGen.refl
  | tail _ hc ih => exact ih.tail hc

theorem exists_descendantAt {s t : τ} (h : Descendant children s t) :
    ∃ k, DescendantAt children k s t := by
  induction h with
  | refl => exact ⟨0, .refl s⟩
  | tail _ hc ih =>
      obtain ⟨k, hk⟩ := ih
      exact ⟨k + 1, hk.tail hc⟩

theorem DescendantAt.exists_path {k : Nat} {s t : τ} (h : DescendantAt children k s t) :
    ∃ path : Nat → τ, path 0 = s ∧ path k = t ∧ ∀ i < k, path (i + 1) ∈ children (path i) := by
  induction h with
  | refl s => exact ⟨fun _ => s, rfl, rfl, by simp⟩
  | @tail k s t c _ hc ih =>
      obtain ⟨path, hstart, hend, hpath⟩ := ih
      refine ⟨fun i => if i ≤ k then path i else c, by simpa using hstart, by simp, ?_⟩
      intro i hi
      by_cases hlast : i = k
      · have hnot : ¬ k + 1 ≤ k := by omega
        simp [hlast, hend, hnot, hc]
      · have hlt : i < k := by omega
        simpa [hlt.le, Nat.succ_le_of_lt hlt] using hpath i hlt

/-- A walk of images is the image of a walk. -/
theorem walk_map {σ : Type} {kids : σ → List σ} (g : σ → τ)
    (hkids : ∀ s, children (g s) = (kids s).map g) (fuel : Nat) (queue : List σ) :
    walk children fuel (queue.map g) = (walk kids fuel queue).map (List.map g) := by
  induction fuel generalizing queue with
  | zero => cases queue <;> rfl
  | succ fuel ih =>
      cases queue with
      | nil => rfl
      | cons node queue =>
          rw [List.map_cons, walk_cons, walk_cons, hkids, ← List.map_append, ih]
          cases walk kids fuel (queue ++ kids node) <;> rfl

/-- The levels of a queue that is walked: in order, and at most two of them. -/
structure Leveled (level : τ → Int) (queue : List τ) : Prop where
  sorted : queue.Pairwise fun s t => level s ≤ level t
  spread : ∀ s ∈ queue, ∀ t ∈ queue, level t ≤ level s + 1

theorem Leveled.next {level : τ → Int} {node : τ} {queue : List τ}
    (h : Leveled level (node :: queue))
    (hchildren : ∀ s, ∀ c ∈ children s, level c = level s + 1) :
    Leveled level (queue ++ children node) := by
  obtain ⟨hfirst, hsorted⟩ := List.pairwise_cons.mp h.sorted
  have hspread : ∀ t ∈ queue, level t ≤ level node + 1 := fun t ht =>
    h.spread node List.mem_cons_self t (List.mem_cons_of_mem _ ht)
  constructor
  · rw [List.pairwise_append]
    refine ⟨hsorted, ?_, fun s hs c hc => ?_⟩
    · refine List.pairwise_iff_forall_sublist.mpr fun {s t} hsub => ?_
      rw [hchildren node s (hsub.subset (by simp)), hchildren node t (hsub.subset (by simp))]
    · rw [hchildren node c hc]
      exact hspread s hs
  · intro s hs t ht
    -- both levels are that of the node, or the next one
    have hrange : ∀ u ∈ queue ++ children node, level node ≤ level u ∧ level u ≤ level node + 1 := by
      intro u hu
      rcases List.mem_append.mp hu with hu | hu
      · exact ⟨hfirst u hu, hspread u hu⟩
      · have := hchildren node u hu
        omega
    have hs := hrange s hs
    have ht := hrange t ht
    omega

/-- The visits go level by level. -/
theorem walk_sorted {level : τ → Int} (hchildren : ∀ s, ∀ c ∈ children s, level c = level s + 1)
    {fuel : Nat} {queue visited : List τ} (hqueue : Leveled level queue)
    (h : walk children fuel queue = some visited) :
    visited.Pairwise fun s t => level s ≤ level t := by
  refine walk_induction children (motive := fun queue visited => Leveled level queue →
    visited.Pairwise fun s t => level s ≤ level t) ?_ ?_ h hqueue
  · simp
  · intro fuel node queue rest hrest ih hqueue
    refine List.pairwise_cons.mpr ⟨?_, ih (hqueue.next children hchildren)⟩
    intro t ht
    -- below a node of the queue the levels only grow
    obtain ⟨s, hs, hst⟩ := (mem_walk_iff children hrest t).mp ht
    have hgrows : ∀ u, ∀ c ∈ children u, level u ≤ level c := fun u c hc => by
      rw [hchildren u c hc]
      omega
    refine le_trans ?_ (le_of_descendant children hgrows hst)
    rcases List.mem_append.mp hs with hs | hs
    · exact List.rel_of_pairwise_cons hqueue.sorted hs
    · have := hchildren _ _ hs
      omega

/-- No node of the queue lies below another one. -/
def Antichain (queue : List τ) : Prop :=
  queue.Pairwise fun s t => ¬ Descendant children s t ∧ ¬ Descendant children t s

/-- In a forest every node is visited once: a node has one parent at most, and `rank`
    grows from a node to its children. -/
theorem walk_nodup {rank : τ → Nat} (hkids : ∀ s, (children s).Nodup)
    (hparent : ∀ s t c, c ∈ children s → c ∈ children t → s = t)
    (hrank : ∀ s, ∀ c ∈ children s, rank s < rank c)
    {fuel : Nat} {queue visited : List τ} (hqueue : Antichain children queue)
    (h : walk children fuel queue = some visited) : visited.Nodup := by
  have hgrows : ∀ s t, Descendant children s t → rank s ≤ rank t := fun s t =>
    le_of_descendant children fun s c hc => (hrank s c hc).le
  -- below a parent and not the parent itself: below one of its children
  have hstep : ∀ s c node, c ∈ children node → Descendant children s c →
      s = c ∨ Descendant children s node := by
    intro s c node hc hsc
    rcases Relation.ReflTransGen.cases_tail hsc with heq | ⟨p, hsp, hp⟩
    · exact Or.inl heq.symm
    · exact Or.inr (hparent p node c hp hc ▸ hsp)
  refine walk_induction children (motive := fun queue visited => Antichain children queue →
    visited.Nodup) ?_ ?_ h hqueue
  · simp
  · intro fuel node queue rest hrest ih hqueue
    obtain ⟨hnode, hrestqueue⟩ := List.pairwise_cons.mp hqueue
    refine List.nodup_cons.mpr ⟨fun hmem => ?_, ih ?_⟩
    · obtain ⟨s, hs, hst⟩ := (mem_walk_iff children hrest node).mp hmem
      rcases List.mem_append.mp hs with hs | hs
      · exact (hnode s hs).2 hst
      · have := hgrows _ _ hst
        have := hrank _ _ hs
        omega
    · refine List.pairwise_append.mpr ⟨hrestqueue, ?_, fun s hs c hc => ⟨?_, ?_⟩⟩
      · refine (hkids node).imp_of_mem fun {c d} hc hd hne => ⟨fun hcd => ?_, fun hdc => ?_⟩
        · rcases hstep c d node hd hcd with heq | hup
          · exact hne heq
          · have := hgrows _ _ hup
            have := hrank _ _ hc
            omega
        · rcases hstep d c node hc hdc with heq | hup
          · exact hne heq.symm
          · have := hgrows _ _ hup
            have := hrank _ _ hd
            omega
      · intro hsc
        rcases hstep s c node hc hsc with rfl | hup
        · exact (hnode s hs).1 (Relation.ReflTransGen.single hc)
        · exact (hnode s hs).2 hup
      · intro hcs
        exact (hnode s hs).1 (Relation.ReflTransGen.head hc hcs)

end QueueWalk
