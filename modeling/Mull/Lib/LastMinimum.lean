import Mathlib.Data.List.Induction
import Mathlib.Order.Lattice

/-!
# The last of the smallest elements

A running minimum over the elements that count, in which an element replaces one that is not
smaller, ends with the last of the smallest elements (`isLastMinimum_of_eq_some`).  It is empty
exactly if no element counts, and an element that comes again right away changes nothing.
-/

namespace LastMinimum

variable {α β : Type} [LinearOrder β] (counts : α → Bool) (measure : α → β)

/-- One step of the running minimum. -/
def keep (best : Option α) (x : α) : Option α :=
  if counts x then
    match best with
    | none => some x
    | some kept => if measure x ≤ measure kept then some x else some kept
  else best

def lastMinimum (xs : List α) : Option α := xs.foldl (keep counts measure) none

/-- `x` counts, none before it is smaller, and all behind it are larger. -/
def IsLastMinimum (xs : List α) (x : α) : Prop :=
  counts x ∧ ∃ before after, xs = before ++ x :: after ∧
    (∀ y ∈ before, counts y → measure x ≤ measure y) ∧
    ∀ y ∈ after, counts y → measure x < measure y

section Spec

variable {counts : α → Bool} {measure : α → β} {xs : List α} {x y : α}

theorem keep_of_not (best : Option α) (hx : ¬ counts x) : keep counts measure best x = best := by
  simp [keep, hx]

theorem keep_none (hx : counts x) : keep counts measure none x = some x := by
  simp [keep, hx]

theorem keep_some (hx : counts x) (kept : α) :
    keep counts measure (some kept) x =
      if measure x ≤ measure kept then some x else some kept := by
  simp [keep, hx]

theorem lastMinimum_concat (xs : List α) (x : α) :
    lastMinimum counts measure (xs ++ [x]) =
      keep counts measure (lastMinimum counts measure xs) x := by
  simp [lastMinimum]

/-- What comes behind and does not replace the last minimum leaves it as it is. -/
theorem IsLastMinimum.concat (h : IsLastMinimum counts measure xs x)
    (hy : counts y → measure x < measure y) : IsLastMinimum counts measure (xs ++ [y]) x := by
  rcases h with ⟨hx, before, after, rfl, hbefore, hafter⟩
  refine ⟨hx, before, after ++ [y], by simp, hbefore, ?_⟩
  intro z hz hcounts
  rcases List.mem_append.mp hz with hz | hz
  · exact hafter z hz hcounts
  · rcases List.mem_singleton.mp hz with rfl
    exact hy hcounts

/-- Everything that counts is at least as large. -/
theorem IsLastMinimum.le (h : IsLastMinimum counts measure xs x) (hy : y ∈ xs)
    (hcounts : counts y) : measure x ≤ measure y := by
  rcases h with ⟨-, before, after, rfl, hbefore, hafter⟩
  rcases List.mem_append.mp hy with hy | hy
  · exact hbefore y hy hcounts
  · rcases List.mem_cons.mp hy with rfl | hy
    · exact le_rfl
    · exact (hafter y hy hcounts).le

/-- An element that is not larger than the last minimum is the next one. -/
theorem isLastMinimum_concat_self (hx : counts x)
    (hle : ∀ y ∈ xs, counts y → measure x ≤ measure y) :
    IsLastMinimum counts measure (xs ++ [x]) x :=
  ⟨hx, xs, [], rfl, hle, by simp⟩

/-- The elements seen so far determine what the running minimum is. -/
theorem lastMinimum_spec (counts : α → Bool) (measure : α → β) (xs : List α) :
    (lastMinimum counts measure xs = none ∧ ∀ x ∈ xs, ¬ counts x) ∨
      ∃ x, lastMinimum counts measure xs = some x ∧ IsLastMinimum counts measure xs x := by
  induction xs using List.reverseRecOn with
  | nil => exact .inl ⟨rfl, by simp⟩
  | append_singleton xs y ih =>
      rw [lastMinimum_concat]
      by_cases hy : counts y
      · rcases ih with ⟨hbest, hnone⟩ | ⟨x, hbest, hx⟩
        · refine .inr ⟨y, by rw [hbest, keep_none hy], isLastMinimum_concat_self hy ?_⟩
          intro z hz hcounts
          exact absurd hcounts (hnone z hz)
        · rw [hbest, keep_some hy]
          by_cases hle : measure y ≤ measure x
          · refine .inr ⟨y, if_pos hle, isLastMinimum_concat_self hy ?_⟩
            intro z hz hcounts
            exact hle.trans (hx.le hz hcounts)
          · exact .inr ⟨x, if_neg hle, hx.concat fun _ => lt_of_not_ge hle⟩
      · rw [keep_of_not _ hy]
        rcases ih with ⟨hbest, hnone⟩ | ⟨x, hbest, hx⟩
        · refine .inl ⟨hbest, ?_⟩
          intro z hz
          rcases List.mem_append.mp hz with hz | hz
          · exact hnone z hz
          · rwa [List.mem_singleton.mp hz]
        · exact .inr ⟨x, hbest, hx.concat fun hcounts => absurd hcounts hy⟩

theorem lastMinimum_eq_none_iff :
    lastMinimum counts measure xs = none ↔ ∀ x ∈ xs, ¬ counts x := by
  rcases lastMinimum_spec counts measure xs with ⟨hbest, hnone⟩ | ⟨x, hbest, hx, before, after, rfl, -⟩
  · exact iff_of_true hbest hnone
  · refine iff_of_false (by simp [hbest]) ?_
    intro hnone
    exact hnone x (by simp) hx

theorem isLastMinimum_of_eq_some (h : lastMinimum counts measure xs = some x) :
    IsLastMinimum counts measure xs x := by
  rcases lastMinimum_spec counts measure xs with ⟨hbest, -⟩ | ⟨y, hbest, hy⟩
  · rw [hbest] at h
    cases h
  · rw [hbest] at h
    rwa [← Option.some.inj h]

/-- An element that comes again right away changes nothing. -/
theorem keep_keep (best : Option α) (x : α) :
    keep counts measure (keep counts measure best x) x = keep counts measure best x := by
  by_cases hx : counts x
  · cases best with
    | none => rw [keep_none hx, keep_some hx, if_pos le_rfl]
    | some kept =>
        rw [keep_some hx]
        by_cases hle : measure x ≤ measure kept
        · rw [if_pos hle, keep_some hx, if_pos le_rfl]
        · rw [if_neg hle, keep_some hx, if_neg hle]
  · rw [keep_of_not _ hx, keep_of_not _ hx]

/-- How often an element comes in a row does not matter. -/
theorem foldl_keep_replicate (best : Option α) (x : α) (n : Nat) :
    (List.replicate (n + 1) x).foldl (keep counts measure) best = keep counts measure best x := by
  induction n generalizing best with
  | zero => rfl
  | succ n ih =>
      rw [List.replicate_succ, List.foldl_cons, ih, keep_keep]

theorem lastMinimum_flatMap_replicate (times : α → Nat) (xs : List α) :
    lastMinimum counts measure (xs.flatMap fun x => List.replicate (times x) x) =
      lastMinimum counts measure (xs.filter fun x => times x ≠ 0) := by
  unfold lastMinimum
  generalize none = best
  induction xs generalizing best with
  | nil => rfl
  | cons x xs ih =>
      rw [List.flatMap_cons, List.foldl_append, List.filter_cons]
      cases htimes : times x with
      | zero => simpa using ih best
      | succ n => simpa [foldl_keep_replicate] using ih (keep counts measure best x)

end Spec

end LastMinimum
