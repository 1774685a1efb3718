import Mathlib.Algebra.BigOperators.Group.List.Basic
import Mathlib.Algebra.GroupWithZero.Nat

/-!
# The progress reporter

The reporter polls the workers' counters one after another, adds them up, and
leaves its loop when the sum is the total.  The counters may change between two of
its reads.  Once they stay the same and add up to the total, the poll under way may
still end with a stale sum, but the next one ends the loop (`remaining_step_lt`).

The progress bar that `printProgress` writes is not part of the model.
-/

namespace Mull.Progress

/-- The reporter inside its loop, about to read counter `next` with the sum of the
    counters before it, or past the loop. -/
inductive Reporter where
  | polling (next current : Nat)
  | exited
deriving DecidableEq, Repr

namespace Reporter

def step (counters : List Nat) (total : Nat) : Reporter → Reporter
  | .exited => .exited
  | .polling next current =>
      match counters[next]? with
      | some value => .polling (next + 1) (current + value)
      | none =>
          if current = 0 then .polling 0 0
          else if current = total then .exited
          else .polling 0 0

/-- A turn reads a counter, starts over, or leaves the loop with the total. -/
theorem step_cases (counters : List Nat) (total next current : Nat) :
    (∃ value, counters[next]? = some value ∧
      step counters total (.polling next current) = .polling (next + 1) (current + value)) ∨
    (counters.length ≤ next ∧ (current = 0 ∨ current ≠ total) ∧
      step counters total (.polling next current) = .polling 0 0) ∨
    (counters.length ≤ next ∧ current ≠ 0 ∧ current = total ∧
      step counters total (.polling next current) = .exited) := by
  cases hget : counters[next]? with
  | some value => exact .inl ⟨value, rfl, by simp only [step, hget]⟩
  | none =>
      have hlength := List.getElem?_eq_none_iff.mp hget
      by_cases hzero : current = 0
      · exact .inr (.inl ⟨hlength, .inl hzero, by simp only [step, hget, if_pos hzero]⟩)
      · by_cases htotal : current = total
        · exact .inr (.inr ⟨hlength, hzero, htotal,
            by simp only [step, hget, if_neg hzero, if_pos htotal]⟩)
        · exact .inr (.inl ⟨hlength, .inr htotal,
            by simp only [step, hget, if_neg hzero, if_neg htotal]⟩)

/-- The turns left until the loop ends, if the counters stay the same and add up to
    the total: what is left of this poll and, if its sum is stale, another one. -/
def remaining (counters : List Nat) : Reporter → Nat
  | .exited => 0
  | .polling next current =>
      (counters.length - next) + 1 +
        if current = (counters.take next).sum then 0 else counters.length + 1

theorem remaining_le (counters : List Nat) (r : Reporter) :
    r.remaining counters ≤ 2 * (counters.length + 1) := by
  cases r with
  | exited => exact Nat.zero_le _
  | polling next current =>
      simp only [remaining]
      split <;> omega

theorem sum_take_succ {counters : List Nat} {next value : Nat}
    (h : counters[next]? = some value) :
    (counters.take (next + 1)).sum = (counters.take next).sum + value := by
  rw [List.take_add_one, h, List.sum_append]
  simp

theorem remaining_step_lt {counters : List Nat} {total : Nat} (hsum : counters.sum = total)
    (hpos : total ≠ 0) {r : Reporter} (hr : r ≠ .exited) :
    (r.step counters total).remaining counters < r.remaining counters := by
  cases r with
  | exited => exact absurd rfl hr
  | polling next current =>
      rcases step_cases counters total next current with
        ⟨value, hget, hstep⟩ | ⟨hlength, hagain, hstep⟩ | ⟨-, -, -, hstep⟩
      · -- a read keeps the sum exact or stale
        obtain ⟨hnext, -⟩ := List.getElem?_eq_some_iff.mp hget
        have htake := sum_take_succ hget
        rw [hstep]
        simp only [remaining]
        split <;> split <;> omega
      · -- the sum was stale: the next poll starts with the exact sum of no counters
        have hall : (counters.take next).sum = total := by
          rw [List.take_of_length_le hlength, hsum]
        have hstale : current ≠ (counters.take next).sum := by omega
        rw [hstep]
        simp only [remaining, List.take_zero, List.sum_nil, if_true, if_neg hstale]
        omega
      · rw [hstep]
        simp only [remaining]
        omega

end Reporter

end Mull.Progress
