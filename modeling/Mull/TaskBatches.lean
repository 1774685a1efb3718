import Mull.Lib.MachineInt
import Mathlib.Algebra.BigOperators.Ring.Finset
import Mathlib.Algebra.Order.Floor.Div
import Mathlib.Tactic.Ring

/-!
# Splitting work into batches

`taskBatches` computes the number of items each worker receives.  Its arguments
are sizes, its arithmetic is on `int`: the sizes are narrowed first, and every
signed computation must stay in range.  Write `N` for the number of items, `w`
for the number of workers, `a = N / w` and `b = N % w`.  The first `b` workers
get `a + 1` items and the others `a`, so that `k * a + min k b` items are given
out to the first `k` workers.

The sum `s + end` in the loop is the largest value on the way.  In the last
iteration it is `2 * N - a`, and this is what decides whether the computation is
defined at all (`taskBatches_eq`).
-/

namespace Mull.TaskBatches

open MachineInt

/-- The variables of the loop.  `start` is the value of `last` before it is
    assigned (`last` is `end` in the source). -/
structure BatchState where
  k : Int
  last : Int
  s : Int
  result : List Int
deriving DecidableEq, Repr

/-- One iteration of the loop, with every signed computation checked. -/
def batchStep (n m : Int) (state : BatchState) : Option BatchState := do
  let d ← checked (n - state.k)
  let q := d.tdiv m
  let r := d.tmod m
  let start := state.last
  let last ← checked (state.last + q)
  let last ← checked (last + if r ≠ 0 then 1 else 0)
  let s ← checked (state.s + last)
  let s ← checked (s - start)
  let size ← checked (last - start)
  return ⟨state.k + 1, last, s, state.result ++ [size]⟩

/-- `for (k = 0; k < m; k++)`, with the number of iterations that remain. -/
def batchLoop (n m : Int) : Nat → BatchState → Option BatchState
  | 0, state => some state
  | remaining + 1, state => (batchStep n m state).bind (batchLoop n m remaining)

/-- `taskBatches`; `none` is a failed assertion or an undefined computation. -/
def taskBatches (itemsCount tasks : Nat) : Option (List Int) :=
  if tasks ≤ itemsCount then
    let n := toInt itemsCount
    let m := toInt tasks
    (batchLoop n m m.toNat ⟨0, 0, 0, []⟩).bind fun state =>
      if state.s = n then some state.result else none
  else none

/-! ### What every completed loop satisfies -/

theorem batchStep_sum {n m : Int} {state next : BatchState} (h : batchStep n m state = some next)
    (hs : state.s = state.result.sum) :
    next.s = next.result.sum ∧ next.result.length = state.result.length + 1 := by
  simp only [batchStep, Option.bind_eq_bind, Option.bind_eq_some_iff, checked_eq_some_iff,
    Option.pure_def, Option.some.injEq] at h
  obtain ⟨d, ⟨rfl, -⟩, last, ⟨rfl, -⟩, last', ⟨rfl, -⟩, s, ⟨rfl, -⟩, s', ⟨rfl, -⟩, size, ⟨rfl, -⟩,
    rfl⟩ := h
  refine ⟨?_, by simp⟩
  simp only [List.sum_append, List.sum_singleton, ← hs]
  ring

theorem batchLoop_sum {n m : Int} {remaining : Nat} {state final : BatchState}
    (h : batchLoop n m remaining state = some final) (hs : state.s = state.result.sum) :
    final.s = final.result.sum ∧ final.result.length = state.result.length + remaining := by
  induction remaining generalizing state with
  | zero =>
      obtain rfl := Option.some.inj h
      exact ⟨hs, rfl⟩
  | succ remaining ih =>
      simp only [batchLoop, Option.bind_eq_some_iff] at h
      obtain ⟨next, hnext, hrest⟩ := h
      obtain ⟨hsum, hlength⟩ := batchStep_sum hnext hs
      obtain ⟨hsum', hlength'⟩ := ih hrest hsum
      exact ⟨hsum', by omega⟩

/-- Whatever the sizes are, the batches that are returned add up to the narrowed
    number of items, and there are as many as the narrowed number of workers. -/
theorem taskBatches_sum {itemsCount tasks : Nat} {batches : List Int}
    (h : taskBatches itemsCount tasks = some batches) :
    batches.sum = toInt itemsCount ∧ batches.length = (toInt tasks).toNat := by
  unfold taskBatches at h
  split at h
  · simp only [Option.bind_eq_some_iff] at h
    obtain ⟨state, hloop, hassert⟩ := h
    split at hassert
    · rename_i hs
      obtain rfl := Option.some.inj hassert
      obtain ⟨hsum, hlength⟩ := batchLoop_sum hloop rfl
      exact ⟨hsum.symm.trans hs, by simpa using hlength⟩
    · cases hassert
  · cases h

/-! ### Sizes that fit -/

/-- The number of items of worker `k`. -/
def batchSize (N w k : Nat) : Nat := N / w + if k < N % w then 1 else 0

/-- The number of items of the first `k` workers. -/
def batchStart (N w k : Nat) : Nat := k * (N / w) + min k (N % w)

theorem batchStart_succ (N w k : Nat) :
    batchStart N w (k + 1) = batchStart N w k + batchSize N w k := by
  unfold batchStart batchSize
  rw [Nat.add_mul, Nat.one_mul]
  split <;> omega

theorem batchStart_all {N w : Nat} (hw : 0 < w) : batchStart N w w = N := by
  unfold batchStart
  have hmod : min w (N % w) = N % w := by have := Nat.mod_lt N hw; omega
  rw [hmod, Nat.div_add_mod]

theorem batchStart_le {N w k : Nat} (hk : k ≤ w) : batchStart N w k ≤ N := by
  have hmul : k * (N / w) ≤ w * (N / w) := Nat.mul_le_mul_right _ hk
  have hdiv := Nat.div_add_mod N w
  unfold batchStart
  omega

/-- The quotient and remainder of the loop give the size of the batch: rounding
    up `(N - k) / w`. -/
theorem quotient_add_remainder {N w k : Nat} (hk : k < w) (hN : w ≤ N) :
    (N - k) / w + (if (N - k) % w ≠ 0 then 1 else 0) = batchSize N w k := by
  have hpos : 0 < w := by omega
  have hdiv := Nat.div_add_mod N w
  have hmod := Nat.mod_lt N hpos
  unfold batchSize
  by_cases hlt : k < N % w
  · -- the remainder absorbs `k` and stays positive
    have hsub : N - k = (N % w - k) + w * (N / w) := by omega
    rw [if_pos hlt, hsub, Nat.add_mul_div_left _ _ hpos, Nat.add_mul_mod_self_left,
      Nat.div_eq_of_lt (by omega), Nat.mod_eq_of_lt (by omega), if_pos (by omega)]
    omega
  · have hquot : 1 ≤ N / w := Nat.div_pos hN hpos
    by_cases heq : k = N % w
    · have hsub : N - k = w * (N / w) := by omega
      rw [if_neg hlt, hsub, Nat.mul_div_cancel_left _ hpos, Nat.mul_mod_right]
      simp
    · -- one unit of the quotient is used up and leaves a remainder
      obtain ⟨a, ha⟩ : ∃ a, N / w = a + 1 := ⟨N / w - 1, by omega⟩
      have hsub : N - k = (N % w + w - k) + w * a := by
        rw [ha, Nat.mul_add, Nat.mul_one] at hdiv
        omega
      rw [if_neg hlt, hsub, Nat.add_mul_div_left _ _ hpos, Nat.add_mul_mod_self_left,
        Nat.div_eq_of_lt (by omega), Nat.mod_eq_of_lt (by omega), if_pos (by omega), ha]
      omega

/-- The loop's state before iteration `k` when nothing has gone out of range. -/
def stateAt (N w k : Nat) : BatchState :=
  ⟨k, batchStart N w k, batchStart N w k, (List.range k).map fun i => (batchSize N w i : Int)⟩

/-- One iteration in range: only `s + end` can overflow. -/
theorem batchStep_stateAt {N w k : Nat} (hk : k < w) (hN : w ≤ N) (hmax : (N : Int) ≤ intMax) :
    batchStep N w (stateAt N w k) =
      if (batchStart N w k + batchStart N w (k + 1) : Int) ≤ intMax
      then some (stateAt N w (k + 1)) else none := by
  have hsucc := batchStart_succ N w k
  have hle : batchStart N w (k + 1) ≤ N := batchStart_le hk
  have hquot := quotient_add_remainder hk hN
  have hd : (N : Int) - k = ((N - k : Nat) : Int) := by omega
  have hdiv : ((N - k : Nat) : Int).tdiv w = ((N - k) / w : Nat) := Int.ofNat_tdiv _ _
  have hmod : ((N - k : Nat) : Int).tmod w = ((N - k) % w : Nat) := (Int.ofNat_tmod _ _).symm
  -- the value of `end` after the iteration is the start of the next batch
  have hlast : (batchStart N w k : Int) + ((N - k) / w : Nat)
      + (if (((N - k) % w : Nat) : Int) ≠ 0 then 1 else 0) = batchStart N w (k + 1) := by
    split at hquot <;> rename_i hr
    · rw [if_pos (by omega)]
      omega
    · rw [if_neg (by omega)]
      omega
  have hmin : intMin ≤ 0 := by decide
  have hq : checked ((batchStart N w k : Int) + ((N - k) / w : Nat)) =
      some ((batchStart N w k : Int) + ((N - k) / w : Nat)) := by
    have hnonneg : (0 : Int) ≤ ((N - k) / w : Nat) := Int.natCast_nonneg _
    apply checked_of_mem <;> split at hquot <;> omega
  have hend : checked (batchStart N w (k + 1) : Int) = some (batchStart N w (k + 1) : Int) :=
    checked_of_mem (by omega) (by omega)
  unfold batchStep stateAt
  simp only [Option.bind_eq_bind, hd, checked_of_mem (x := ((N - k : Nat) : Int)) (by omega)
    (by omega), Option.bind_some, hdiv, hmod, hq, hlast, hend]
  split
  · rename_i hsum
    rw [checked_of_mem (by omega) hsum, Option.bind_some, checked_of_mem (by omega) (by omega),
      Option.bind_some, checked_of_mem (by omega) (by omega), Option.bind_some, List.range_succ,
      List.map_append]
    have hsize : (batchStart N w (k + 1) : Int) - batchStart N w k = batchSize N w k := by omega
    have hs : (batchStart N w k : Int) + batchStart N w (k + 1) - batchStart N w k =
        batchStart N w (k + 1) := by omega
    rw [hsize, hs]
    simp
  · rename_i hsum
    have hnone : checked ((batchStart N w k : Int) + batchStart N w (k + 1)) = none := by
      unfold checked
      rw [if_neg fun h => hsum h.2]
    rw [hnone, Option.bind_none]

/-- The largest sum of the loop is the one of its last iteration. -/
theorem batchStart_add_last {N w : Nat} (hw : 0 < w) :
    batchStart N w (w - 1) + batchStart N w w = 2 * N - N / w := by
  have hall := batchStart_all (N := N) hw
  have hsucc := batchStart_succ N w (w - 1)
  have hsize : batchSize N w (w - 1) = N / w := by
    have hmod := Nat.mod_lt N hw
    unfold batchSize
    rw [if_neg (by omega), Nat.add_zero]
  rw [Nat.sub_add_cancel hw, hsize] at hsucc
  omega

theorem batchStart_mono {N w i j : Nat} (h : i ≤ j) : batchStart N w i ≤ batchStart N w j := by
  induction j, h using Nat.le_induction with
  | base => exact Nat.le_refl _
  | succ j _ ih =>
      rw [batchStart_succ]
      omega

theorem batchLoop_stateAt {N w k : Nat} (hk : k ≤ w) (hN : w ≤ N) (hmax : (N : Int) ≤ intMax)
    (hsum : ((2 * N - N / w : Nat) : Int) ≤ intMax) :
    batchLoop N w (w - k) (stateAt N w k) = some (stateAt N w w) := by
  induction h : w - k generalizing k with
  | zero =>
      obtain rfl : k = w := by omega
      rfl
  | succ remaining ih =>
      have hlast := batchStart_add_last (N := N) (w := w) (by omega)
      have hmono : batchStart N w k ≤ batchStart N w (w - 1) := batchStart_mono (by omega)
      have hmono' : batchStart N w (k + 1) ≤ batchStart N w w := batchStart_mono (by omega)
      rw [batchLoop, batchStep_stateAt (by omega) hN hmax, if_pos (by omega), Option.bind_some]
      exact ih (by omega) (by omega)

theorem batchLoop_overflow {N w k : Nat} (hk : k < w) (hN : w ≤ N) (hmax : (N : Int) ≤ intMax)
    (hsum : intMax < ((2 * N - N / w : Nat) : Int)) :
    batchLoop N w (w - k) (stateAt N w k) = none := by
  induction h : w - k - 1 generalizing k with
  | zero =>
      -- the last iteration, where the sum is `2 * N - N / w`
      obtain rfl : k = w - 1 := by omega
      have hlast := batchStart_add_last (N := N) (w := w) (by omega)
      have hone : w - (w - 1) = 0 + 1 := by omega
      rw [hone, batchLoop, batchStep_stateAt hk hN hmax, Nat.sub_add_cancel (by omega),
        if_neg (by omega), Option.bind_none]
  | succ remaining ih =>
      have hone : w - k = (w - (k + 1)) + 1 := by omega
      rw [hone, batchLoop, batchStep_stateAt hk hN hmax]
      split
      · rw [Option.bind_some]
        exact ih (by omega) (by omega)
      · rw [Option.bind_none]

/-- The batches of a split that fits. -/
def batchSizes (N w : Nat) : List Nat := (List.range w).map (batchSize N w)

/-- **What `taskBatches` returns when the number of items fits in an `int`.** -/
theorem taskBatches_eq {N w : Nat} (hw : 0 < w) (hN : w ≤ N) (hmax : (N : Int) ≤ intMax) :
    taskBatches N w =
      if ((2 * N - N / w : Nat) : Int) ≤ intMax
      then some ((batchSizes N w).map fun size : Nat => (size : Int)) else none := by
  have hwmax : (w : Int) ≤ intMax := by omega
  have hinit : (⟨0, 0, 0, []⟩ : BatchState) = stateAt N w 0 := by simp [stateAt, batchStart]
  unfold taskBatches
  rw [if_pos hN]
  simp only [toInt_of_le hmax, toInt_of_le hwmax, Int.toNat_natCast, hinit]
  split
  · rename_i hsum
    have hloop := batchLoop_stateAt (Nat.zero_le w) hN hmax hsum
    rw [Nat.sub_zero] at hloop
    have hs : (stateAt N w w).s = N := by simp [stateAt, batchStart_all hw]
    rw [hloop, Option.bind_some, if_pos hs]
    simp only [stateAt, batchSizes, List.map_map, Function.comp_def]
  · rename_i hsum
    have hloop := batchLoop_overflow hw hN hmax (by omega)
    rw [Nat.sub_zero] at hloop
    rw [hloop, Option.bind_none]

theorem sum_batchSizes_take (N w k : Nat) :
    ((List.range k).map (batchSize N w)).sum = batchStart N w k := by
  induction k with
  | zero => simp [batchStart]
  | succ k ih => rw [List.range_succ, List.map_append, List.sum_append, ih, batchStart_succ]; simp

/-- The batches cover all items. -/
theorem sum_batchSizes {N w : Nat} (hw : 0 < w) : (batchSizes N w).sum = N := by
  rw [batchSizes, sum_batchSizes_take, batchStart_all hw]

/-! ### The split is even -/

theorem batchSize_antitone {N w i j : Nat} (h : i ≤ j) : batchSize N w j ≤ batchSize N w i := by
  unfold batchSize
  by_cases hj : j < N % w
  · rw [if_pos hj, if_pos (by omega)]
  · rw [if_neg hj]
    omega

theorem le_batchSize (N w k : Nat) : N / w ≤ batchSize N w k := by
  unfold batchSize
  omega

theorem batchSize_le (N w k : Nat) : batchSize N w k ≤ N / w + 1 := by
  unfold batchSize
  split <;> omega

/-- Rounding up is the quotient, and one more if there is a remainder. -/
theorem ceilDiv_eq_quotient_add (a : Nat) {w : Nat} (hw : 0 < w) :
    a ⌈/⌉ w = a / w + if a % w ≠ 0 then 1 else 0 := by
  have hdiv := Nat.div_add_mod a w
  have hmod := Nat.mod_lt a hw
  rw [Nat.ceilDiv_eq_add_pred_div]
  by_cases hr : a % w = 0
  · have hsum : a + w - 1 = (w - 1) + w * (a / w) := by omega
    rw [if_neg (by simpa using hr), hsum, Nat.add_mul_div_left _ _ hw,
      Nat.div_eq_of_lt (by omega)]
    omega
  · have hsum : a + w - 1 = (a % w - 1) + w * (a / w + 1) := by
      rw [Nat.mul_add, Nat.mul_one]
      omega
    rw [if_pos hr, hsum, Nat.add_mul_div_left _ _ hw, Nat.div_eq_of_lt (by omega)]
    omega

theorem batchSize_eq_ceilDiv {N w k : Nat} (hk : k < w) (hN : w ≤ N) :
    batchSize N w k = (N - k) ⌈/⌉ w := by
  rw [ceilDiv_eq_quotient_add _ (by omega), quotient_add_remainder hk hN]

/-- What the caller expects: a number for each task, number `k` being `(itemsCount - k) / tasks`
    rounded up; none is zero, they never increase, any two differ by at most one, and they
    add up to all items. -/
structure SplitsEvenly (itemsCount tasks : Nat) (batches : List Int) : Prop where
  length : batches.length = tasks
  rounded : ∀ k < tasks, batches[k]? = some (((itemsCount - k) ⌈/⌉ tasks : Nat) : Int)
  positive : ∀ size ∈ batches, 1 ≤ size
  decreasing : batches.Pairwise fun size next => next ≤ size
  close : ∀ size ∈ batches, ∀ other ∈ batches, size ≤ other + 1
  sum : batches.sum = itemsCount

theorem mem_batches_iff {N w : Nat} {size : Int} :
    size ∈ (batchSizes N w).map (fun size : Nat => (size : Int)) ↔
      ∃ k < w, size = batchSize N w k := by
  simp [batchSizes, eq_comm]

theorem splitsEvenly_batchSizes {N w : Nat} (hw : 0 < w) (hN : w ≤ N) :
    SplitsEvenly N w ((batchSizes N w).map fun size : Nat => (size : Int)) := by
  have hquot : 1 ≤ N / w := Nat.div_pos hN hw
  constructor
  case length => simp [batchSizes]
  case rounded =>
      intro k hk
      rw [← batchSize_eq_ceilDiv hk hN]
      simp [batchSizes, hk]
  case positive =>
      intro size hsize
      rcases mem_batches_iff.mp hsize with ⟨k, -, rfl⟩
      have := le_batchSize N w k
      omega
  case decreasing =>
      rw [List.pairwise_map, batchSizes, List.pairwise_map]
      apply List.pairwise_lt_range.imp
      intro i j hij
      exact_mod_cast batchSize_antitone (by omega)
  case close =>
      intro size hsize other hother
      rcases mem_batches_iff.mp hsize with ⟨i, -, rfl⟩
      rcases mem_batches_iff.mp hother with ⟨j, -, rfl⟩
      have hle := batchSize_le N w i
      have hge := le_batchSize N w j
      omega
  case sum => exact (Nat.cast_list_sum _).symm.trans (congrArg _ (sum_batchSizes hw))

/-- **The work is split evenly, and nothing overflows on the way, exactly if the last
    `s + end` fits in an `int`.** -/
theorem splits_evenly_iff {itemsCount tasks : Nat} (htasks : 1 ≤ tasks)
    (hitems : tasks ≤ itemsCount) (hmax : (itemsCount : Int) ≤ intMax) :
    (∃ batches, taskBatches itemsCount tasks = some batches ∧
        SplitsEvenly itemsCount tasks batches) ↔
      ((2 * itemsCount - itemsCount / tasks : Nat) : Int) ≤ intMax := by
  rw [taskBatches_eq htasks hitems hmax]
  by_cases hsum : ((2 * itemsCount - itemsCount / tasks : Nat) : Int) ≤ intMax
  · rw [if_pos hsum]
    exact iff_of_true ⟨_, rfl, splitsEvenly_batchSizes htasks hitems⟩ hsum
  · rw [if_neg hsum]
    exact iff_of_false (by simp) hsum

/-- Seven items for three tasks: `3 + 2 + 2`. -/
theorem splits_evenly_sevenByThree :
    ∃ batches, taskBatches 7 3 = some batches ∧ SplitsEvenly 7 3 batches :=
  (splits_evenly_iff (by decide) (by decide) (by decide)).mpr (by decide)

/-- The largest number of items for two tasks: `2^30 + (2^31 - 1)` is out of range. -/
theorem not_splits_evenly_largest :
    ¬ ∃ batches, taskBatches 2147483647 2 = some batches ∧
      SplitsEvenly 2147483647 2 batches := by
  rw [taskBatches_eq (by decide) (by decide) (by decide), if_neg (by decide)]
  simp

end Mull.TaskBatches
