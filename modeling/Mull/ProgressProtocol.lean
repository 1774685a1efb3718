import Mull.TaskExecutor
import Mathlib.Algebra.Order.BigOperators.Group.List

/-!
# The progress protocol

The workers only ever increase their counters, so a sum that the reporter has read
one counter at a time is at most the sum of the counters as they are now.  It can
therefore be the total only when every worker has finished, provided the ranges of
the workers cover the input; and then no later poll reads anything else.
-/

namespace Mull.TaskExecutor

open MachineInt TaskBatches FairRounds Progress

variable {α β : Type} {f : α → List β} {input : List α} {base : List β}
  {ranges : List (Nat × Nat)} {m : Machine β}

/-! ### Counters only grow -/

theorem Worker.counter_step_le (f : α → List β) (input : List α) (w : Worker β) :
    w.counter ≤ (w.step f input).counter := by
  rcases w.step_cases f input with ⟨-, hstep, -⟩ | ⟨-, -, -, hstep⟩ | ⟨-, -, -, hstep⟩ <;>
    rw [hstep]
  exact Nat.le_succ _

theorem counters_step_le (f : α → List β) (input : List α) (t : Thread) (m : Machine β) :
    List.Forall₂ (· ≤ ·) m.counters (step f input t m).counters := by
  cases t with
  | reporter => exact List.forall₂_refl _
  | worker i =>
      rcases step_worker_cases f input i m with hsame | ⟨before, w, after, hworkers, hstep⟩
      · rw [hsame]
        exact List.forall₂_refl _
      · rw [hstep]
        simp only [Machine.counters, hworkers, List.map_append, List.map_cons]
        exact List.rel_append (List.forall₂_refl _)
          (.cons (w.counter_step_le f input) (List.forall₂_refl _))

/-! ### What the reporter has read -/

/-- The sum read so far is at most what the counters read are now; past the loop
    the counters have reached the total. -/
def Machine.ReporterInv (total : Nat) (m : Machine β) : Prop :=
  match m.reporter with
  | .polling next current => current ≤ (m.counters.take next).sum
  | .exited => total ≤ m.counters.sum

theorem reporterInv_step (f : α → List β) (input : List α) (t : Thread) (m : Machine β)
    (h : m.ReporterInv input.length) : (step f input t m).ReporterInv input.length := by
  have hgrow := counters_step_le f input t m
  unfold Machine.ReporterInv at h ⊢
  cases t with
  | worker i =>
      have hreporter : (step f input (.worker i) m).reporter = m.reporter := by
        rcases step_worker_cases f input i m with hsame | ⟨before, w, after, -, hstep⟩
        · rw [hsame]
        · rw [hstep]
      rw [hreporter]
      cases hr : m.reporter with
      | polling next current =>
          rw [hr] at h
          exact Nat.le_trans h (List.forall₂_take next hgrow).sum_le_sum
      | exited =>
          rw [hr] at h
          exact Nat.le_trans h hgrow.sum_le_sum
  | reporter =>
      simp only [step]
      cases hr : m.reporter with
      | exited => rwa [hr] at h
      | polling next current =>
          rw [hr] at h
          simp only at h
          rcases Reporter.step_cases m.counters input.length next current with
            ⟨value, hget, hstep⟩ | ⟨-, -, hstep⟩ | ⟨hlength, -, htotal, hstep⟩
          · rw [hstep]
            simp only [Machine.counters] at hget h ⊢
            rw [Reporter.sum_take_succ hget]
            omega
          · rw [hstep]
            exact Nat.zero_le _
          · -- the loop is left with the total, which the counters have reached
            rw [hstep]
            rw [List.take_of_length_le hlength, htotal] at h
            exact h

/-! ### Counters and items -/

theorem length_covered (ranges : List (Nat × Nat)) :
    (covered ranges).length = (ranges.map fun r => r.2 - r.1).sum := by
  simp [covered, List.length_flatMap]

theorem Machine.Inv.length_covered (h : m.Inv f input base ranges) :
    (covered ranges).length = (m.workers.map fun w => w.last - w.first).sum := by
  rw [TaskExecutor.length_covered, ← h.ranges_eq, List.map_map]
  rfl

theorem Worker.Inv.counter_le {w : Worker β} (h : w.Inv f input base) :
    w.counter ≤ w.last - w.first := by
  have hit := h.it_eq
  have hle := h.it_le
  omega

theorem Machine.Inv.sum_counters_le (h : m.Inv f input base ranges) :
    m.counters.sum ≤ (covered ranges).length := by
  rw [h.length_covered, Machine.counters]
  exact List.sum_le_sum fun w hw => (h.workers w hw).counter_le

/-- The counters add up to the items of the ranges only when every worker is done. -/
theorem Machine.Inv.done_of_sum (h : m.Inv f input base ranges)
    (hsum : (covered ranges).length ≤ m.counters.sum) : m.WorkersDone := by
  by_contra hdone
  simp only [Machine.WorkersDone, not_forall] at hdone
  obtain ⟨w, hw, hmore⟩ := hdone
  have hlt : m.counters.sum < (covered ranges).length := by
    rw [h.length_covered, Machine.counters]
    refine List.sum_lt_sum _ _ (fun v hv => (h.workers v hv).counter_le) ⟨w, hw, ?_⟩
    have hit := (h.workers w hw).it_eq
    have hle := (h.workers w hw).it_le
    omega
  omega

/-! ### Leaving the loop -/

/-- The reporter's turns up to the end of its next complete poll. -/
def pollTurns (counters : List Nat) : Reporter → Nat
  | .exited => 0
  | .polling next _ =>
      if next = 0 then counters.length + 1
      else (counters.length - next + 1) + (counters.length + 1)

theorem remaining_le_pollTurns {total : Nat} (h : m.ReporterInv total) :
    m.reporter.remaining m.counters ≤ pollTurns m.counters m.reporter := by
  unfold Machine.ReporterInv at h
  cases hr : m.reporter with
  | exited => exact Nat.le_refl _
  | polling next current =>
      rw [hr] at h
      simp only [Reporter.remaining, pollTurns]
      by_cases hnext : next = 0
      · subst hnext
        have hzero : current = (m.counters.take 0).sum := by simpa using h
        rw [if_pos hzero, if_pos rfl]
        omega
      · rw [if_neg hnext]
        split <;> omega

/-- With all workers done, enough turns of the reporter end its loop, whatever the
    turns of the workers in between. -/
theorem Machine.Inv.exited_of_turns (hall : (covered ranges).length = input.length)
    (hpos : input.length ≠ 0) {rest : List Thread} (h : m.Inv f input base ranges)
    (hdone : m.WorkersDone) (hturns : m.reporter.remaining m.counters ≤ rest.count .reporter) :
    (run (TaskExecutor.step f input) m rest).reporter = .exited := by
  induction rest generalizing m with
  | nil =>
      rw [run_nil]
      by_contra hexited
      have hsum := (h.sum_counters hdone).trans hall
      have hlt := Reporter.remaining_step_lt hsum hpos hexited
      simp only [List.count_nil] at hturns
      omega
  | cons t rest ih =>
      rw [run_cons]
      cases t with
      | worker i =>
          rw [hdone.step_worker]
          exact ih h hdone (by simpa using hturns)
      | reporter =>
          by_cases hexited : m.reporter = .exited
          · have hfinished : m.Finished := ⟨hdone, hexited⟩
            exact (run_invariant (fun t m h => h.step t)
              (hfinished.step (f := f) (t := .reporter)) rest).2
          · have hsum := (h.sum_counters hdone).trans hall
            have hlt := Reporter.remaining_step_lt hsum hpos hexited
            refine ih (h.step .reporter m) (hdone.step .reporter) ?_
            rw [List.count_cons_self] at hturns
            exact Nat.le_of_lt_succ (Nat.lt_of_lt_of_le hlt hturns)

/-! ### The protocol -/

/-- The workers and the reporter start; every sum the reporter computes is at most
    the total, and is the total only if all workers have finished; and once they
    have, the reporter's next complete poll leaves its loop. -/
def ReportsCompletion (f : α → List β) (input : List α) (out : List β) (tasks : Nat) : Prop :=
  ∃ m, launch input.length tasks out = some m ∧
    (∀ schedule next current, (run (step f input) m schedule).reporter = .polling next current →
      current ≤ input.length ∧
      (current = input.length → (run (step f input) m schedule).WorkersDone)) ∧
    ∀ schedule rest, (run (step f input) m schedule).WorkersDone →
      pollTurns (run (step f input) m schedule).counters
        (run (step f input) m schedule).reporter ≤ rest.count .reporter →
      (run (step f input) m (schedule ++ rest)).reporter = .exited

theorem launch_reporterInv {tasks : Nat} {out : List β} (hpos : input.length ≠ 0)
    (htasks : 1 ≤ tasks) (h : launch input.length tasks out = some m) :
    m.ReporterInv input.length := by
  have hpath : path input.length tasks ≠ .nothing :=
    fun hnothing => hpos (not_path_nothing htasks hnothing)
  unfold launch at h
  split at h
  · exact absurd ‹_› hpath
  · obtain rfl := Option.some.inj h
    exact Nat.zero_le _
  · obtain ⟨ranges, -, rfl⟩ := Option.map_eq_some_iff.mp h
    exact Nat.zero_le _

/-- The invariants of every state of an execution. -/
theorem run_invariants {tasks : Nat} {out : List β} (f : α → List β) (hpos : input.length ≠ 0)
    (htasks : 1 ≤ tasks) (h : launch input.length tasks out = some m) :
    ∃ base ranges, (covered ranges).length = handedOut input.length tasks ∧
      ∀ schedule : List Thread, (run (step f input) m schedule).Inv f input base ranges ∧
        (run (step f input) m schedule).ReporterInv input.length := by
  obtain ⟨ranges, hinv, hcovered, -⟩ := launch_inv f input h
  refine ⟨(path input.length tasks).base out, ranges, ?_, fun schedule => ⟨?_, ?_⟩⟩
  · rw [hcovered, List.length_range]
  · exact run_invariant (fun t m h => Machine.Inv.step t m h) hinv schedule
  · exact run_invariant (reporterInv_step f input) (launch_reporterInv hpos htasks h) schedule

theorem handedOut_le (N tasks : Nat) : handedOut N tasks ≤ N := by
  unfold handedOut
  split
  · exact Nat.zero_le _
  · exact Nat.le_refl _
  · have hle := toInt_le N
    omega

theorem ReportsCompletion.fits {out : List β} {tasks : Nat} (hpos : input ≠ [])
    (htasks : 1 ≤ tasks) (h : ReportsCompletion f input out tasks) : Fits input.length tasks := by
  have hlength : input.length ≠ 0 := fun hzero => hpos (List.length_eq_zero_iff.mp hzero)
  obtain ⟨m, hlaunch, -, hleaves⟩ := h
  obtain ⟨base, ranges, hcovered, hinv⟩ := run_invariants f hlength htasks hlaunch
  -- let the workers finish, then the reporter poll
  let rounds := List.replicate m.remaining (threads ranges.length)
  have hdone : (run (step f input) m rounds.flatten).WorkersDone :=
    (workers_ranking f input base ranges).goal_of_rounds
      (fun round hround t ht => by rwa [List.eq_of_mem_replicate hround]) (hinv []).1
      (by rw [List.length_replicate])
  let turns := pollTurns (run (step f input) m rounds.flatten).counters
    (run (step f input) m rounds.flatten).reporter
  have hexited := hleaves rounds.flatten (List.replicate turns .reporter) hdone
    (by rw [List.count_replicate_self])
  -- past its loop the reporter has seen the counters reach the total
  obtain ⟨hlast, hreporter⟩ := hinv (rounds.flatten ++ List.replicate turns .reporter)
  unfold Machine.ReporterInv at hreporter
  rw [hexited] at hreporter
  have hle := hlast.sum_counters_le
  have hhanded := handedOut_le input.length tasks
  exact (fits_iff_launch htasks out).mpr ⟨⟨m, hlaunch⟩, by omega⟩

/-- **The progress protocol is safe and ends exactly when the sizes fit.** -/
theorem reportsCompletion_iff_fits (f : α → List β) {input : List α} (hpos : input ≠ [])
    (out : List β) {tasks : Nat} (htasks : 1 ≤ tasks) :
    ReportsCompletion f input out tasks ↔ Fits input.length tasks := by
  have hlength : input.length ≠ 0 := fun hzero => hpos (List.length_eq_zero_iff.mp hzero)
  constructor
  · exact fun h => h.fits hpos htasks
  · intro hfits
    obtain ⟨⟨m, hlaunch⟩, hall⟩ := (fits_iff_launch htasks out).mp hfits
    obtain ⟨base, ranges, hcovered, hinv⟩ := run_invariants f hlength htasks hlaunch
    refine ⟨m, hlaunch, ?_, ?_⟩
    · intro schedule next current hpolling
      obtain ⟨hmachine, hreporter⟩ := hinv schedule
      unfold Machine.ReporterInv at hreporter
      rw [hpolling] at hreporter
      -- the sum that was read, the counters now, the items handed out
      have hread := List.sum_take_add_sum_drop (run (step f input) m schedule).counters next
      have hle := hmachine.sum_counters_le
      exact ⟨by omega, fun htotal => hmachine.done_of_sum (by omega)⟩
    · intro schedule rest hdone hturns
      obtain ⟨hmachine, hreporter⟩ := hinv schedule
      rw [run_append]
      exact hmachine.exited_of_turns (hcovered.trans hall) hlength hdone
        (Nat.le_trans (remaining_le_pollTurns hreporter) hturns)

theorem reportsCompletion_five_on_two :
    ReportsCompletion (fun x : Nat => [x]) [3, 1, 4, 1, 5] [] 2 :=
  (reportsCompletion_iff_fits (fun x : Nat => [x]) (by decide) [] (by decide)).mpr
    (.inr (.inr (by decide)))

/-- With `2 ^ 32 + 2` items on two workers the counters never add up to the total. -/
theorem not_reportsCompletion_large :
    ¬ ReportsCompletion (fun x : Nat => [x]) (List.replicate 4294967298 0) [] 2 := by
  intro h
  have hpos : List.replicate 4294967298 0 ≠ [] :=
    List.ne_nil_of_length_pos (by rw [List.length_replicate]; decide)
  have hfits := h.fits hpos (by decide)
  rw [List.length_replicate] at hfits
  revert hfits
  unfold Fits
  decide

end Mull.TaskExecutor
