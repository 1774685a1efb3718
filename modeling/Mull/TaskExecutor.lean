import Mull.Lib.FairRounds
import Mull.Progress
import Mull.TaskBatches
import Mathlib.Algebra.BigOperators.Group.List.Basic
import Mathlib.Data.List.Flatten
import Mathlib.Data.List.Perm.Basic

/-!
# The task executor

`TaskExecutor::execute` hands ranges of the input to worker threads, each with its
own storage and progress counter, starts the reporter thread, joins them all, and
appends the storages to `out`.  With one task or one item there is one worker whose
storage is `out` itself.

A task walks its range item by item (`for (it = begin; it != end; it++,
counter.increment())`) and appends `f item` to its storage.  The body and the
advance are separate turns of the worker; a turn of the reporter reads one counter
or makes the decision at the end of a poll.  A schedule is any list of turns, and
`processed` records the items in the order in which their bodies ran.
-/

namespace Mull.TaskExecutor

open MachineInt TaskBatches FairRounds Progress

variable {α β : Type}

/-! ### Workers -/

/-- A worker thread on the items from `first` to `last` (`begin` and `end`).
    `appended` is set between the body of the loop and the advance. -/
structure Worker (β : Type) where
  first : Nat
  last : Nat
  it : Nat
  appended : Bool
  storage : List β
  counter : Nat
deriving DecidableEq, Repr

def Worker.start (range : Nat × Nat) (storage : List β) : Worker β :=
  ⟨range.1, range.2, range.1, false, storage, 0⟩

/-- What the task appends for the item at position `i`. -/
def outputAt (f : α → List β) (input : List α) (i : Nat) : List β :=
  input[i]?.toList.flatMap f

def Worker.step (f : α → List β) (input : List α) (w : Worker β) : Worker β :=
  if w.it = w.last then w
  else if w.appended then { w with it := w.it + 1, appended := false, counter := w.counter + 1 }
  else { w with appended := true, storage := w.storage ++ outputAt f input w.it }

/-- The item whose body runs in the worker's next turn. -/
def Worker.processes (w : Worker β) : List Nat :=
  if w.it = w.last ∨ w.appended = true then [] else [w.it]

/-! ### All threads together -/

inductive Thread where
  | worker (i : Nat)
  | reporter
deriving DecidableEq, Repr

structure Machine (β : Type) where
  workers : List (Worker β)
  reporter : Reporter
  processed : List Nat
deriving DecidableEq, Repr

def Machine.counters (m : Machine β) : List Nat := m.workers.map Worker.counter

/-- The threads of an execution with `workers` workers. -/
def threads (workers : Nat) : List Thread :=
  (List.range workers).map Thread.worker ++ [Thread.reporter]

/-- The turn of a thread.  A thread that is past its loop does nothing. -/
def step (f : α → List β) (input : List α) (t : Thread) (m : Machine β) : Machine β :=
  match t with
  | .worker i =>
      match m.workers[i]? with
      | none => m
      | some w =>
          { m with
            workers := m.workers.set i (w.step f input)
            processed := m.processed ++ w.processes }
  | .reporter => { m with reporter := m.reporter.step m.counters input.length }

/-- All workers are past their loops. -/
def Machine.WorkersDone (m : Machine β) : Prop := ∀ w ∈ m.workers, w.it = w.last

/-- All threads can be joined. -/
def Machine.Finished (m : Machine β) : Prop := m.WorkersDone ∧ m.reporter = .exited

/-! ### Launching -/

/-- The three ways through `execute`. -/
inductive Path where
  | nothing
  | sequential
  | parallel
deriving DecidableEq, Repr

def path (N tasks : Nat) : Path :=
  if tasks = 0 ∨ N = 0 then .nothing
  else if tasks = 1 ∨ N = 1 then .sequential
  else .parallel

/-- The ranges obtained by advancing `end` over the batches.  An iterator that
    leaves the input, and a loop from `begin` to an earlier `end`, are undefined. -/
def advanceRanges (N : Nat) : Nat → List Int → Option (List (Nat × Nat))
  | _, [] => some []
  | start, group :: batches =>
      if 0 ≤ group ∧ start + group.toNat ≤ N then
        (advanceRanges N (start + group.toNat) batches).map
          ((start, start + group.toNat) :: ·)
      else none

/-- The ranges of `executeInParallel`; `batches[i]` is read for every worker. -/
def parallelRanges (N tasks : Nat) : Option (List (Nat × Nat)) :=
  let workers := min N tasks
  (taskBatches N workers).bind fun batches =>
    if workers ≤ batches.length then advanceRanges N 0 (batches.take workers) else none

def launch (N tasks : Nat) (out : List β) : Option (Machine β) :=
  match path N tasks with
  | .nothing => some ⟨[], .exited, []⟩
  | .sequential => some ⟨[Worker.start (0, N) out], .polling 0 0, []⟩
  | .parallel =>
      (parallelRanges N tasks).map fun ranges =>
        ⟨ranges.map (Worker.start · []), .polling 0 0, []⟩

/-- The content of `out` after the threads have been joined. -/
def Machine.result (p : Path) (out : List β) (m : Machine β) : List β :=
  match p with
  | .nothing => out
  | .sequential => m.workers.flatMap Worker.storage
  | .parallel => out ++ m.workers.flatMap Worker.storage

/-! ### What one worker keeps -/

/-- The items whose bodies have run. -/
def Worker.taken (w : Worker β) : List Nat :=
  List.range' w.first (w.counter + w.appended.toNat)

/-- The storage holds the outputs of the items taken so far, after its initial
    content `base`. -/
structure Worker.Inv (f : α → List β) (input : List α) (base : List β) (w : Worker β) : Prop where
  it_eq : w.it = w.first + w.counter
  it_le : w.it ≤ w.last
  appended_lt : w.appended = true → w.it < w.last
  storage_eq : w.storage = base ++ w.taken.flatMap (outputAt f input)

theorem Worker.start_taken (range : Nat × Nat) (storage : List β) :
    (Worker.start range storage).taken = [] := rfl

theorem Worker.start_inv (f : α → List β) (input : List α) {range : Nat × Nat} (base : List β)
    (h : range.1 ≤ range.2) : (Worker.start range base).Inv f input base :=
  ⟨by simp [Worker.start], h, by simp [Worker.start], by simp [Worker.start, Worker.taken]⟩

/-- A turn does nothing, advances past an item, or runs the body of one. -/
theorem Worker.step_cases (f : α → List β) (input : List α) (w : Worker β) :
    (w.it = w.last ∧ w.step f input = w ∧ w.processes = []) ∨
    (w.it ≠ w.last ∧ w.appended = true ∧ w.processes = [] ∧ w.step f input =
      { w with it := w.it + 1, appended := false, counter := w.counter + 1 }) ∨
    (w.it ≠ w.last ∧ w.appended = false ∧ w.processes = [w.it] ∧ w.step f input =
      { w with appended := true, storage := w.storage ++ outputAt f input w.it }) := by
  by_cases hdone : w.it = w.last
  · exact .inl ⟨hdone, by simp [Worker.step, hdone], by simp [Worker.processes, hdone]⟩
  · cases happended : w.appended with
    | true =>
        exact .inr (.inl ⟨hdone, rfl, by simp [Worker.processes, happended],
          by simp [Worker.step, hdone, happended]⟩)
    | false =>
        exact .inr (.inr ⟨hdone, rfl, by simp [Worker.processes, hdone, happended],
          by simp [Worker.step, hdone, happended]⟩)

theorem Worker.step_range (f : α → List β) (input : List α) (w : Worker β) :
    (w.step f input).first = w.first ∧ (w.step f input).last = w.last := by
  rcases w.step_cases f input with ⟨-, hstep, -⟩ | ⟨-, -, -, hstep⟩ | ⟨-, -, -, hstep⟩ <;>
    rw [hstep] <;> exact ⟨rfl, rfl⟩

theorem Worker.Inv.taken_step {f : α → List β} {input : List α} {base : List β} {w : Worker β}
    (h : w.Inv f input base) : (w.step f input).taken = w.taken ++ w.processes := by
  rcases w.step_cases f input with
    ⟨-, hstep, hnone⟩ | ⟨-, happended, hnone, hstep⟩ | ⟨-, happended, hone, hstep⟩
  · rw [hstep, hnone, List.append_nil]
  · rw [hstep, hnone, List.append_nil]
    simp [Worker.taken, happended]
  · rw [hstep, hone, h.it_eq]
    simp [Worker.taken, happended, List.range'_1_concat]

theorem Worker.Inv.step {f : α → List β} {input : List α} {base : List β} {w : Worker β}
    (h : w.Inv f input base) : (w.step f input).Inv f input base := by
  have htaken := h.taken_step
  have hit := h.it_eq
  have hle := h.it_le
  rcases w.step_cases f input with
    ⟨-, hstep, -⟩ | ⟨hmore, -, hnone, hstep⟩ | ⟨hmore, -, hone, hstep⟩
  · rwa [hstep]
  · -- the advance: nothing new is stored
    rw [hnone, List.append_nil] at htaken
    refine ⟨?_, ?_, ?_, ?_⟩
    · rw [hstep]
      simp only
      omega
    · rw [hstep]
      simp only
      omega
    · rw [hstep]
      simp
    · rw [htaken, hstep]
      exact h.storage_eq
  · -- the body: the output of the current item is appended
    have hstorage : (w.step f input).storage = w.storage ++ outputAt f input w.it := by rw [hstep]
    refine ⟨?_, ?_, ?_, ?_⟩
    · rw [hstep]
      exact hit
    · rw [hstep]
      exact hle
    · rw [hstep]
      intro _
      exact Nat.lt_of_le_of_ne hle hmore
    · rw [hstorage, htaken, hone, List.flatMap_append, ← List.append_assoc, ← h.storage_eq]
      simp

theorem Worker.Inv.not_appended {f : α → List β} {input : List α} {base : List β} {w : Worker β}
    (h : w.Inv f input base) (hdone : w.it = w.last) : w.appended = false := by
  by_contra hne
  have hlt := h.appended_lt (by simpa using hne)
  omega

/-! ### What the whole machine keeps -/

/-- The invariant of a run on the ranges `ranges`. -/
structure Machine.Inv (f : α → List β) (input : List α) (base : List β)
    (ranges : List (Nat × Nat)) (m : Machine β) : Prop where
  ranges_eq : m.workers.map (fun w => (w.first, w.last)) = ranges
  workers : ∀ w ∈ m.workers, w.Inv f input base
  processed : m.processed.Perm (m.workers.flatMap Worker.taken)

/-- A turn of worker `i` replaces that worker and keeps the others. -/
theorem step_worker_of_get (f : α → List β) (input : List α) {i : Nat} {m : Machine β}
    {w : Worker β} (hget : m.workers[i]? = some w) :
    ∃ before after, m.workers = before ++ w :: after ∧
      step f input (.worker i) m =
        { m with
          workers := before ++ w.step f input :: after
          processed := m.processed ++ w.processes } := by
  obtain ⟨hi, hw⟩ := List.getElem?_eq_some_iff.mp hget
  have hsplit : m.workers = m.workers.take i ++ w :: m.workers.drop (i + 1) := by
    rw [← hw, ← List.drop_eq_getElem_cons hi, List.take_append_drop]
  refine ⟨m.workers.take i, m.workers.drop (i + 1), hsplit, ?_⟩
  simp only [step, hget]
  rw [List.set_eq_take_append_cons_drop, if_pos hi]

theorem step_worker_cases (f : α → List β) (input : List α) (i : Nat) (m : Machine β) :
    step f input (.worker i) m = m ∨
    ∃ before w after, m.workers = before ++ w :: after ∧
      step f input (.worker i) m =
        { m with
          workers := before ++ w.step f input :: after
          processed := m.processed ++ w.processes } := by
  cases hget : m.workers[i]? with
  | none => exact .inl (by simp only [step, hget])
  | some w =>
      obtain ⟨before, after, hworkers, hstep⟩ := step_worker_of_get f input hget
      exact .inr ⟨before, w, after, hworkers, hstep⟩

theorem Machine.Inv.step {f : α → List β} {input : List α} {base : List β}
    {ranges : List (Nat × Nat)} (t : Thread) (m : Machine β) (h : m.Inv f input base ranges) :
    (step f input t m).Inv f input base ranges := by
  cases t with
  | reporter => exact ⟨h.ranges_eq, h.workers, h.processed⟩
  | worker i =>
      rcases step_worker_cases f input i m with hsame | ⟨before, w, after, hworkers, hstep⟩
      · rwa [hsame]
      · have hw : w.Inv f input base := h.workers w (by simp [hworkers])
        have hrange := w.step_range f input
        rw [hstep]
        refine ⟨?_, ?_, ?_⟩
        · rw [← h.ranges_eq, hworkers]
          simp [hrange.1, hrange.2]
        · intro w' hw'
          simp only [List.mem_append, List.mem_cons] at hw'
          rcases hw' with hbefore | rfl | hafter
          · exact h.workers w' (by simp [hworkers, hbefore])
          · exact hw.step
          · exact h.workers w' (by simp [hworkers, hafter])
        · have hprocessed := h.processed
          rw [hworkers] at hprocessed
          simp only [List.flatMap_append, List.flatMap_cons] at hprocessed ⊢
          rw [hw.taken_step]
          -- the new item moves in front of the items of the later workers
          apply (hprocessed.append_right _).trans
          rw [List.append_assoc, List.append_assoc, List.append_assoc]
          exact (List.perm_append_comm.append_left _).append_left _

/-- The items of the ranges, in order. -/
def covered (ranges : List (Nat × Nat)) : List Nat :=
  ranges.flatMap fun r => List.range' r.1 (r.2 - r.1)

theorem Machine.Inv.taken_of_done {f : α → List β} {input : List α} {base : List β}
    {ranges : List (Nat × Nat)} {m : Machine β} (h : m.Inv f input base ranges)
    (hdone : m.WorkersDone) : m.workers.flatMap Worker.taken = covered ranges := by
  rw [← h.ranges_eq, covered, List.flatMap_map]
  apply List.flatMap_congr
  intro w hw
  have hinv := h.workers w hw
  have hit := hinv.it_eq
  have hlast := hdone w hw
  have hcounter : w.counter = w.last - w.first := by omega
  simp [Worker.taken, hinv.not_appended hlast, hcounter]

/-! ### What launching establishes -/

theorem advanceRanges_spec {N start : Nat} {batches : List Int} {ranges : List (Nat × Nat)}
    (h : advanceRanges N start batches = some ranges) :
    covered ranges = List.range' start batches.sum.toNat ∧ (∀ r ∈ ranges, r.1 ≤ r.2) ∧
      0 ≤ batches.sum := by
  induction batches generalizing start ranges with
  | nil =>
      obtain rfl : ranges = [] := by simpa [advanceRanges] using h.symm
      simp [covered]
  | cons group batches ih =>
      simp only [advanceRanges] at h
      split at h
      · rename_i hgroup
        obtain ⟨rest, hrest, rfl⟩ := Option.map_eq_some_iff.mp h
        obtain ⟨hcovered, hle, hsum⟩ := ih hrest
        refine ⟨?_, ?_, ?_⟩
        · have hsub : start + group.toNat - start = group.toNat := by omega
          have htotal : (group + batches.sum).toNat = group.toNat + batches.sum.toNat := by omega
          rw [covered] at hcovered
          rw [covered, List.flatMap_cons, hcovered, hsub, List.range'_append_1, List.sum_cons,
            htotal]
        · intro r hr
          rcases List.mem_cons.mp hr with rfl | hr
          · simp
          · exact hle r hr
        · rw [List.sum_cons]
          omega
      · cases h

theorem advanceRanges_of_fits {N start : Nat} {sizes : List Nat} (h : start + sizes.sum ≤ N) :
    ∃ ranges, advanceRanges N start (sizes.map fun size : Nat => (size : Int)) = some ranges := by
  induction sizes generalizing start with
  | nil => exact ⟨[], rfl⟩
  | cons size sizes ih =>
      rw [List.sum_cons] at h
      obtain ⟨rest, hrest⟩ := @ih (start + size) (by omega)
      refine ⟨(start, start + size) :: rest, ?_⟩
      simp only [List.map_cons, advanceRanges, Int.toNat_natCast]
      rw [if_pos ⟨Int.natCast_nonneg _, by omega⟩, hrest, Option.map_some]

/-- The number of items given to workers. -/
def handedOut (N tasks : Nat) : Nat :=
  match path N tasks with
  | .nothing => 0
  | .sequential => N
  | .parallel => (toInt N).toNat

/-- The content of a worker's storage at its start. -/
def Path.base (p : Path) (out : List β) : List β :=
  match p with
  | .sequential => out
  | _ => []

theorem parallelRanges_spec {N tasks : Nat} {ranges : List (Nat × Nat)}
    (h : parallelRanges N tasks = some ranges) :
    covered ranges = List.range (toInt N).toNat ∧ ∀ r ∈ ranges, r.1 ≤ r.2 := by
  simp only [parallelRanges, Option.bind_eq_some_iff] at h
  obtain ⟨batches, hbatches, hranges⟩ := h
  obtain ⟨hsum, hlength⟩ := taskBatches_sum hbatches
  split at hranges
  · -- there are no more batches than workers
    have hshort : batches.length ≤ min N tasks := by
      have hnarrow : toInt (min N tasks) ≤ (min N tasks : Nat) := toInt_le _
      omega
    rw [List.take_of_length_le hshort] at hranges
    obtain ⟨hcovered, hle, -⟩ := advanceRanges_spec hranges
    rw [hsum, ← List.range_eq_range'] at hcovered
    exact ⟨hcovered, hle⟩
  · cases hranges

theorem launch_inv (f : α → List β) (input : List α) {tasks : Nat} {out : List β} {m : Machine β}
    (h : launch input.length tasks out = some m) :
    ∃ ranges, m.Inv f input ((path input.length tasks).base out) ranges ∧
      covered ranges = List.range (handedOut input.length tasks) ∧
      (path input.length tasks = .sequential → ranges.length = 1) := by
  unfold launch at h
  unfold handedOut
  split at h <;> rename_i hpath <;> rw [hpath]
  · obtain rfl := Option.some.inj h
    exact ⟨[], ⟨rfl, by simp, by simp⟩, rfl, by simp⟩
  · obtain rfl := Option.some.inj h
    refine ⟨[(0, input.length)], ⟨rfl, ?_, ?_⟩, ?_, by simp⟩
    · intro w hw
      obtain rfl := List.mem_singleton.mp hw
      exact Worker.start_inv f input out (Nat.zero_le _)
    · simp [Worker.start_taken]
    · simp [covered, List.range_eq_range']
  · obtain ⟨ranges, hranges, rfl⟩ := Option.map_eq_some_iff.mp h
    obtain ⟨hcovered, hle⟩ := parallelRanges_spec hranges
    refine ⟨ranges, ⟨?_, ?_, ?_⟩, hcovered, by simp⟩
    · simp [Worker.start, Function.comp_def]
    · intro w hw
      obtain ⟨r, hr, rfl⟩ := List.mem_map.mp hw
      exact Worker.start_inv f input [] (hle r hr)
    · rw [List.flatMap_map]
      simp [Worker.start_taken]

/-- The sizes for which `execute` hands out every item. -/
def Fits (N tasks : Nat) : Prop :=
  tasks = 1 ∨ N ≤ 1 ∨ ((2 * N - N / min N tasks : Nat) : Int) ≤ intMax

theorem fits_iff_launch {N tasks : Nat} (htasks : 1 ≤ tasks) (out : List β) :
    Fits N tasks ↔ (∃ m, launch N tasks out = some m) ∧ handedOut N tasks = N := by
  unfold Fits launch handedOut path
  by_cases hN : N = 0
  · simp [hN]
  · by_cases hsequential : tasks = 1 ∨ N = 1
    · have hzero : ¬ (tasks = 0 ∨ N = 0) := by omega
      simp only [if_neg hzero, if_pos hsequential]
      constructor
      · exact fun _ => ⟨⟨_, rfl⟩, trivial⟩
      · intro _
        omega
    · have hzero : ¬ (tasks = 0 ∨ N = 0) := by omega
      have hworkers : 0 < min N tasks := by omega
      simp only [if_neg hzero, if_neg hsequential, Option.map_eq_some_iff]
      constructor
      · rintro (h | h | hmax)
        · omega
        · omega
        · have hdiv : N / min N tasks ≤ N := Nat.div_le_self _ _
          have hNmax : (N : Int) ≤ intMax := by omega
          have hbatches := taskBatches_eq hworkers (Nat.min_le_left N tasks) hNmax
          rw [if_pos hmax] at hbatches
          obtain ⟨ranges, hranges⟩ := @advanceRanges_of_fits N 0 (batchSizes N (min N tasks))
            (by rw [sum_batchSizes hworkers]; omega)
          have hlength : (batchSizes N (min N tasks)).length = min N tasks := by
            simp [batchSizes]
          refine ⟨⟨_, ranges, ?_, rfl⟩, ?_⟩
          · simp only [parallelRanges, hbatches, Option.bind_some, List.length_map, hlength,
              if_pos (Nat.le_refl _)]
            rw [List.take_of_length_le (by simp [hlength]), hranges]
          · rw [toInt_of_le hNmax, Int.toNat_natCast]
      · rintro ⟨⟨m, ranges, hranges, -⟩, hall⟩
        have hNmax : (N : Int) ≤ intMax := by
          have := toInt_le_intMax N
          omega
        refine .inr (.inr ?_)
        by_contra hmax
        have hbatches := taskBatches_eq hworkers (Nat.min_le_left N tasks) hNmax
        rw [if_neg hmax] at hbatches
        simp [parallelRanges, hbatches] at hranges

/-! ### Every fair schedule ends -/

/-- The turns a worker still takes. -/
def Worker.remaining (w : Worker β) : Nat := 2 * (w.last - w.it) - w.appended.toNat

def Machine.remaining (m : Machine β) : Nat := (m.workers.map Worker.remaining).sum

section Termination

variable {f : α → List β} {input : List α} {base : List β} {ranges : List (Nat × Nat)}
  {m : Machine β}

theorem Worker.Inv.remaining_step_lt {w : Worker β} (h : w.Inv f input base)
    (hmore : w.it ≠ w.last) : (w.step f input).remaining < w.remaining := by
  have hle := h.it_le
  rcases w.step_cases f input with
    ⟨hdone, -, -⟩ | ⟨-, happended, -, hstep⟩ | ⟨-, happended, -, hstep⟩
  · exact absurd hdone hmore
  · rw [hstep]
    simp only [Worker.remaining, happended, Bool.toNat_true, Bool.toNat_false]
    omega
  · rw [hstep]
    simp only [Worker.remaining, happended, Bool.toNat_true, Bool.toNat_false]
    omega

theorem Worker.step_of_done {w : Worker β} (hdone : w.it = w.last) :
    w.step f input = w ∧ w.processes = [] := by
  simp [Worker.step, Worker.processes, hdone]

theorem Worker.Inv.remaining_step_le {w : Worker β} (h : w.Inv f input base) :
    (w.step f input).remaining ≤ w.remaining := by
  by_cases hdone : w.it = w.last
  · rw [(Worker.step_of_done hdone).1]
  · exact Nat.le_of_lt (h.remaining_step_lt hdone)

theorem Machine.Inv.remaining_step_le (h : m.Inv f input base ranges) (t : Thread) :
    (TaskExecutor.step f input t m).remaining ≤ m.remaining := by
  cases t with
  | reporter => exact Nat.le_refl _
  | worker i =>
      rcases step_worker_cases f input i m with hsame | ⟨before, w, after, hworkers, hstep⟩
      · rw [hsame]
      · have hw := (h.workers w (by simp [hworkers])).remaining_step_le
        rw [hstep]
        simp only [Machine.remaining, hworkers, List.map_append, List.map_cons, List.sum_append,
          List.sum_cons]
        omega

theorem Machine.Inv.remaining_step_lt (h : m.Inv f input base ranges) {i : Nat} {w : Worker β}
    (hget : m.workers[i]? = some w) (hmore : w.it ≠ w.last) :
    (TaskExecutor.step f input (.worker i) m).remaining < m.remaining := by
  obtain ⟨before, after, hworkers, hstep⟩ := step_worker_of_get f input hget
  have hw := (h.workers w (by simp [hworkers])).remaining_step_lt hmore
  rw [hstep]
  simp only [Machine.remaining, hworkers, List.map_append, List.map_cons, List.sum_append,
    List.sum_cons]
  omega

/-- Workers past their loops have no effect any more. -/
theorem Machine.WorkersDone.step_worker (hdone : m.WorkersDone) (i : Nat) :
    TaskExecutor.step f input (.worker i) m = m := by
  rcases step_worker_cases f input i m with hsame | ⟨before, w, after, hworkers, hstep⟩
  · exact hsame
  · obtain ⟨hw, hprocesses⟩ := @Worker.step_of_done α β f input w
      (hdone w (by simp [hworkers]))
    rw [hstep, hw, hprocesses, List.append_nil, ← hworkers]

theorem Machine.WorkersDone.step (hdone : m.WorkersDone) (t : Thread) :
    (TaskExecutor.step f input t m).WorkersDone := by
  cases t with
  | reporter => exact hdone
  | worker i => rwa [hdone.step_worker]

theorem Machine.Finished.step (h : m.Finished) (t : Thread) :
    (TaskExecutor.step f input t m).Finished := by
  refine ⟨h.1.step t, ?_⟩
  cases t with
  | reporter => simp only [TaskExecutor.step, h.2, Reporter.step]
  | worker i =>
      rw [h.1.step_worker]
      exact h.2

/-- Worker `i` has items left. -/
def HasItems (t : Thread) (m : Machine β) : Prop :=
  ∃ i w, t = .worker i ∧ m.workers[i]? = some w ∧ w.it ≠ w.last

theorem workers_ranking (f : α → List β) (input : List α) (base : List β)
    (ranges : List (Nat × Nat)) :
    Ranking (step f input) (threads ranges.length) (Machine.Inv f input base ranges)
      Machine.WorkersDone Machine.remaining HasItems where
  inv_step t m h := h.step t m
  goal_step t m _ hdone := hdone.step t
  rank_step t m h := h.remaining_step_le t
  helpful m h hdone := by
    simp only [Machine.WorkersDone, not_forall] at hdone
    obtain ⟨w, hw, hmore⟩ := hdone
    obtain ⟨i, hi, rfl⟩ := List.mem_iff_getElem.mp hw
    have hlength : m.workers.length = ranges.length := by rw [← h.ranges_eq, List.length_map]
    refine ⟨.worker i, ?_, i, m.workers[i], rfl, List.getElem?_eq_getElem hi, hmore⟩
    simp [threads, ← hlength, hi]
  decreases t m h hhelps := by
    obtain ⟨i, w, rfl, hget, hmore⟩ := hhelps
    exact h.remaining_step_lt hget hmore
  persists t t' m h hhelps := by
    obtain ⟨i, w, rfl, hget, hmore⟩ := hhelps
    cases t' with
    | reporter => exact .inr ⟨i, w, rfl, hget, hmore⟩
    | worker j =>
        by_cases hij : j = i
        · subst hij
          exact .inl (h.remaining_step_lt hget hmore)
        · refine .inr ⟨i, w, rfl, ?_, hmore⟩
          cases hj : m.workers[j]? with
          | none => simpa only [TaskExecutor.step, hj] using hget
          | some v => simpa only [TaskExecutor.step, hj, List.getElem?_set_ne hij] using hget

/-- When all workers are done, the counters add up to the items handed out. -/
theorem Machine.Inv.sum_counters (h : m.Inv f input base ranges) (hdone : m.WorkersDone) :
    m.counters.sum = (covered ranges).length := by
  rw [← h.taken_of_done hdone, List.length_flatMap, Machine.counters]
  congr 1
  apply List.map_congr_left
  intro w hw
  have happended := (h.workers w hw).not_appended (hdone w hw)
  simp [Worker.taken, happended]

theorem reporter_ranking (f : α → List β) {input : List α} (base : List β)
    {ranges : List (Nat × Nat)} (hall : (covered ranges).length = input.length)
    (hpos : input.length ≠ 0) :
    Ranking (step f input) (threads ranges.length)
      (fun m => m.Inv f input base ranges ∧ m.WorkersDone) Machine.Finished
      (fun m => m.reporter.remaining m.counters)
      (fun t m => t = .reporter ∧ m.reporter ≠ .exited) where
  inv_step t m h := ⟨h.1.step t m, h.2.step t⟩
  goal_step t m _ hgoal := hgoal.step t
  rank_step t m h := by
    cases t with
    | reporter =>
        by_cases hexited : m.reporter = .exited
        · simp only [TaskExecutor.step, hexited, Reporter.step]
          exact Nat.le_refl _
        · have hsum := (h.1.sum_counters h.2).trans hall
          exact Nat.le_of_lt (Reporter.remaining_step_lt hsum hpos hexited)
    | worker i => rw [h.2.step_worker]
  helpful m h hgoal := by
    refine ⟨.reporter, by simp [threads], rfl, fun hexited => hgoal ⟨h.2, hexited⟩⟩
  decreases t m h hhelps := by
    obtain ⟨rfl, hexited⟩ := hhelps
    have hsum := (h.1.sum_counters h.2).trans hall
    exact Reporter.remaining_step_lt hsum hpos hexited
  persists t t' m h hhelps := by
    obtain ⟨rfl, hexited⟩ := hhelps
    cases t' with
    | reporter =>
        have hsum := (h.1.sum_counters h.2).trans hall
        exact .inl (Reporter.remaining_step_lt hsum hpos hexited)
    | worker i =>
        rw [h.2.step_worker]
        exact .inr ⟨rfl, hexited⟩

/-- The rounds after which every schedule has ended. -/
theorem Machine.Inv.finished_of_rounds (h : m.Inv f input base ranges)
    (hall : (covered ranges).length = input.length) (hpos : input.length ≠ 0)
    {rounds : List (List Thread)}
    (hrounds : ∀ round ∈ rounds, IsRound (threads ranges.length) round)
    (hlength : m.remaining + 2 * (ranges.length + 1) ≤ rounds.length) :
    (run (TaskExecutor.step f input) m rounds.flatten).Finished := by
  -- first the workers finish, then the reporter
  have hsplit : rounds.flatten =
      (rounds.take m.remaining).flatten ++ (rounds.drop m.remaining).flatten := by
    rw [← List.flatten_append, List.take_append_drop]
  have htake : m.remaining ≤ (rounds.take m.remaining).length := by
    rw [List.length_take]
    omega
  have hworkers := (workers_ranking f input base ranges).goal_of_rounds
    (fun round hround => hrounds round (List.mem_of_mem_take hround)) h htake
  have hinv := run_invariant (workers_ranking f input base ranges).inv_step h
    (rounds.take m.remaining).flatten
  rw [hsplit, run_append]
  apply (reporter_ranking f base hall hpos).goal_of_rounds
    (fun round hround => hrounds round (List.mem_of_mem_drop hround)) ⟨hinv, hworkers⟩
  have hle := Reporter.remaining_le
    (run (TaskExecutor.step f input) m (rounds.take m.remaining).flatten).counters
    (run (TaskExecutor.step f input) m (rounds.take m.remaining).flatten).reporter
  have hcounters :
      (run (TaskExecutor.step f input) m (rounds.take m.remaining).flatten).counters.length =
        ranges.length := by
    rw [Machine.counters, List.length_map, ← hinv.ranges_eq, List.length_map]
  rw [hcounters] at hle
  rw [List.length_drop]
  omega

end Termination

/-! ### The merged result -/

theorem flatMap_outputAt (f : α → List β) (input : List α) :
    (List.range input.length).flatMap (outputAt f input) = input.flatMap f := by
  induction input with
  | nil => rfl
  | cons x input ih =>
      rw [List.length_cons, List.range_succ_eq_map, List.flatMap_cons, List.flatMap_map,
        List.flatMap_cons, ← ih]
      congr 1
      simp [outputAt]

/-- The storages of workers that are done, in order, hold the outputs of the items
    handed out. -/
theorem Machine.Inv.result_of_done {f : α → List β} {input : List α} {p : Path} {out : List β}
    {ranges : List (Nat × Nat)} {m : Machine β} (h : m.Inv f input (p.base out) ranges)
    (hdone : m.WorkersDone) (hcovered : covered ranges = List.range input.length)
    (hone : p = .sequential → ranges.length = 1) (hnothing : p = .nothing → input = []) :
    m.result p out = out ++ input.flatMap f := by
  have htaken := h.taken_of_done hdone
  have hstorage : ∀ w ∈ m.workers, w.storage = p.base out ++ w.taken.flatMap (outputAt f input) :=
    fun w hw => (h.workers w hw).storage_eq
  rw [← flatMap_outputAt f input, ← hcovered, ← htaken]
  cases p with
  | nothing =>
      have hempty : covered ranges = [] := by rw [hcovered, hnothing rfl]; rfl
      simp [Machine.result, htaken, hempty]
  | sequential =>
      have hlength : m.workers.length = 1 := by
        rw [← List.length_map (f := fun w : Worker β => (w.first, w.last)), h.ranges_eq, hone rfl]
      obtain ⟨w, hw⟩ := List.length_eq_one_iff.mp hlength
      have hout := hstorage w (by simp [hw])
      simp [Machine.result, hw, hout, Path.base]
  | parallel =>
      have hflat : m.workers.flatMap Worker.storage =
          m.workers.flatMap fun w => w.taken.flatMap (outputAt f input) :=
        List.flatMap_congr fun w hw => by rw [hstorage w hw]; rfl
      simp only [Machine.result]
      rw [hflat, List.flatMap_assoc]

/-! ### Parallel and sequential execution -/

/-- `execute` starts, ends under every fair schedule, and then `out` holds its old
    content followed by the outputs of the items in input order, each item having
    been processed once; with one task the result is the same. -/
def ExecutesInOrder (f : α → List β) (input : List α) (out : List β) (tasks : Nat) : Prop :=
  ∃ m, launch input.length tasks out = some m ∧
    (∃ k, ∀ rounds : List (List Thread), k ≤ rounds.length →
      (∀ round ∈ rounds, IsRound (threads m.workers.length) round) →
      (run (step f input) m rounds.flatten).Finished) ∧
    (∀ schedule, (run (step f input) m schedule).Finished →
      (run (step f input) m schedule).result (path input.length tasks) out =
        out ++ input.flatMap f ∧
      (run (step f input) m schedule).processed.Perm (List.range input.length)) ∧
    ∃ one, launch input.length 1 out = some one ∧
      ∀ schedule schedule', (run (step f input) m schedule).Finished →
        (run (step f input) one schedule').Finished →
        (run (step f input) m schedule).result (path input.length tasks) out =
          (run (step f input) one schedule').result (path input.length 1) out

theorem not_path_nothing {N tasks : Nat} (htasks : 1 ≤ tasks) (hpath : path N tasks = .nothing) :
    N = 0 := by
  unfold path at hpath
  split at hpath
  · omega
  · split at hpath <;> cases hpath

theorem launch_nil (tasks : Nat) (out : List β) :
    launch 0 tasks out = some ⟨[], .exited, []⟩ := by
  simp [launch, path]

/-- A launched machine ends under every fair schedule if all items were handed out. -/
theorem finished_of_launch (f : α → List β) {input : List α} {out : List β} {tasks : Nat}
    {m : Machine β} (h : launch input.length tasks out = some m)
    (hall : handedOut input.length tasks = input.length) :
    ∃ k, ∀ rounds : List (List Thread), k ≤ rounds.length →
      (∀ round ∈ rounds, IsRound (threads m.workers.length) round) →
      (run (step f input) m rounds.flatten).Finished := by
  by_cases hpos : input.length = 0
  · refine ⟨0, fun rounds _ _ => run_invariant (fun t m h => h.step t) ?_ _⟩
    rw [hpos, launch_nil] at h
    obtain rfl := Option.some.inj h
    exact ⟨fun w hw => absurd hw List.not_mem_nil, rfl⟩
  · obtain ⟨ranges, hinv, hcovered, -⟩ := launch_inv f input h
    have hlength : m.workers.length = ranges.length := by rw [← hinv.ranges_eq, List.length_map]
    rw [hlength]
    refine ⟨_, fun rounds hk hrounds => hinv.finished_of_rounds ?_ hpos hrounds hk⟩
    rw [hcovered, List.length_range, hall]

/-- In a finished state the items processed are the ones handed out. -/
theorem processed_of_finished (f : α → List β) {input : List α} {out : List β} {tasks : Nat}
    {m : Machine β} (h : launch input.length tasks out = some m) {schedule : List Thread}
    (hfinished : (run (step f input) m schedule).Finished) :
    (run (step f input) m schedule).processed.Perm
      (List.range (handedOut input.length tasks)) := by
  obtain ⟨ranges, hinv, hcovered, -⟩ := launch_inv f input h
  have hrun := run_invariant (fun t m h => Machine.Inv.step t m h) hinv schedule
  have hprocessed := hrun.processed
  rwa [hrun.taken_of_done hfinished.1, hcovered] at hprocessed

theorem result_of_finished (f : α → List β) {input : List α} {out : List β} {tasks : Nat}
    (htasks : 1 ≤ tasks) {m : Machine β} (h : launch input.length tasks out = some m)
    (hall : handedOut input.length tasks = input.length) {schedule : List Thread}
    (hfinished : (run (step f input) m schedule).Finished) :
    (run (step f input) m schedule).result (path input.length tasks) out =
      out ++ input.flatMap f := by
  obtain ⟨ranges, hinv, hcovered, hone⟩ := launch_inv f input h
  have hrun := run_invariant (fun t m h => Machine.Inv.step t m h) hinv schedule
  rw [hall] at hcovered
  exact hrun.result_of_done hfinished.1 hcovered hone fun hpath =>
    List.length_eq_zero_iff.mp (not_path_nothing htasks hpath)

theorem ExecutesInOrder.fits {f : α → List β} {input : List α} {out : List β} {tasks : Nat}
    (htasks : 1 ≤ tasks) (h : ExecutesInOrder f input out tasks) : Fits input.length tasks := by
  obtain ⟨m, hlaunch, ⟨k, hfair⟩, hresult, -⟩ := h
  have hfinished := hfair (List.replicate k (threads m.workers.length))
    (by rw [List.length_replicate])
    (fun round hround t ht => by rwa [List.eq_of_mem_replicate hround])
  -- a fair schedule ends with all items processed, so all of them were handed out
  have hperm := (hresult _ hfinished).2.symm.trans (processed_of_finished f hlaunch hfinished)
  have hall := hperm.length_eq
  rw [List.length_range, List.length_range] at hall
  exact (fits_iff_launch htasks out).mpr ⟨⟨m, hlaunch⟩, hall.symm⟩

/-- **Parallel execution gives the sequential result exactly when the sizes fit.** -/
theorem executesInOrder_iff_fits (f : α → List β) (input : List α) (out : List β) {tasks : Nat}
    (htasks : 1 ≤ tasks) :
    ExecutesInOrder f input out tasks ↔ Fits input.length tasks := by
  constructor
  · exact fun h => h.fits htasks
  · intro hfits
    obtain ⟨⟨m, hlaunch⟩, hall⟩ := (fits_iff_launch htasks out).mp hfits
    obtain ⟨⟨one, hone⟩, hallOne⟩ :=
      (fits_iff_launch (Nat.le_refl 1) out).mp (.inl rfl : Fits input.length 1)
    refine ⟨m, hlaunch, finished_of_launch f hlaunch hall, ?_, one, hone, ?_⟩
    · intro schedule hfinished
      have hprocessed := processed_of_finished f hlaunch hfinished
      rw [hall] at hprocessed
      exact ⟨result_of_finished f htasks hlaunch hall hfinished, hprocessed⟩
    · intro schedule schedule' hfinished hfinished'
      rw [result_of_finished f htasks hlaunch hall hfinished,
        result_of_finished f (Nat.le_refl 1) hone hallOne hfinished']

theorem executesInOrder_five_on_two :
    ExecutesInOrder (fun x : Nat => [x, x * x]) [3, 1, 4, 1, 5] [0] 2 :=
  (executesInOrder_iff_fits (fun x : Nat => [x, x * x]) [3, 1, 4, 1, 5] [0] (by decide)).mpr
    (.inr (.inr (by decide)))

/-- `2 ^ 32 + 2` items are narrowed to two, one for each worker. -/
theorem not_executesInOrder_large :
    ¬ ExecutesInOrder (fun x : Nat => [x]) (List.replicate 4294967298 0) [] 2 := by
  intro h
  have hfits := h.fits (by decide)
  rw [List.length_replicate] at hfits
  revert hfits
  unfold Fits
  decide

example : parallelRanges 4294967298 2 = some [(0, 1), (1, 2)] := by decide

end Mull.TaskExecutor
