import Mathlib.Data.List.Basic
import Mathlib.Logic.Function.Basic
import Mull.Lib.FairRounds

/-!
# A store that workers share

A worker looks for the value of a task in the store, and computes and stores it if it is not
there.  The search and the storing are two turns, so two workers can compute values for the
same key, and the later value replaces the earlier one.

Whatever the schedule is, a result comes from a task with the same key (`run_inv`).  A worker
that has the store for itself leaves its results there (`exists_alone`), where the next
worker finds them.
-/

namespace SharedStore

open FairRounds

variable {ι τ κ ν : Type}

/-- A worker with its tasks: `missed` says that the first of them was looked for in vain. -/
structure Worker (τ ν : Type) where
  todo : List τ
  missed : Bool
  results : List (τ × ν)

structure State (ι τ κ ν : Type) where
  store : κ → Option ν
  workers : ι → Worker τ ν

def State.initial (tasks : ι → List τ) : State ι τ κ ν :=
  ⟨fun _ => none, fun i => ⟨tasks i, false, []⟩⟩

section Turns

-- the key under which a task looks, if it uses the store, and what it computes
variable (key : τ → Option κ) (value : τ → ν)

def get (store : κ → Option ν) (task : τ) : Option ν := (key task).bind store

variable [DecidableEq κ]

def put (store : κ → Option ν) (task : τ) : κ → Option ν :=
  match key task with
  | none => store
  | some own => Function.update store own (some (value task))

/-- A turn of one worker. -/
def turn (store : κ → Option ν) (worker : Worker τ ν) : (κ → Option ν) × Worker τ ν :=
  match worker.todo with
  | [] => (store, worker)
  | task :: todo =>
      if worker.missed then
        (put key value store task, ⟨todo, false, worker.results ++ [(task, value task)]⟩)
      else
        match get key store task with
        | some found => (store, ⟨todo, false, worker.results ++ [(task, found)]⟩)
        | none => (store, { worker with missed := true })

def step [DecidableEq ι] (i : ι) (s : State ι τ κ ν) : State ι τ κ ν :=
  ⟨(turn key value s.store (s.workers i)).1,
    Function.update s.workers i (turn key value s.store (s.workers i)).2⟩

end Turns

variable {key : τ → Option κ} {value : τ → ν}

section Turn

variable [DecidableEq κ] {store : κ → Option ν} {worker : Worker τ ν} {task : τ} {todo : List τ}

theorem put_of_none (h : key task = none) : put key value store task = store := by
  rw [put, h]

theorem put_of_some {own : κ} (h : key task = some own) :
    put key value store task = Function.update store own (some (value task)) := by
  rw [put, h]

theorem turn_of_get {found : ν} (htodo : worker.todo = task :: todo)
    (hmissed : worker.missed = false) (hget : get key store task = some found) :
    turn key value store worker =
      (store, ⟨todo, false, worker.results ++ [(task, found)]⟩) := by
  simp [turn, htodo, hmissed, hget]

theorem turn_of_missing (htodo : worker.todo = task :: todo) (hmissed : worker.missed = false)
    (hget : get key store task = none) :
    turn key value store worker = (store, { worker with missed := true }) := by
  simp [turn, htodo, hmissed, hget]

theorem turn_of_missed (htodo : worker.todo = task :: todo) (hmissed : worker.missed = true) :
    turn key value store worker =
      (put key value store task, ⟨todo, false, worker.results ++ [(task, value task)]⟩) := by
  simp [turn, htodo, hmissed]

end Turn

/-! ### Where results come from -/

section Inv

-- `active` are the workers that have had turns
variable (key : τ → Option κ) (value : τ → ν) (tasks : ι → List τ) (active : ι → Prop)

/-- An active worker has a task with that key, which computes the value. -/
def Computed (own : κ) (found : ν) : Prop :=
  ∃ i, active i ∧ ∃ task ∈ tasks i, key task = some own ∧ value task = found

/-- A result is the task's own value, or that of a task with the same key. -/
def Sourced (result : τ × ν) : Prop :=
  result.2 = value result.1 ∨
    ∃ own, key result.1 = some own ∧ Computed key value tasks active own result.2

structure Inv (s : State ι τ κ ν) : Prop where
  stored : ∀ own found, s.store own = some found → Computed key value tasks active own found
  split : ∀ i, (s.workers i).results.map Prod.fst ++ (s.workers i).todo = tasks i
  sourced : ∀ i, ∀ result ∈ (s.workers i).results, Sourced key value tasks active result

theorem inv_initial : Inv key value tasks active (.initial tasks) where
  stored := by simp [State.initial]
  split := by simp [State.initial]
  sourced := by simp [State.initial]

end Inv

variable {tasks : ι → List τ} {active : ι → Prop} [DecidableEq κ]

theorem computed_of_put {store : κ → Option ν} {i : ι} (hi : active i) {task : τ}
    (htask : task ∈ tasks i)
    (hstored : ∀ own found, store own = some found → Computed key value tasks active own found) :
    ∀ own found, put key value store task own = some found →
      Computed key value tasks active own found := by
  intro own found h
  cases hkey : key task with
  | none =>
      rw [put_of_none hkey] at h
      exact hstored own found h
  | some put =>
      rw [put_of_some hkey] at h
      by_cases heq : own = put
      · subst heq
        rw [Function.update_self] at h
        exact ⟨i, hi, task, htask, hkey, Option.some.inj h⟩
      · rw [Function.update_of_ne heq] at h
        exact hstored own found h

variable [DecidableEq ι]

theorem Inv.step {s : State ι τ κ ν} (h : Inv key value tasks active s) {i : ι} (hi : active i) :
    Inv key value tasks active (step key value i s) := by
  have hsplit := h.split i
  have hothers : ∀ (store : κ → Option ν) (worker : Worker τ ν),
      (∀ own found, store own = some found → Computed key value tasks active own found) →
      worker.results.map Prod.fst ++ worker.todo = tasks i →
      (∀ result ∈ worker.results, Sourced key value tasks active result) →
      Inv key value tasks active ⟨store, Function.update s.workers i worker⟩ := by
    intro store worker hstore hown hsourced
    refine ⟨hstore, fun j => ?_, fun j => ?_⟩
    · by_cases heq : j = i
      · subst heq
        simpa using hown
      · simpa [heq] using h.split j
    · by_cases heq : j = i
      · subst heq
        simpa using hsourced
      · simpa [heq] using h.sourced j
  unfold SharedStore.step
  cases htodo : (s.workers i).todo with
  | nil =>
      have hidle : turn key value s.store (s.workers i) = (s.store, s.workers i) := by
        rw [turn, htodo]
      rw [hidle]
      exact hothers _ _ h.stored hsplit (h.sourced i)
  | cons task todo =>
      rw [htodo] at hsplit
      have htask : task ∈ tasks i := hsplit ▸ List.mem_append_right _ List.mem_cons_self
      have hnext : ∀ found, ((s.workers i).results ++ [(task, found)]).map Prod.fst ++ todo =
          tasks i := fun found => by simpa using hsplit
      have hsourced : ∀ found, Sourced key value tasks active (task, found) →
          ∀ result ∈ (s.workers i).results ++ [(task, found)],
            Sourced key value tasks active result := by
        intro found hfound result hresult
        rcases List.mem_append.mp hresult with hold | hnew
        · exact h.sourced i result hold
        · rwa [List.mem_singleton.mp hnew]
      cases hmissed : (s.workers i).missed with
      | true =>
          rw [turn_of_missed htodo hmissed]
          exact hothers _ _ (computed_of_put hi htask h.stored) (hnext _) (hsourced _ (.inl rfl))
      | false =>
          cases hget : get key s.store task with
          | none =>
              rw [turn_of_missing htodo hmissed hget]
              refine hothers _ _ h.stored ?_ (h.sourced i)
              simpa [htodo] using hsplit
          | some found =>
              rw [turn_of_get htodo hmissed hget]
              obtain ⟨own, hkey, hfound⟩ := Option.bind_eq_some_iff.mp hget
              exact hothers _ _ h.stored (hnext _)
                (hsourced _ (.inr ⟨own, hkey, h.stored own found hfound⟩))

/-- **Under every schedule, all results come from tasks with the same key.** -/
theorem run_inv {s : State ι τ κ ν} (h : Inv key value tasks active s) {schedule : List ι}
    (hschedule : ∀ i ∈ schedule, active i) :
    Inv key value tasks active (run (step key value) s schedule) := by
  induction schedule generalizing s with
  | nil => exact h
  | cons i schedule ih =>
      rw [List.forall_mem_cons] at hschedule
      exact ih (h.step hschedule.1) hschedule.2

omit [DecidableEq κ] [DecidableEq ι] in
/-- A worker that is finished has a result for each of its tasks. -/
theorem Inv.exists_result {s : State ι τ κ ν} (h : Inv key value tasks active s) {i : ι}
    (hfinished : (s.workers i).todo = []) {task : τ} (htask : task ∈ tasks i) :
    ∃ result ∈ (s.workers i).results, result.1 = task := by
  have hsplit := h.split i
  rw [hfinished, List.append_nil] at hsplit
  exact List.mem_map.mp (hsplit ▸ htask)

/-! ### One worker after another -/

/-- What a worker leaves that has had the store for itself: the values that were there, and
    its own results. -/
structure Alone (key : τ → Option κ) (i : ι) (s s' : State ι τ κ ν) : Prop where
  finished : (s'.workers i).todo = []
  others : ∀ j ≠ i, s'.workers j = s.workers j
  kept : ∀ own found, s.store own = some found → s'.store own = some found
  stored : ∀ result ∈ (s'.workers i).results, result ∈ (s.workers i).results ∨
    ∀ own, key result.1 = some own → s'.store own = some result.2

/-- One task of a worker, from the search to the result. -/
structure TaskAlone (key : τ → Option κ) (i : ι) (task : τ) (todo : List τ) (found : ν)
    (s s' : State ι τ κ ν) : Prop where
  worker : s'.workers i = ⟨todo, false, (s.workers i).results ++ [(task, found)]⟩
  others : ∀ j ≠ i, s'.workers j = s.workers j
  kept : ∀ own found, s.store own = some found → s'.store own = some found
  stored : ∀ own, key task = some own → s'.store own = some found

theorem exists_taskAlone (key : τ → Option κ) (value : τ → ν) {i : ι} {s : State ι τ κ ν} {task : τ} {todo : List τ}
    (htodo : (s.workers i).todo = task :: todo) (hmissed : (s.workers i).missed = false) :
    ∃ n found, TaskAlone key i task todo found s
      (run (step key value) s (List.replicate n i)) := by
  cases hget : get key s.store task with
  | some found =>
      have hstep : step key value i s =
          ⟨s.store, Function.update s.workers i
            ⟨todo, false, (s.workers i).results ++ [(task, found)]⟩⟩ := by
        rw [step, turn_of_get htodo hmissed hget]
      refine ⟨1, found, ?_⟩
      rw [List.replicate_one, run_cons, run_nil, hstep]
      refine ⟨Function.update_self .., fun j hj => Function.update_of_ne hj .., fun _ _ h => h, ?_⟩
      intro own hkey
      rwa [get, hkey] at hget
  | none =>
      have hsearch : step key value i s =
          ⟨s.store, Function.update s.workers i { s.workers i with missed := true }⟩ := by
        rw [step, turn_of_missing htodo hmissed hget]
      have hstep : step key value i (step key value i s) =
          ⟨put key value s.store task, Function.update s.workers i
            ⟨todo, false, (s.workers i).results ++ [(task, value task)]⟩⟩ := by
        have hstores : turn key value s.store { s.workers i with missed := true } =
            (put key value s.store task,
              ⟨todo, false, (s.workers i).results ++ [(task, value task)]⟩) :=
          turn_of_missed htodo rfl
        rw [hsearch]
        simp only [step, Function.update_self, hstores, Function.update_idem]
      refine ⟨2, value task, ?_⟩
      rw [List.replicate_succ, List.replicate_one, run_cons, run_cons, run_nil, hstep]
      refine ⟨Function.update_self .., fun j hj => Function.update_of_ne hj .., ?_, ?_⟩
      · -- nothing is replaced, as the task has found nothing under its key
        intro own found h
        cases hown : key task with
        | none => rwa [put_of_none hown]
        | some other =>
            have hne : own ≠ other := by
              rintro rfl
              rw [get, hown, Option.bind_some, h] at hget
              cases hget
            rw [put_of_some hown]
            exact (Function.update_of_ne hne ..).trans h
      · intro own hkey
        rw [put_of_some hkey]
        exact Function.update_self ..

/-- **A worker that has the store for itself leaves its results there.** -/
theorem exists_alone (key : τ → Option κ) (value : τ → ν) {i : ι} {s : State ι τ κ ν}
    (hmissed : (s.workers i).missed = false) :
    ∃ n, Alone key i s (run (step key value) s (List.replicate n i)) := by
  generalize htodo : (s.workers i).todo = todo
  induction todo generalizing s with
  | nil => exact ⟨0, htodo, fun _ _ => rfl, fun _ _ h => h, fun _ h => .inl h⟩
  | cons task todo ih =>
      obtain ⟨n, found, htask⟩ := exists_taskAlone key value htodo hmissed
      obtain ⟨m, halone⟩ := ih (by rw [htask.worker]) (by rw [htask.worker])
      refine ⟨n + m, ?_⟩
      rw [List.replicate_add, run_append]
      refine ⟨halone.finished, fun j hj => (halone.others j hj).trans (htask.others j hj),
        fun own found h => halone.kept own found (htask.kept own found h), fun result hresult => ?_⟩
      rcases halone.stored result hresult with hold | hnew
      · rw [htask.worker] at hold
        rcases List.mem_append.mp hold with hold | hlast
        · exact .inl hold
        · obtain rfl := List.mem_singleton.mp hlast
          exact .inr fun own hkey => halone.kept own found (htask.stored own hkey)
      · exact .inr hnew

/-- **What one worker leaves for a key, the other ones find.**  A task gets what a task of
    another worker with the same key has got before it, alone with an empty store. -/
theorem exists_schedule_found (key : τ → Option κ) (value : τ → ν) (tasks : ι → List τ) {i j : ι} {task task' : τ} {own : κ}
    (htask : task ∈ tasks i) (htask' : task' ∈ tasks j) (hkey : key task = some own)
    (hkey' : key task' = some own) :
    ∃ schedule schedule' found,
      (∀ worker ∈ schedule, worker = i) ∧
      (task, found) ∈ ((run (step key value) (.initial tasks) schedule).workers i).results ∧
      (task', found) ∈ ((run (step key value) (.initial tasks) schedule').workers j).results := by
  obtain ⟨n, hfirst⟩ := exists_alone key value (i := i) (s := .initial tasks) rfl
  have hinv : ∀ schedule, Inv key value tasks (fun _ => True)
      (run (step key value) (.initial tasks) schedule) := fun schedule =>
    run_inv (inv_initial key value tasks _) fun _ _ => trivial
  have honly : ∀ worker ∈ List.replicate n i, worker = i := fun _ => List.eq_of_mem_replicate
  obtain ⟨⟨_, found⟩, hresult, rfl⟩ := (hinv _).exists_result hfirst.finished htask
  have hstored : (run (step key value) (.initial tasks) (List.replicate n i)).store own =
      some found := by
    rcases hfirst.stored _ hresult with hold | hnew
    · cases hold
    · exact hnew own hkey
  by_cases heq : j = i
  · subst heq
    obtain ⟨⟨_, found'⟩, hresult', rfl⟩ := (hinv _).exists_result hfirst.finished htask'
    rcases hfirst.stored _ hresult' with hold | hnew
    · cases hold
    · obtain rfl := Option.some.inj (hstored.symm.trans (hnew own hkey'))
      exact ⟨_, _, found, honly, hresult, hresult'⟩
  · have hworker := hfirst.others j heq
    obtain ⟨m, hsecond⟩ := exists_alone key value (i := j)
      (s := run (step key value) (.initial tasks) (List.replicate n i)) (by rw [hworker]; rfl)
    rw [← run_append] at hsecond
    obtain ⟨⟨_, found'⟩, hresult', rfl⟩ := (hinv _).exists_result hsecond.finished htask'
    rcases hsecond.stored _ hresult' with hold | hnew
    · rw [hworker] at hold
      cases hold
    · obtain rfl := Option.some.inj ((hsecond.kept own _ hstored).symm.trans (hnew own hkey'))
      exact ⟨_, _, found, honly, hresult, hresult'⟩

end SharedStore
