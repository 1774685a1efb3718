import Mathlib.Data.List.Basic

/-!
# Fair schedules

A system of threads runs by giving one thread a turn at a time; a schedule is the
list of these turns.  A *round* is a piece of a schedule in which every thread has
at least one turn.  To show that a goal is reached under every schedule made of
enough rounds, it suffices to give a rank that no turn increases and, in every
state short of the goal, a thread whose turn decreases it (`Ranking`).  The turns
of the others may come first, so that thread must stay helpful until the rank has
gone down.
-/

namespace FairRounds

variable {τ σ : Type*}

/-- The state after the turns of a schedule. -/
def run (step : τ → σ → σ) (s : σ) (schedule : List τ) : σ :=
  schedule.foldl (fun s t => step t s) s

@[simp] theorem run_nil (step : τ → σ → σ) (s : σ) : run step s [] = s := rfl

@[simp] theorem run_cons (step : τ → σ → σ) (s : σ) (t : τ) (schedule : List τ) :
    run step s (t :: schedule) = run step (step t s) schedule := rfl

theorem run_append (step : τ → σ → σ) (s : σ) (first second : List τ) :
    run step s (first ++ second) = run step (run step s first) second :=
  List.foldl_append

/-- What every turn preserves, every schedule preserves. -/
theorem run_invariant {step : τ → σ → σ} {Inv : σ → Prop}
    (hstep : ∀ t s, Inv s → Inv (step t s)) {s : σ} (hs : Inv s) (schedule : List τ) :
    Inv (run step s schedule) := by
  induction schedule generalizing s with
  | nil => exact hs
  | cons t schedule ih => exact ih (hstep t s hs)

/-- Every thread has a turn. -/
def IsRound (threads : List τ) (round : List τ) : Prop := ∀ t ∈ threads, t ∈ round

/-- A rank that leads to the goal from every state with the invariant. -/
structure Ranking (step : τ → σ → σ) (threads : List τ) (Inv Goal : σ → Prop)
    (rank : σ → Nat) (Helps : τ → σ → Prop) : Prop where
  inv_step : ∀ t s, Inv s → Inv (step t s)
  goal_step : ∀ t s, Inv s → Goal s → Goal (step t s)
  rank_step : ∀ t s, Inv s → rank (step t s) ≤ rank s
  helpful : ∀ s, Inv s → ¬ Goal s → ∃ t ∈ threads, Helps t s
  decreases : ∀ t s, Inv s → Helps t s → rank (step t s) < rank s
  persists : ∀ t t' s, Inv s → Helps t s → rank (step t' s) < rank s ∨ Helps t (step t' s)

namespace Ranking

variable {step : τ → σ → σ} {threads : List τ} {Inv Goal : σ → Prop} {rank : σ → Nat}
  {Helps : τ → σ → Prop}

theorem rank_run_le (R : Ranking step threads Inv Goal rank Helps) {s : σ} (hs : Inv s)
    (schedule : List τ) : rank (run step s schedule) ≤ rank s := by
  induction schedule generalizing s with
  | nil => exact Nat.le_refl _
  | cons t schedule ih => exact Nat.le_trans (ih (R.inv_step t s hs)) (R.rank_step t s hs)

theorem goal_run (R : Ranking step threads Inv Goal rank Helps) {s : σ} (hs : Inv s)
    (hgoal : Goal s) (schedule : List τ) : Goal (run step s schedule) :=
  (@run_invariant τ σ step (fun s => Inv s ∧ Goal s)
    (fun t s h => ⟨R.inv_step t s h.1, R.goal_step t s h.1 h.2⟩) s ⟨hs, hgoal⟩ schedule).2

/-- A schedule with a turn of a helpful thread decreases the rank. -/
theorem rank_run_lt (R : Ranking step threads Inv Goal rank Helps) {t : τ} {schedule : List τ}
    {s : σ} (hs : Inv s) (hhelps : Helps t s) (ht : t ∈ schedule) :
    rank (run step s schedule) < rank s := by
  induction schedule generalizing s with
  | nil => cases ht
  | cons t' schedule ih =>
      have hs' := R.inv_step t' s hs
      have hrest := R.rank_run_le hs' schedule
      by_cases heq : t = t'
      · subst heq
        exact Nat.lt_of_le_of_lt hrest (R.decreases t s hs hhelps)
      · have htail : t ∈ schedule := (List.mem_cons.mp ht).resolve_left heq
        -- another thread has its turn first
        cases R.persists t t' s hs hhelps with
        | inl hlt => exact Nat.lt_of_le_of_lt hrest hlt
        | inr hstill => exact Nat.lt_of_lt_of_le (ih hs' hstill htail) (R.rank_step t' s hs)

/-- **As many rounds as the rank lead to the goal.** -/
theorem goal_of_rounds (R : Ranking step threads Inv Goal rank Helps) {rounds : List (List τ)}
    (hrounds : ∀ round ∈ rounds, IsRound threads round) {s : σ} (hs : Inv s)
    (hrank : rank s ≤ rounds.length) : Goal (run step s rounds.flatten) := by
  induction rounds generalizing s with
  | nil =>
      by_contra hgoal
      obtain ⟨t, -, hhelps⟩ := R.helpful s hs hgoal
      have hlt := R.decreases t s hs hhelps
      simp only [List.length_nil] at hrank
      omega
  | cons round rounds ih =>
      by_cases hgoal : Goal s
      · exact R.goal_run hs hgoal _
      · obtain ⟨t, ht, hhelps⟩ := R.helpful s hs hgoal
        have hround : IsRound threads round := hrounds round List.mem_cons_self
        have hlt := R.rank_run_lt hs hhelps (hround t ht)
        rw [List.flatten_cons, run_append]
        apply ih fun r hr => hrounds r (List.mem_cons_of_mem _ hr)
        · exact run_invariant R.inv_step hs round
        · simp only [List.length_cons] at hrank
          omega

/-- A system whose turns change nothing or decrease the rank, and in which some turn changes
    something until the goal is reached. -/
theorem of_idle {step : τ → σ → σ} {threads : List τ} {Inv Goal : σ → Prop} {rank : σ → Nat}
    (hinv : ∀ t s, Inv s → Inv (step t s)) (hgoal : ∀ t s, Inv s → Goal s → Goal (step t s))
    (hrank : ∀ t s, Inv s → step t s = s ∨ rank (step t s) < rank s)
    (hmoves : ∀ s, Inv s → ¬ Goal s → ∃ t ∈ threads, step t s ≠ s) :
    Ranking step threads Inv Goal rank fun t s => step t s ≠ s where
  inv_step := hinv
  goal_step := hgoal
  rank_step := by
    intro t s hs
    rcases hrank t s hs with heq | hlt
    · exact Nat.le_of_eq (congrArg rank heq)
    · exact Nat.le_of_lt hlt
  helpful := hmoves
  decreases := fun t s hs hhelps => (hrank t s hs).resolve_left hhelps
  persists := by
    intro t t' s hs hhelps
    rcases hrank t' s hs with heq | hlt
    · rw [heq]
      exact .inr hhelps
    · exact .inl hlt

end Ranking

/-- A part of the state that goes its own way. -/
theorem run_project {ρ : Type*} {step : τ → σ → σ} {step' : τ → ρ → ρ} {project : σ → ρ}
    (h : ∀ t s, project (step t s) = step' t (project s)) (s : σ) (schedule : List τ) :
    project (run step s schedule) = run step' (project s) schedule := by
  induction schedule generalizing s with
  | nil => rfl
  | cons t schedule ih => rw [run_cons, run_cons, ih, h]

end FairRounds
