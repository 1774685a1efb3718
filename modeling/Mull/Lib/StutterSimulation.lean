import Mathlib.Data.Set.Basic
import Mathlib.Logic.Relation

/-!
# Simulation up to stuttering

Two deterministic systems run side by side.  The second one may take extra steps between
those of the first, as long as it shows the same meanwhile and a rank says that it comes to
an end.  Then the two show the same in the same order (`Simulation.shown_eq`).  `Lockstep` is
the case in which each step of the first system is one step of the second, with quiet steps
before the next one.
-/

namespace StutterSimulation

variable {α β Label : Type*}

/-- A run from `a` shows these labels in this order, possibly with others in between and
    possibly more than one while it is in one state. -/
inductive Shows (step : α → Option α) (label : α → Label) : α → List Label → Prop where
  | nil (a : α) : Shows step label a []
  | here {a : α} {rest : List Label} (h : Shows step label a rest) :
      Shows step label a (label a :: rest)
  | later {a b : α} {labels : List Label} (hstep : step a = some b)
      (h : Shows step label b labels) : Shows step label a labels

/-- Everything that a run shows. -/
def shown (step : α → Option α) (label : α → Label) (a : α) : Set (List Label) :=
  { labels | Shows step label a labels }

/-- The relation has a rank: if the second system takes a step alone, the rank decreases. -/
structure Simulation (stepA : α → Option α) (stepB : β → Option β) (labelA : α → Label)
    (labelB : β → Label) (related : Nat → α → β → Prop) : Prop where
  label : ∀ {n a b}, related n a b → labelA a = labelB b
  progress : ∀ {n a b}, related n a b →
    (∃ a' b' n', stepA a = some a' ∧ stepB b = some b' ∧ related n' a' b') ∨
    (stepA a = none ∧ stepB b = none) ∨
    ∃ b' n', stepB b = some b' ∧ related n' a b' ∧ n' < n

variable {stepA : α → Option α} {stepB : β → Option β} {labelA : α → Label}
  {labelB : β → Label} {related : Nat → α → β → Prop}

/-- If the first system takes a step, the second one reaches a state that is related. -/
theorem Simulation.catch_up (h : Simulation stepA stepB labelA labelB related) {n : Nat} {a a' : α}
    {b : β} (hrelated : related n a b) (hstep : stepA a = some a') :
    ∃ n' b', related n' a' b' ∧
      ∀ labels, Shows stepB labelB b' labels → Shows stepB labelB b labels := by
  -- by induction on the rank
  induction n using Nat.strongRecOn generalizing b with
  | ind n ih =>
      rcases h.progress hrelated with
        ⟨a'', b', n', ha, hb, hrelated'⟩ | ⟨hnone, -⟩ | ⟨b', n', hb, hrelated', hlt⟩
      · obtain rfl := Option.some.inj (hstep.symm.trans ha)
        exact ⟨n', b', hrelated', fun labels => .later hb⟩
      · cases hstep.symm.trans hnone
      · obtain ⟨n'', b'', hrelated'', hshows⟩ := ih n' hlt hrelated'
        exact ⟨n'', b'', hrelated'', fun labels hlabels => .later hb (hshows labels hlabels)⟩

theorem Simulation.shows_right (h : Simulation stepA stepB labelA labelB related) {n : Nat} {a : α}
    {b : β} (hrelated : related n a b) {labels : List Label} (hshows : Shows stepA labelA a labels) :
    Shows stepB labelB b labels := by
  induction hshows generalizing n b with
  | nil => exact .nil b
  | here _ ih =>
      rw [h.label hrelated]
      exact .here (ih hrelated)
  | later hstep _ ih =>
      obtain ⟨n', b', hrelated', hlift⟩ := h.catch_up hrelated hstep
      exact hlift _ (ih hrelated')

theorem Simulation.shows_left (h : Simulation stepA stepB labelA labelB related) {n : Nat} {a : α}
    {b : β} (hrelated : related n a b) {labels : List Label} (hshows : Shows stepB labelB b labels) :
    Shows stepA labelA a labels := by
  induction hshows generalizing n a with
  | nil => exact .nil a
  | here _ ih =>
      rw [← h.label hrelated]
      exact .here (ih hrelated)
  | later hstep _ ih =>
      rcases h.progress hrelated with
        ⟨a', b', n', ha, hb, hrelated'⟩ | ⟨-, hnone⟩ | ⟨b', n', hb, hrelated', -⟩
      · obtain rfl := Option.some.inj (hb.symm.trans hstep)
        exact .later ha (ih hrelated')
      · cases hstep.symm.trans hnone
      · obtain rfl := Option.some.inj (hb.symm.trans hstep)
        exact ih hrelated'

/-- **Related states show the same.** -/
theorem Simulation.shown_eq (h : Simulation stepA stepB labelA labelB related) {n : Nat} {a : α}
    {b : β} (hrelated : related n a b) : shown stepA labelA a = shown stepB labelB b :=
  Set.ext fun _ => ⟨h.shows_right hrelated, h.shows_left hrelated⟩

/-! ### Steps that are matched late -/

/-- `b` gets to `b'` in `n` steps and shows the same label all the way. -/
inductive Quietly (step : β → Option β) (label : β → Label) (shows : Label) :
    Nat → β → β → Prop where
  | refl {b : β} (h : label b = shows) : Quietly step label shows 0 b b
  | next {n : Nat} {b b₁ b' : β} (h : label b = shows) (hstep : step b = some b₁)
      (hrest : Quietly step label shows n b₁ b') : Quietly step label shows (n + 1) b b'

theorem Quietly.label_eq {shows : Label} {n : Nat} {b b' : β}
    (h : Quietly stepB labelB shows n b b') : labelB b = shows := by
  cases h with
  | refl h => exact h
  | next h => exact h

theorem Quietly.trans {shows : Label} {n n' : Nat} {b b' b'' : β}
    (h : Quietly stepB labelB shows n b b') (h' : Quietly stepB labelB shows n' b' b'') :
    Quietly stepB labelB shows (n' + n) b b'' := by
  induction h with
  | refl => exact h'
  | next hlabel hstep _ ih => exact .next hlabel hstep (ih h')

/-- Both systems are stuck, or they take a step together; the second one then goes on quietly
    until the states match again. -/
structure Lockstep (stepA : α → Option α) (stepB : β → Option β) (labelA : α → Label)
    (labelB : β → Label) (Matched : α → β → Prop) : Prop where
  progress : ∀ {a b}, Matched a b → (stepA a = none ∧ stepB b = none) ∨
    ∃ a' b' b'' n, stepA a = some a' ∧ stepB b = some b' ∧
      Quietly stepB labelB (labelA a') n b' b'' ∧ Matched a' b''

variable {Matched : α → β → Prop}

theorem Lockstep.simulation (h : Lockstep stepA stepB labelA labelB Matched) :
    Simulation stepA stepB labelA labelB fun n a b =>
      ∃ b', Quietly stepB labelB (labelA a) n b b' ∧ Matched a b' where
  label := fun ⟨_, hquiet, _⟩ => hquiet.label_eq.symm
  progress := by
    rintro n a b ⟨b', hquiet, hmatched⟩
    cases hquiet with
    | refl hlabel =>
        rcases h.progress hmatched with hstuck | ⟨a', b', b'', n, ha, hb, hquiet, hmatched'⟩
        · exact .inr (.inl hstuck)
        · exact .inl ⟨a', b', n, ha, hb, b'', hquiet, hmatched'⟩
    | next hlabel hstep hrest =>
        exact .inr (.inr ⟨_, _, hstep, ⟨b', hrest, hmatched⟩, Nat.lt_succ_self _⟩)

/-! ### What is reached -/

/-- A run from `a` gets to `b`. -/
def Reaches (step : α → Option α) : α → α → Prop := Relation.ReflTransGen fun a b => step a = some b

theorem Quietly.reaches {shows : Label} {n : Nat} {b b' : β} (h : Quietly stepB labelB shows n b b') :
    Reaches stepB b b' := by
  induction h with
  | refl => exact .refl
  | next _ hstep _ ih => exact .head hstep ih

/-- Whatever the first system gets to, the second one gets to a match for it. -/
theorem Lockstep.reaches_right (h : Lockstep stepA stepB labelA labelB Matched) {a a' : α} {b : β}
    (hmatched : Matched a b) (hreaches : Reaches stepA a a') :
    ∃ b', Reaches stepB b b' ∧ Matched a' b' := by
  induction hreaches with
  | refl => exact ⟨b, .refl, hmatched⟩
  | tail _ hstep ih =>
      obtain ⟨b₁, hreached, hmatched₁⟩ := ih
      rcases h.progress hmatched₁ with ⟨hnone, -⟩ | ⟨a₂, b₂, b₃, n, ha, hb, hquiet, hmatched₃⟩
      · cases hstep.symm.trans hnone
      · obtain rfl := Option.some.inj (hstep.symm.trans ha)
        exact ⟨b₃, (hreached.tail hb).trans hquiet.reaches, hmatched₃⟩

/-- Whatever the second system gets to, it goes on to a match for what the first one gets to. -/
theorem Lockstep.reaches_left (h : Lockstep stepA stepB labelA labelB Matched) {a : α} {b b₀ b' : β}
    (hgoes : Reaches stepB b b₀) (hmatched : Matched a b₀) (hreaches : Reaches stepB b b') :
    ∃ a' b'', Reaches stepA a a' ∧ Reaches stepB b' b'' ∧ Matched a' b'' := by
  induction hreaches with
  | refl => exact ⟨a, b₀, .refl, hgoes, hmatched⟩
  | tail _ hstep ih =>
      obtain ⟨a₁, b₁, hreached, hgoes, hmatched₁⟩ := ih
      -- either the step is on the way to the match, or it is a step from there
      rcases Relation.ReflTransGen.cases_head hgoes with rfl | ⟨b₂, hstep', hrest⟩
      · rcases h.progress hmatched₁ with ⟨-, hnone⟩ | ⟨a₂, b₂, b₃, n, ha, hb, hquiet, hmatched₃⟩
        · cases hstep.symm.trans hnone
        · obtain rfl := Option.some.inj (hstep.symm.trans hb)
          exact ⟨a₂, b₃, hreached.tail ha, hquiet.reaches, hmatched₃⟩
      · obtain rfl := Option.some.inj (hstep.symm.trans hstep')
        exact ⟨a₁, b₁, hreached, hrest, hmatched₁⟩

/-- Only the steps from what is reached count. -/
theorem shown_congr {step step' : α → Option α} {label : α → Label} {a : α}
    (h : ∀ b, Reaches step a b → step b = step' b) : shown step label a = shown step' label a := by
  have hsimulation : Simulation step step' label label fun _ b b' => b = b' ∧ Reaches step a b := by
    refine ⟨?_, ?_⟩
    · rintro n b b' ⟨rfl, -⟩
      rfl
    · rintro n b b' ⟨rfl, hreached⟩
      have hsame := h b hreached
      cases hstep : step b with
      | none => exact .inr (.inl ⟨rfl, hsame ▸ hstep⟩)
      | some next => exact .inl ⟨next, next, 0, rfl, hsame ▸ hstep, rfl, hreached.tail hstep⟩
  exact hsimulation.shown_eq (n := 0) ⟨rfl, .refl⟩

end StutterSimulation
