import Mathlib.Logic.Function.Basic
import Mathlib.Data.List.Basic

/-!
# Memoised answers

A table keeps the first answer to every key, while the function that is asked can be another
one with every question.  All answers are those of the functions exactly if no key is asked for
again after its answer has changed (`answers_eq_iff`).
-/

namespace Memo

variable {κ α : Type} [DecidableEq κ]

/-- The answer to a key and the table behind: the kept answer, or else the one of the function,
    which is kept. -/
def ask (eval : κ → α) (table : κ → Option α) (key : κ) : α × (κ → Option α) :=
  match table key with
  | some answer => (answer, table)
  | none => (eval key, Function.update table key (some (eval key)))

/-- A key, and the function that is asked for it. -/
structure Question (κ α : Type) where
  eval : κ → α
  key : κ

/-- What the function says. -/
def Question.answer (question : Question κ α) : α := question.eval question.key

/-- The answers out of the table, one question after another. -/
def answers (table : κ → Option α) : List (Question κ α) → List α
  | [] => []
  | question :: questions =>
      let (answer, table) := ask question.eval table question.key
      answer :: answers table questions

theorem ask_of_some {eval : κ → α} {table : κ → Option α} {key : κ} {answer : α}
    (h : table key = some answer) : ask eval table key = (answer, table) := by
  simp [ask, h]

theorem ask_of_none {eval : κ → α} {table : κ → Option α} {key : κ} (h : table key = none) :
    ask eval table key = (eval key, Function.update table key (some (eval key))) := by
  simp [ask, h]

/-- Every question is answered as the table has it. -/
def Agrees (table : κ → Option α) (questions : List (Question κ α)) : Prop :=
  ∀ question ∈ questions, ∀ answer, table question.key = some answer → question.answer = answer

omit [DecidableEq κ] in
theorem agrees_cons {table : κ → Option α} {question : Question κ α}
    {questions : List (Question κ α)} :
    Agrees table (question :: questions) ↔
      (∀ answer, table question.key = some answer → question.answer = answer) ∧
        Agrees table questions := by
  simp [Agrees]

/-- A new entry has to agree with the questions that have its key. -/
theorem agrees_update {table : κ → Option α} {key : κ} (hkey : table key = none) (answer : α)
    {questions : List (Question κ α)} :
    Agrees (Function.update table key (some answer)) questions ↔
      Agrees table questions ∧ ∀ later ∈ questions, later.key = key → later.answer = answer := by
  constructor
  · intro h
    constructor
    · intro question hmem answer' htable
      have hne : question.key ≠ key := by
        rintro heq
        rw [heq, hkey] at htable
        cases htable
      exact h question hmem answer' (by rwa [Function.update_of_ne hne])
    · intro later hmem heq
      exact h later hmem answer (by rw [heq, Function.update_self])
  · rintro ⟨htable, hnew⟩ question hmem answer' hentry
    by_cases heq : question.key = key
    · rw [heq, Function.update_self] at hentry
      rw [hnew question hmem heq, Option.some.inj hentry]
    · rw [Function.update_of_ne heq] at hentry
      exact htable question hmem answer' hentry

/-- **All answers are right exactly if the entries are and no answer changes between two
    questions for the same key.** -/
theorem answers_eq_iff (table : κ → Option α) (questions : List (Question κ α)) :
    answers table questions = questions.map Question.answer ↔
      Agrees table questions ∧
        questions.Pairwise fun question later =>
          later.key = question.key → later.answer = question.answer := by
  induction questions generalizing table with
  | nil => simp [answers, Agrees]
  | cons question questions ih =>
      rw [answers, List.map_cons, agrees_cons, List.pairwise_cons]
      cases hentry : table question.key with
      | none =>
          rw [ask_of_none hentry]
          simp only [List.cons.injEq, ih, agrees_update hentry]
          constructor
          · rintro ⟨-, ⟨hagrees, hlater⟩, hrest⟩
            exact ⟨⟨by simp, hagrees⟩, hlater, hrest⟩
          · rintro ⟨⟨-, hagrees⟩, hlater, hrest⟩
            exact ⟨rfl, ⟨hagrees, hlater⟩, hrest⟩
      | some answer =>
          rw [ask_of_some hentry]
          simp only [List.cons.injEq, ih, Option.some.injEq, forall_eq']
          constructor
          · rintro ⟨hfirst, hagrees, hrest⟩
            refine ⟨⟨hfirst.symm, hagrees⟩, ?_, hrest⟩
            intro later hmem hkey
            -- a later question for the key meets the same entry
            rw [← hfirst]
            exact hagrees later hmem answer (by rw [hkey, hentry])
          · rintro ⟨⟨hfirst, hagrees⟩, -, hrest⟩
            exact ⟨hfirst.symm, hagrees, hrest⟩

end Memo
