import Mathlib.Algebra.BigOperators.Group.List.Basic
import Mathlib.Algebra.GroupWithZero.Nat

/-!
# Line tables

A text is cut behind each terminator (`lines`).  A table of the places where the lines begin
(`starts`), with the length of the text behind it, is filled in one pass, and the text between
two entries that follow each other is a line (`exists_starts_slice`).
-/

namespace LineTable

variable {α : Type} [DecidableEq α]

/-- The lines of a text, each with its terminator if it has one. -/
def lines (terminator : α) : List α → List (List α)
  | [] => [[]]
  | x :: xs =>
    if x = terminator then [x] :: lines terminator xs
    else (lines terminator xs).modifyHead (x :: ·)

/-- Where the lines behind the first one begin, for a text that begins at `position`. -/
def startsFrom (terminator : α) (position : Nat) : List α → List Nat
  | [] => []
  | x :: xs =>
    if x = terminator then (position + 1) :: startsFrom terminator (position + 1) xs
    else startsFrom terminator (position + 1) xs

/-- Where the lines of a text begin. -/
def starts (terminator : α) (xs : List α) : List Nat := 0 :: startsFrom terminator 0 xs

variable (terminator : α)

theorem length_lines (xs : List α) :
    (lines terminator xs).length = xs.count terminator + 1 := by
  induction xs with
  | nil => rfl
  | cons x xs ih =>
    rw [lines]
    split
    · rename_i hx
      simp [hx, ih]
    · rename_i hx
      simp [ih, List.count_cons_of_ne hx]

theorem lines_ne_nil (xs : List α) : lines terminator xs ≠ [] := by
  rw [← List.length_pos_iff, length_lines]
  omega

theorem exists_lines_eq_cons (xs : List α) :
    ∃ first others, lines terminator xs = first :: others :=
  List.exists_cons_of_ne_nil (lines_ne_nil terminator xs)

@[simp] theorem flatten_lines (xs : List α) : (lines terminator xs).flatten = xs := by
  induction xs with
  | nil => rfl
  | cons x xs ih =>
    rw [lines]
    split
    · simp [ih]
    · rcases exists_lines_eq_cons terminator xs with ⟨first, others, hlines⟩
      rw [hlines] at ih ⊢
      simpa using ih

theorem mem_iff_mem_lines {x : α} {xs : List α} :
    x ∈ xs ↔ ∃ line ∈ lines terminator xs, x ∈ line := by
  rw [← List.mem_flatten, flatten_lines]

/-- What is not in a text is in none of its lines. -/
theorem notMem_iff_lines {x : α} {xs : List α} :
    x ∉ xs ↔ ∀ k (hk : k < (lines terminator xs).length), x ∉ (lines terminator xs)[k] := by
  rw [mem_iff_mem_lines terminator]
  constructor
  · intro hnot k hk hmem
    exact hnot ⟨_, List.getElem_mem hk, hmem⟩
  · rintro hall ⟨line, hline, hmem⟩
    rcases List.getElem_of_mem hline with ⟨k, hk, rfl⟩
    exact hall k hk hmem

variable {terminator}

theorem lines_of_not_mem {xs : List α} (hxs : terminator ∉ xs) : lines terminator xs = [xs] := by
  induction xs with
  | nil => rfl
  | cons x xs ih =>
    rcases not_or.mp (List.mem_cons.not.mp hxs) with ⟨hx, hxs⟩
    simp [lines, if_neg (Ne.symm hx), ih hxs]

/-- The first line of a second text continues the last one of the first. -/
theorem lines_append (xs : List α) {ys first : List α} {others : List (List α)}
    (hys : lines terminator ys = first :: others) :
    lines terminator (xs ++ ys) = (lines terminator xs).dropLast ++
      ((lines terminator xs).getLast (lines_ne_nil terminator xs) ++ first) :: others := by
  induction xs with
  | nil => simpa [lines] using hys
  | cons x xs ih =>
    rcases exists_lines_eq_cons terminator xs with ⟨first', others', hlines⟩
    by_cases hx : x = terminator
    · simp only [List.cons_append, lines, if_pos hx, ih, hlines]
      simp
    · simp only [List.cons_append, lines, if_neg hx, ih, hlines]
      cases others' <;> simp

/-! ### The table -/

@[simp] theorem length_startsFrom (terminator : α) (position : Nat) (xs : List α) :
    (startsFrom terminator position xs).length = xs.count terminator := by
  induction xs generalizing position with
  | nil => rfl
  | cons x xs ih =>
    rw [startsFrom]
    split
    · rename_i hx
      simp [hx, ih]
    · rename_i hx
      simp [ih, List.count_cons_of_ne hx]

@[simp] theorem length_starts (terminator : α) (xs : List α) :
    (starts terminator xs).length = xs.count terminator + 1 := by
  simp [starts]

theorem le_of_mem_startsFrom {xs : List α} {position start : Nat}
    (h : start ∈ startsFrom terminator position xs) : start ≤ position + xs.length := by
  induction xs generalizing position with
  | nil => cases h
  | cons x xs ih =>
    rw [startsFrom] at h
    rw [List.length_cons]
    split at h
    · rcases List.mem_cons.mp h with rfl | hrest
      · omega
      · have hle := ih hrest
        omega
    · have hle := ih h
      omega

/-- A line begins behind the lines before it. -/
theorem startsFrom_getElem? {xs : List α} {position k : Nat} (hk : k < xs.count terminator) :
    (startsFrom terminator position xs)[k]? =
      some (position + (((lines terminator xs).map List.length).take (k + 1)).sum) := by
  induction xs generalizing position k with
  | nil => simp at hk
  | cons x xs ih =>
    by_cases hx : x = terminator
    · simp only [startsFrom, lines, if_pos hx]
      cases k with
      | zero => simp
      | succ k =>
        have hk' : k < xs.count terminator := by
          rw [hx, List.count_cons_self] at hk
          omega
        rw [List.getElem?_cons_succ, ih hk']
        simp
        omega
    · simp only [startsFrom, lines, if_neg hx]
      rw [List.count_cons_of_ne hx] at hk
      rcases exists_lines_eq_cons terminator xs with ⟨first, others, hlines⟩
      rw [ih hk, hlines]
      simp
      omega

theorem starts_getElem? {xs : List α} {k : Nat} (hk : k < (lines terminator xs).length) :
    (starts terminator xs)[k]? =
      some (((lines terminator xs).map List.length).take k).sum := by
  cases k with
  | zero => simp [starts]
  | succ k =>
    rw [length_lines] at hk
    rw [starts, List.getElem?_cons_succ, startsFrom_getElem? (by omega), Nat.zero_add]

/-- The last entry of a table is the length of the text. -/
def table (terminator : α) (xs : List α) : List Nat := starts terminator xs ++ [xs.length]

/-- The entries for the lines do not depend on what stands behind them. -/
theorem starts_append_getElem? {xs : List α} {k : Nat} (hk : k < (lines terminator xs).length)
    (stop : Nat) : (starts terminator xs ++ [stop])[k]? = (table terminator xs)[k]? := by
  rw [length_lines, ← length_starts] at hk
  rw [table, List.getElem?_append_left hk, List.getElem?_append_left hk]

theorem starts_append_getElem?_length (xs : List α) (stop : Nat) :
    (starts terminator xs ++ [stop])[(lines terminator xs).length]? = some stop := by
  rw [length_lines, ← length_starts, List.getElem?_concat_length]

/-- Two entries that follow each other enclose a line. -/
theorem exists_table_slice {xs : List α} {k : Nat} (hk : k < (lines terminator xs).length) :
    ∃ start stop, (table terminator xs)[k]? = some start ∧
      (table terminator xs)[k + 1]? = some stop ∧
      stop = start + (lines terminator xs)[k].length ∧ stop ≤ xs.length ∧
      (xs.drop start).take (lines terminator xs)[k].length = (lines terminator xs)[k] := by
  have hlength := length_starts terminator xs
  have hlines := length_lines terminator xs
  have hsum : (((lines terminator xs).map List.length).take (k + 1)).sum =
      (((lines terminator xs).map List.length).take k).sum + (lines terminator xs)[k].length := by
    rw [List.take_succ_eq_append_getElem (by simpa using hk)]
    simp
  have hall := List.sum_take_add_sum_drop ((lines terminator xs).map List.length) (k + 1)
  rw [← List.length_flatten, flatten_lines] at hall
  have hbegin : (table terminator xs)[k]? =
      some (((lines terminator xs).map List.length).take k).sum := by
    rw [table, List.getElem?_append_left (by omega), starts_getElem? hk]
  refine ⟨_, _, hbegin, ?_, hsum, by omega, ?_⟩
  · by_cases hlast : k + 1 < (lines terminator xs).length
    · rw [table, List.getElem?_append_left (by omega), starts_getElem? hlast]
    · obtain hend : k + 1 = (lines terminator xs).length := by omega
      rw [hend, table, starts_append_getElem?_length, List.take_of_length_le (by simp),
        ← List.length_flatten, flatten_lines]
  · have hdrop := List.drop_sum_flatten (lines terminator xs) k
    rw [flatten_lines, List.drop_eq_getElem_cons hk] at hdrop
    rw [hdrop, List.flatten_cons, List.take_left]

end LineTable
