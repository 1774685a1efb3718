import Mathlib.Algebra.Order.BigOperators.Group.List
import Mathlib.Algebra.Order.Ring.Nat
import Mathlib.Data.List.Nodup
import Mathlib.Logic.Function.Basic

/-!
# Tables, unique columns and transactions

The part of SQL that a program needs which only fills a file: tables are created, rows are
inserted, in a transaction or each for itself.  A column of a table may be declared `UNIQUE`;
a row that has the value of an earlier one there is refused, or left out where `OR IGNORE` is
said.  What a transaction did is in the file only when it has ended.

The rows are in the order of the inserts, and `insertAll_isSome_iff` and `insertOrIgnoreAll`
say which of many rows there are in the end.
-/

namespace Relational

inductive Value where
  | text (bytes : List UInt8)
  | int (value : Int)
deriving DecidableEq, Repr

abbrev Row := List Value

/-! ### Tables -/

section Tables

variable {ρ κ : Type} [DecidableEq κ] (key : ρ → κ)

/-- A row is refused if its key is in the table. -/
def insert (rows : List ρ) (row : ρ) : Option (List ρ) :=
  if key row ∈ rows.map key then none else some (rows ++ [row])

def insertOrIgnore (rows : List ρ) (row : ρ) : List ρ := (insert key rows row).getD rows

def insertAll (rows : List ρ) (new : List ρ) : Option (List ρ) := new.foldlM (insert key) rows

def insertOrIgnoreAll (rows : List ρ) (new : List ρ) : List ρ := new.foldl (insertOrIgnore key) rows

variable {key}

theorem insert_eq_some_iff {rows rows' : List ρ} {row : ρ} :
    insert key rows row = some rows' ↔ key row ∉ rows.map key ∧ rows ++ [row] = rows' := by
  unfold insert
  split
  · rename_i hmem
    exact iff_of_false (fun h => nomatch h) fun h => h.1 hmem
  · rename_i hmem
    rw [Option.some_inj, and_iff_right hmem]

omit [DecidableEq κ] in
theorem nodup_append_singleton {rows : List ρ} {row : ρ} (h : (rows.map key).Nodup) :
    ((rows ++ [row]).map key).Nodup ↔ key row ∉ rows.map key := by
  rw [List.map_append, List.map_singleton, List.nodup_append_comm, List.singleton_append,
    List.nodup_cons, and_iff_left h]

/-- **All rows are accepted exactly if the keys differ.** -/
theorem insertAll_eq {rows : List ρ} (new : List ρ) (h : (rows.map key).Nodup) :
    insertAll key rows new =
      if ((rows ++ new).map key).Nodup then some (rows ++ new) else none := by
  induction new generalizing rows with
  | nil =>
      rw [List.append_nil, if_pos h]
      rfl
  | cons row new ih =>
      have hstep : insertAll key rows (row :: new) =
          (insert key rows row).bind fun rows' => insertAll key rows' new := List.foldlM_cons ..
      have happend : rows ++ row :: new = rows ++ [row] ++ new := by simp
      rw [hstep, happend]
      by_cases hmem : key row ∈ rows.map key
      · have hdup : ¬ ((rows ++ [row] ++ new).map key).Nodup := by
          intro hnodup
          rw [List.map_append] at hnodup
          exact (nodup_append_singleton h).mp hnodup.of_append_left hmem
        rw [if_neg hdup, insert, if_pos hmem, Option.bind_none]
      · rw [insert, if_neg hmem, Option.bind_some]
        exact ih ((nodup_append_singleton h).mpr hmem)

theorem insertOrIgnore_eq (rows : List ρ) (row : ρ) :
    insertOrIgnore key rows row = if key row ∈ rows.map key then rows else rows ++ [row] := by
  unfold insertOrIgnore insert
  split <;> rfl

theorem insertOrIgnoreAll_cons (rows : List ρ) (row : ρ) (new : List ρ) :
    insertOrIgnoreAll key rows (row :: new) =
      insertOrIgnoreAll key (insertOrIgnore key rows row) new := rfl

/-- The keys in the table differ, whatever is inserted. -/
theorem nodup_insertOrIgnoreAll {rows : List ρ} (new : List ρ) (h : (rows.map key).Nodup) :
    ((insertOrIgnoreAll key rows new).map key).Nodup := by
  induction new generalizing rows with
  | nil => exact h
  | cons row new ih =>
      rw [insertOrIgnoreAll_cons]
      refine ih ?_
      rw [insertOrIgnore_eq]
      split
      · exact h
      · rename_i hmem
        exact (nodup_append_singleton h).mpr hmem

/-- In the table is, for every key, the first row that has it. -/
theorem find?_insertOrIgnoreAll (rows new : List ρ) (k : κ) :
    (insertOrIgnoreAll key rows new).find? (fun row => decide (key row = k)) =
      (rows ++ new).find? (fun row => decide (key row = k)) := by
  induction new generalizing rows with
  | nil => rw [List.append_nil]; rfl
  | cons row new ih =>
      rw [insertOrIgnoreAll_cons, ih, insertOrIgnore_eq]
      split
      · rename_i hmem
        obtain ⟨earlier, hearlier, hkey⟩ := List.mem_map.mp hmem
        rw [List.find?_append, List.find?_append, List.find?_cons]
        by_cases hk : key row = k
        · have hfound : (rows.find? fun row => decide (key row = k)).isSome := by
            rw [List.find?_isSome]
            exact ⟨earlier, hearlier, by simpa using hkey.trans hk⟩
          obtain ⟨found, hfound⟩ := Option.isSome_iff_exists.mp hfound
          rw [hfound, Option.some_or, Option.some_or]
        · rw [decide_eq_false hk]
      · rw [List.append_assoc, List.singleton_append]

theorem insertOrIgnoreAll_sublist (rows new : List ρ) :
    (insertOrIgnoreAll key rows new).Sublist (rows ++ new) := by
  induction new generalizing rows with
  | nil =>
      rw [List.append_nil]
      exact List.Sublist.refl _
  | cons row new ih =>
      refine (ih _).trans ?_
      rw [insertOrIgnore_eq]
      split
      · exact (List.Sublist.refl rows).append (List.sublist_cons_self row new)
      · rw [List.append_assoc, List.singleton_append]

/-- Nothing is left out exactly if the keys differ. -/
theorem insertOrIgnoreAll_eq_iff {new : List ρ} :
    insertOrIgnoreAll key [] new = new ↔ (new.map key).Nodup := by
  have hall : ∀ (rest rows : List ρ), ((rows ++ rest).map key).Nodup →
      insertOrIgnoreAll key rows rest = rows ++ rest := by
    intro rest
    induction rest with
    | nil =>
        intro rows _
        rw [List.append_nil]
        rfl
    | cons row rest ih =>
        intro rows hnodup
        have happend : rows ++ row :: rest = rows ++ [row] ++ rest := by simp
        rw [happend] at hnodup ⊢
        have hfront : ((rows ++ [row]).map key).Nodup := by
          rw [List.map_append] at hnodup
          exact hnodup.of_append_left
        have hrows : (rows.map key).Nodup := by
          rw [List.map_append] at hfront
          exact hfront.of_append_left
        rw [insertOrIgnoreAll_cons, insertOrIgnore_eq,
          if_neg ((nodup_append_singleton hrows).mp hfront)]
        exact ih _ hnodup
  constructor
  · intro h
    have hnodup := @nodup_insertOrIgnoreAll ρ κ _ key [] new List.nodup_nil
    rwa [h] at hnodup
  · intro h
    exact hall new [] h

end Tables

/-! ### Joins -/

section Join

variable {α ρ σ κ : Type} [DecidableEq κ]

/-- The pairs of rows that belong together. -/
def join (on : ρ → σ → Bool) (left : List ρ) (right : List σ) : List (ρ × σ) :=
  left.flatMap fun row => (right.filter (on row)).map fun row' => (row, row')

variable {on : ρ → σ → Bool} {f : α → ρ} {g : α → σ} {key : α → κ} {items : List α} {extra : List σ}

theorem length_join (left : List ρ) (right : List σ) :
    (join on left right).length = (left.map fun row => right.countP (on row)).sum := by
  simp [join, List.length_flatMap, List.countP_eq_length_filter]

theorem filter_key_eq (hnodup : (items.map key).Nodup) {a : α} (ha : a ∈ items) :
    items.filter (fun b => decide (key a = key b)) = [a] := by
  obtain ⟨before, behind, rfl⟩ := List.append_of_mem ha
  rw [List.map_append, List.map_cons, List.nodup_append, List.nodup_cons] at hnodup
  obtain ⟨-, ⟨hbehind, -⟩, hbefore⟩ := hnodup
  have hnil : ∀ rest : List α, key a ∉ rest.map key →
      rest.filter (fun b => decide (key a = key b)) = [] := by
    intro rest hrest
    refine List.filter_eq_nil_iff.mpr fun b hb => ?_
    simpa using fun heq : key a = key b => hrest (heq ▸ List.mem_map_of_mem hb)
  rw [List.filter_append, List.filter_cons_of_pos (by simp), hnil behind hbehind,
    hnil before fun hmem => hbefore _ hmem _ List.mem_cons_self rfl, List.nil_append]

section On

variable (hon : ∀ a ∈ items, ∀ b ∈ items, on (f a) (g b) = decide (key a = key b))
include hon

theorem countP_on {a : α} (ha : a ∈ items) :
    (items.map g).countP (on (f a)) = (items.map key).count (key a) := by
  rw [List.countP_map, List.count, List.countP_map]
  refine List.countP_congr fun b hb => ?_
  simp only [Function.comp_apply, hon a ha b hb, beq_iff_eq, decide_eq_true_eq]
  exact eq_comm

/-- With as many pairs as items, every item has one. -/
theorem nodup_of_length_join
    (h : (join on (items.map f) (extra ++ items.map g)).length = items.length) :
    (items.map key).Nodup ∧ ∀ a ∈ items, ∀ row ∈ extra, on (f a) row = false := by
  have hpos : ∀ a ∈ items, 1 ≤ (items.map key).count (key a) := fun a ha =>
    List.one_le_count_iff.mpr (List.mem_map_of_mem ha)
  have hone : ∀ a ∈ items, extra.countP (on (f a)) + (items.map key).count (key a) ≤ 1 := by
    by_contra hmore
    push Not at hmore
    obtain ⟨a, ha, hlt⟩ := hmore
    rw [← countP_on hon ha, ← List.countP_append] at hlt
    rw [length_join, List.map_map] at h
    have hsum := List.sum_lt_sum (fun _ => 1) (fun a => (extra ++ items.map g).countP (on (f a)))
      (fun b hb => by
        rw [List.countP_append, countP_on hon hb]
        exact (hpos b hb).trans (Nat.le_add_left _ _)) ⟨a, ha, hlt⟩
    rw [List.map_const', List.sum_replicate_nat, Nat.mul_one] at hsum
    exact absurd h hsum.ne'
  constructor
  · refine List.nodup_iff_count_le_one.mpr fun k => ?_
    by_cases hk : k ∈ items.map key
    · obtain ⟨a, ha, rfl⟩ := List.mem_map.mp hk
      exact (Nat.le_add_left _ _).trans (hone a ha)
    · rw [List.count_eq_zero_of_not_mem hk]
      exact Nat.zero_le 1
  · intro a ha row hrow
    have hzero : extra.countP (on (f a)) = 0 := by
      have hle := hone a ha
      have hle' := hpos a ha
      omega
    simpa using List.countP_eq_zero.mp hzero row hrow

/-- **A join of two tables that were filled from one list gives back the list,** if the keys
    differ and no other row has one of them. -/
theorem join_eq (hnodup : (items.map key).Nodup)
    (hextra : ∀ a ∈ items, ∀ row ∈ extra, on (f a) row = false) :
    join on (items.map f) (extra ++ items.map g) = items.map fun a => (f a, g a) := by
  have hown : ∀ a ∈ items, (extra ++ items.map g).filter (on (f a)) = [g a] := by
    intro a ha
    have hnone : extra.filter (on (f a)) = [] :=
      List.filter_eq_nil_iff.mpr fun row hrow => by simp [hextra a ha row hrow]
    rw [List.filter_append, hnone, List.nil_append, List.filter_map,
      ← List.map_singleton, ← filter_key_eq hnodup ha]
    refine congrArg (List.map g) (List.filter_congr fun b hb => ?_)
    rw [Function.comp_apply, hon a ha b hb]
  calc join on (items.map f) (extra ++ items.map g)
      = items.flatMap fun a => ((extra ++ items.map g).filter (on (f a))).map (f a, ·) :=
        List.flatMap_map ..
    _ = items.flatMap fun a => [(f a, g a)] := List.flatMap_congr fun a ha => by
        rw [hown a ha, List.map_singleton]
    _ = items.map fun a => (f a, g a) := List.map_eq_flatMap.symm

end On

end Join

/-! ### Databases -/

/-- The tables that there are, with their rows. -/
abbrev Database (τ : Type) := τ → Option (List Row)

inductive Statement (τ : Type) where
  | createTable (table : τ)
  | insert (table : τ) (row : Row)
  | insertOrIgnore (table : τ) (row : Row)
  | beginTransaction
  | endTransaction
deriving DecidableEq, Repr

/-- What is in the file, and what an open transaction has made of it. -/
structure Connection (τ : Type) where
  stored : Database τ
  transaction : Option (Database τ)

section Run

variable {τ : Type} [DecidableEq τ] (unique : τ → Option Nat)

/-- One more row for a table, with the column that is unique in it. -/
def addRow (database : Database τ) (table : τ) (row : Row) : Option (Database τ) := do
  let rows ← database table
  let rows ← match unique table with
    | none => some (rows ++ [row])
    | some column => insert (fun row => row[column]?) rows row
  return Function.update database table (some rows)

def addRowOrIgnore (database : Database τ) (table : τ) (row : Row) : Option (Database τ) :=
  (database table).map fun rows =>
    match unique table with
    | none => Function.update database table (some (rows ++ [row]))
    | some column =>
        Function.update database table (some (insertOrIgnore (fun row => row[column]?) rows row))

namespace Connection

/-- A statement works on what the transaction has, or on the file itself. -/
def update (connection : Connection τ) (f : Database τ → Option (Database τ)) :
    Option (Connection τ) :=
  match connection.transaction with
  | none => (f connection.stored).map fun database => { connection with stored := database }
  | some database =>
      (f database).map fun database => { connection with transaction := some database }

/-- A statement is executed; `none` is an error, and nothing has changed then. -/
def execute (connection : Connection τ) : Statement τ → Option (Connection τ)
  | .createTable table => connection.update fun database =>
      if (database table).isSome then none else some (Function.update database table (some []))
  | .insert table row => connection.update fun database => addRow unique database table row
  | .insertOrIgnore table row =>
      connection.update fun database => addRowOrIgnore unique database table row
  | .beginTransaction =>
      match connection.transaction with
      | none => some { connection with transaction := some connection.stored }
      | some _ => none
  | .endTransaction =>
      match connection.transaction with
      | none => none
      | some database => some ⟨database, none⟩

end Connection

end Run


end Relational
