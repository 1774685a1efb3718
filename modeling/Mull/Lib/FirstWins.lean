import Mathlib.Logic.Function.Basic

/-!
# Tables in which the first entry stays

A table is filled with the items of a list, one after another.  An item has a key, which
can be undefined, and then nothing more is filled in; an item whose key is in the table
already changes nothing.  So in the end every key holds the value of the first item with
that key (`fill_eq`), and which items have other keys does not matter.

A table that is addressed by a number made of what an item is about answers by what it is
about as long as the numbers tell the items apart (`find?_key_eq`).
-/

namespace FirstWins

variable {ε κ ν : Type} [DecidableEq κ]

/-- The value is put in, if there is none yet. -/
def insert (table : κ → Option ν) (key : κ) (value : ν) : κ → Option ν :=
  Function.update table key (some ((table key).getD value))

/-- Filling in the items of a list; `none` if one of them has no key. -/
def fill (key : ε → Option κ) (value : ε → ν) (table : κ → Option ν) (items : List ε) :
    Option (κ → Option ν) :=
  items.foldlM (fun table item => (key item).map fun k => insert table k (value item)) table

/-- The value of the first item with a key. -/
def first (key : ε → Option κ) (value : ε → ν) (items : List ε) (k : κ) : Option ν :=
  (items.find? fun item => decide (key item = some k)).map value

theorem insert_apply (table : κ → Option ν) (key : κ) (value : ν) (k : κ) :
    insert table key value k = (table k).or (if key = k then some value else none) := by
  by_cases hkey : key = k
  · subst hkey
    rw [insert, Function.update_self, if_pos rfl]
    cases table key <;> rfl
  · rw [insert, Function.update_of_ne (Ne.symm hkey), if_neg hkey, Option.or_none]

variable {key : ε → Option κ} {value : ε → ν}

theorem first_cons (item : ε) (items : List ε) (k : κ) :
    first key value (item :: items) k =
      (if key item = some k then some (value item) else none).or (first key value items k) := by
  unfold first
  by_cases hkey : key item = some k
  · rw [List.find?_cons_of_pos (by simpa using hkey), if_pos hkey]
    rfl
  · rw [List.find?_cons_of_neg (by simpa using hkey), if_neg hkey, Option.none_or]

theorem exists_of_first_eq_some {items : List ε} {k : κ} {v : ν}
    (h : first key value items k = some v) : ∃ item ∈ items, key item = some k ∧ value item = v := by
  obtain ⟨item, hfind, hvalue⟩ := Option.map_eq_some_iff.mp h
  exact ⟨item, List.mem_of_find?_eq_some hfind, by simpa using List.find?_some hfind, hvalue⟩

/-- A key of an item has a value. -/
theorem first_isSome {items : List ε} {item : ε} {k : κ} (hmem : item ∈ items)
    (hkey : key item = some k) : (first key value items k).isSome := by
  rw [first, Option.isSome_map, List.find?_isSome]
  exact ⟨item, hmem, by simpa using hkey⟩

/-- **Every key holds the value of its first item,** unless the table had one before. -/
theorem fill_eq (table : κ → Option ν) {items : List ε} (h : ∀ item ∈ items, (key item).isSome) :
    fill key value table items = some fun k => (table k).or (first key value items k) := by
  induction items generalizing table with
  | nil =>
      refine congrArg some ?_
      funext k
      exact (Option.or_none).symm
  | cons item items ih =>
      obtain ⟨k, hk⟩ := Option.isSome_iff_exists.mp (h item List.mem_cons_self)
      have hrest := ih (insert table k (value item)) fun other hother =>
        h other (List.mem_cons_of_mem _ hother)
      rw [fill, List.foldlM_cons, hk]
      refine hrest.trans (congrArg some ?_)
      funext k'
      rw [insert_apply, first_cons, Option.or_assoc, hk]
      simp only [Option.some.injEq]

/-- Everything is filled in if and only if all items have a key. -/
theorem fill_isSome_iff (table : κ → Option ν) (items : List ε) :
    (fill key value table items).isSome ↔ ∀ item ∈ items, (key item).isSome := by
  constructor
  · intro hfill
    induction items generalizing table with
    | nil => exact fun item hitem => absurd hitem List.not_mem_nil
    | cons item items ih =>
        rw [fill, List.foldlM_cons] at hfill
        cases hk : key item with
        | none => simp [hk] at hfill
        | some k =>
            rw [hk] at hfill
            intro other hother
            rcases List.mem_cons.mp hother with rfl | hother
            · rw [hk]
              rfl
            · exact ih _ hfill other hother
  · intro h
    rw [fill_eq table h]
    rfl

/-- Only the items that could have the key matter. -/
theorem first_filter (p : ε → Bool) {items : List ε} {k : κ}
    (h : ∀ item ∈ items, key item = some k → p item = true) :
    first key value (items.filter p) k = first key value items k := by
  unfold first
  rw [List.find?_filter]
  congr 1
  induction items with
  | nil => rfl
  | cons item items ih =>
      have hrest := ih fun other hother => h other (List.mem_cons_of_mem _ hother)
      by_cases hkey : key item = some k
      · rw [List.find?_cons_of_pos (by simp [hkey, h item List.mem_cons_self hkey]),
          List.find?_cons_of_pos (by simpa using hkey)]
      · rw [List.find?_cons_of_neg (by simp [hkey]), List.find?_cons_of_neg (by simpa using hkey),
          hrest]

/-- If the keys tell apart what the items are about, the first item with the key is the
    first one about the same. -/
theorem find?_key_eq {ι : Type} [DecidableEq ι] {about : ε → ι} {items : List ε} {i : ι} {k : κ}
    (h : ∀ item ∈ items, key item = some k ↔ about item = i) :
    (items.find? fun item => decide (key item = some k)) =
      items.find? fun item => decide (about item = i) := by
  induction items with
  | nil => rfl
  | cons item items ih =>
      rw [List.find?_cons, List.find?_cons, ih fun other hother => h other (List.mem_cons_of_mem _ hother),
        decide_eq_decide.mpr (h item List.mem_cons_self)]

end FirstWins
