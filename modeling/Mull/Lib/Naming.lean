import Mathlib.Data.List.Perm.Subperm
import Mathlib.Data.List.Nodup
import Mathlib.Data.List.Range

/-!
# Names made of parts

A name that is put together from parts can be taken apart again if the parts are
separated by something that the last of them does not contain.  The parts that are
numbers have only digits, and different numbers have different digits.

Of more than `n` different names one is not among `n` given ones.
-/

namespace Naming

variable {α β : Type}

/-! ### Separators -/

/-- The last element with property `p` separates a list in one way only. -/
theorem split_at_last {p : α → Prop} {a a' : α} {xs xs' ys ys' : List α} (ha : p a) (ha' : p a')
    (hys : ∀ y ∈ ys, ¬ p y) (hys' : ∀ y ∈ ys', ¬ p y)
    (h : xs ++ a :: ys = xs' ++ a' :: ys') : xs = xs' ∧ a = a' ∧ ys = ys' := by
  -- one of the two beginnings goes on with `zs`; if `zs` is not empty, the other
  -- separator stands behind the last one
  rcases List.append_eq_append_iff.mp h with ⟨zs, rfl, hzs⟩ | ⟨zs, rfl, hzs⟩
  · cases zs with
    | nil => simpa using hzs
    | cons z zs =>
        obtain ⟨-, rfl⟩ := List.cons.inj hzs
        exact absurd ha' (hys a' (by simp))
  · cases zs with
    | nil =>
        obtain ⟨rfl, rfl⟩ : a' = a ∧ ys' = ys := by simpa using hzs
        simp
    | cons z zs =>
        obtain ⟨-, rfl⟩ := List.cons.inj hzs
        exact absurd ha (hys' a (by simp))

theorem split_at_last_eq {c : α} {xs xs' ys ys' : List α} (hys : c ∉ ys)
    (hys' : c ∉ ys') (h : xs ++ c :: ys = xs' ++ c :: ys') : xs = xs' ∧ ys = ys' := by
  obtain ⟨hxs, -, heq⟩ := @split_at_last α (· = c) c c xs xs' ys ys' rfl rfl
    (fun y hy hc => hys (hc ▸ hy)) (fun y hy hc => hys' (hc ▸ hy)) h
  exact ⟨hxs, heq⟩

/-- An ending without property `p` comes after every element with that property. -/
theorem suffix_of_separator {p : α → Prop} {a : α} {xs ys ws zs : List α} (ha : p a)
    (hzs : ∀ z ∈ zs, ¬ p z) (h : xs ++ a :: ys = ws ++ zs) : zs <:+ ys := by
  rcases List.append_eq_append_iff.mp h with ⟨rest, -, hrest⟩ | ⟨rest, -, hrest⟩
  · cases rest with
    | nil =>
        rw [List.nil_append] at hrest
        exact absurd ha (hzs a (hrest ▸ by simp))
    | cons b rest => exact ⟨rest, (List.cons.inj hrest).2.symm⟩
  · exact absurd ha (hzs a (hrest ▸ by simp))

/-- The first element `c` separates a list in one way only. -/
theorem split_at_first_eq {c : α} {xs xs' ys ys' : List α} (hxs : c ∉ xs) (hxs' : c ∉ xs')
    (h : xs ++ c :: ys = xs' ++ c :: ys') : xs = xs' ∧ ys = ys' := by
  rcases List.append_eq_append_iff.mp h with ⟨zs, rfl, hzs⟩ | ⟨zs, rfl, hzs⟩
  · cases zs with
    | nil => simpa using hzs
    | cons z zs =>
        obtain ⟨rfl, -⟩ := List.cons.inj hzs
        exact absurd (by simp) hxs'
  · cases zs with
    | nil => simpa using hzs.symm
    | cons z zs =>
        obtain ⟨rfl, -⟩ := List.cons.inj hzs
        exact absurd (by simp) hxs

theorem takeWhile_append_cons {p : α → Bool} {a : α} (ha : p a = false) (xs ys : List α) :
    (xs ++ a :: ys).takeWhile p = xs.takeWhile p := by
  induction xs with
  | nil => simp [ha]
  | cons x xs ih =>
      rw [List.cons_append, List.takeWhile_cons, List.takeWhile_cons, ih]

/-- A text that comes again after something without marks, with a mark behind it both
    times, comes again at once. -/
theorem eq_nil_of_shift {p : α → Bool} {a a' : α} {xs ys ys' zs : List α} (ha : p a = false)
    (ha' : p a' = false) (hzs : ∀ z ∈ zs, p z = true)
    (h : xs ++ a :: ys = zs ++ (xs ++ a' :: ys')) : zs = [] := by
  have hlength := congrArg (fun l => (l.takeWhile p).length) h
  rw [takeWhile_append_cons ha, List.takeWhile_append_of_pos hzs, takeWhile_append_cons ha',
    List.length_append] at hlength
  exact List.length_eq_zero_iff.mp (by omega)

/-! ### Numbers -/

theorem toString_toList (n : Nat) : (toString n).toList = Nat.toDigits 10 n := by
  rw [Nat.toString_eq_repr, Nat.toList_repr]

theorem isDigit_of_mem_toString {n : Nat} {c : Char} (h : c ∈ (toString n).toList) :
    c.isDigit := by
  rw [toString_toList] at h
  exact Nat.isDigit_of_mem_toDigits (by decide) (by decide) h

theorem toString_toList_inj {i j : Nat} (h : (toString i).toList = (toString j).toList) :
    i = j := by
  rw [toString_toList, toString_toList] at h
  simpa using congrArg (fun digits => Nat.ofDigitChars 10 digits 0) h

/-- A number ends with a digit. -/
theorem toString_eq_append (n : Nat) :
    ∃ digits digit, (toString n).toList = digits ++ [digit] ∧ digit.isDigit := by
  have hne : (toString n).toList ≠ [] := by
    rw [toString_toList]
    exact Nat.toDigits_ne_nil
  refine ⟨_, _, (List.dropLast_append_getLast hne).symm, ?_⟩
  exact isDigit_of_mem_toString (List.getLast_mem hne)

/-! ### Names with their lengths -/

/-- A name behind its length. -/
def withLength (name : List Char) : List Char := (toString name.length).toList ++ name

/-- A name that does not go on with the digits before it. -/
def NoNumber (name : List Char) : Prop := ∃ c rest, name = c :: rest ∧ c.isDigit = false

theorem takeWhile_isDigit_withLength {name : List Char} (h : NoNumber name) (rest : List Char) :
    (withLength name ++ rest).takeWhile Char.isDigit = (toString name.length).toList := by
  obtain ⟨c, tail, hname, hc⟩ := h
  have hdigits : ∀ digit ∈ (toString name.length).toList, digit.isDigit = true :=
    fun digit hdigit => isDigit_of_mem_toString hdigit
  rw [withLength, List.append_assoc, List.takeWhile_append_of_pos hdigits, hname,
    List.cons_append, List.takeWhile_cons_of_neg (by simp [hc]), List.append_nil]

theorem withLength_append_inj {name name' rest rest' : List Char} (h : NoNumber name)
    (h' : NoNumber name') (heq : withLength name ++ rest = withLength name' ++ rest') :
    name = name' ∧ rest = rest' := by
  have hdigits := congrArg (List.takeWhile Char.isDigit) heq
  rw [takeWhile_isDigit_withLength h, takeWhile_isDigit_withLength h'] at hdigits
  have hlength := toString_toList_inj hdigits
  rw [withLength, withLength, hlength, List.append_assoc, List.append_assoc] at heq
  exact List.append_inj (List.append_cancel_left heq) hlength

theorem exists_withLength_eq_cons (name : List Char) :
    ∃ digit rest, withLength name = digit :: rest ∧ digit.isDigit := by
  obtain ⟨digit, rest, hcons⟩ := List.exists_cons_of_ne_nil
    (show (toString name.length).toList ≠ [] by simp)
  exact ⟨digit, rest ++ name, by rw [withLength, hcons, List.cons_append],
    isDigit_of_mem_toString (hcons ▸ List.mem_cons_self)⟩

/-- Names with their lengths are read one after another, up to something that is no digit. -/
theorem flatMap_withLength_inj {names names' : List (List Char)} {c c' : Char}
    {rest rest' : List Char} (hnames : ∀ name ∈ names, NoNumber name)
    (hnames' : ∀ name ∈ names', NoNumber name) (hc : c.isDigit = false) (hc' : c'.isDigit = false)
    (heq : names.flatMap withLength ++ c :: rest = names'.flatMap withLength ++ c' :: rest') :
    names = names' := by
  induction names generalizing names' with
  | nil =>
      cases names' with
      | nil => rfl
      | cons name' names' =>
          obtain ⟨digit, tail, hcons, hdigit⟩ := exists_withLength_eq_cons name'
          rw [List.flatMap_cons, hcons] at heq
          obtain ⟨rfl, -⟩ := List.cons.inj heq
          rw [hc] at hdigit
          cases hdigit
  | cons name names ih =>
      cases names' with
      | nil =>
          obtain ⟨digit, tail, hcons, hdigit⟩ := exists_withLength_eq_cons name
          rw [List.flatMap_cons, hcons] at heq
          obtain ⟨rfl, -⟩ := List.cons.inj heq
          rw [hc'] at hdigit
          cases hdigit
      | cons name' names' =>
          rw [List.flatMap_cons, List.flatMap_cons, List.append_assoc, List.append_assoc] at heq
          obtain ⟨rfl, hrest⟩ := withLength_append_inj (hnames name List.mem_cons_self)
            (hnames' name' List.mem_cons_self) heq
          rw [ih (fun name hname => hnames name (List.mem_cons_of_mem _ hname))
            (fun name hname => hnames' name (List.mem_cons_of_mem _ hname)) hrest]

/-! ### New names -/

/-- Of `n + 1` names one is not among `n` names. -/
theorem exists_not_mem {f : Nat → β} (hf : Function.Injective f) (taken : List β) :
    ∃ k ∈ List.range (taken.length + 1), f k ∉ taken := by
  by_contra hall
  push Not at hall
  have hsubset : (List.range (taken.length + 1)).map f ⊆ taken := by
    intro name hname
    obtain ⟨k, hk, rfl⟩ := List.mem_map.mp hname
    exact hall k hk
  have hle := (List.subperm_of_subset (List.nodup_range.map hf) hsubset).length_le
  rw [List.length_map, List.length_range] at hle
  omega

/-! ### Tables -/

section Tables

variable {γ : Type} [BEq β] [LawfulBEq β] {f : α → β} {g : α → γ} {l : List α}

/-- Entries with different names are found by their names. -/
theorem lookup_map_of_mem (hf : ∀ a ∈ l, ∀ b ∈ l, f a = f b → a = b) {a : α} (ha : a ∈ l) :
    (l.map fun a => (f a, g a)).lookup (f a) = some (g a) := by
  induction l with
  | nil => cases ha
  | cons b l ih =>
      rw [List.map_cons, List.lookup_cons]
      by_cases heq : f a = f b
      · rw [heq, beq_self_eq_true, hf a ha b List.mem_cons_self heq]
      · have hmem : a ∈ l := by
          rcases List.mem_cons.mp ha with rfl | hmem
          · exact absurd rfl heq
          · exact hmem
        rw [beq_eq_false_iff_ne.mpr heq]
        exact ih (fun c hc d hd => hf c (List.mem_cons_of_mem _ hc) d (List.mem_cons_of_mem _ hd)) hmem

theorem lookup_map_eq_none {x : β} (hx : ∀ a ∈ l, f a ≠ x) :
    (l.map fun a => (f a, g a)).lookup x = none := by
  refine List.lookup_eq_none_iff.mpr fun entry hentry => ?_
  obtain ⟨a, ha, rfl⟩ := List.mem_map.mp hentry
  exact bne_iff_ne.mpr (hx a ha).symm

end Tables

end Naming
