import Mathlib.Data.List.Pairwise
import Mathlib.Order.Lattice

/-!
# Sweeping over nested ranges

The ranges of a family lie between two points of a linear order, and any two of them are
identical, disjoint, or nested, the outer one beginning strictly earlier (`Nested`).  If they
are sorted by where they begin, `unique` with an overlap test keeps the outermost ranges
(`exists_mem_unique`), and these lie behind one another (`pairwise_unique`).  Then a binary
search (`lowerBound`) finds the one that a point is in (`enclosing_eq_some_iff`).
-/

namespace NestedRanges

variable {ρ : Type}

/-! ### Two algorithms on lists -/

/-- The loop of `std::unique`, with the element that was kept last. -/
def uniqueFrom (same : ρ → ρ → Bool) (kept : ρ) : List ρ → List ρ
  | [] => [kept]
  | x :: xs => if same kept x then uniqueFrom same kept xs else kept :: uniqueFrom same x xs

/-- `std::unique`: an element is dropped if it is the same as the last one that was kept. -/
def unique (same : ρ → ρ → Bool) : List ρ → List ρ
  | [] => []
  | x :: xs => uniqueFrom same x xs

/-- The loop of `std::lower_bound`, on the `length` elements from `first` on. -/
def lowerBoundFrom (below : ρ → Bool) (xs : List ρ) (first length : Nat) : Nat :=
  if length = 0 then first
  else
    let half := length / 2
    if xs[first + half]?.any below then lowerBoundFrom below xs (first + half + 1) (length - half - 1)
    else lowerBoundFrom below xs first half
termination_by length

/-- `std::lower_bound`: the first element that is not below, by halving. -/
def lowerBound (below : ρ → Bool) (xs : List ρ) : Nat :=
  lowerBoundFrom below xs 0 xs.length

section LowerBound

variable {below : ρ → Bool} {xs : List ρ}

/-- The search keeps what it looks for in its window. -/
theorem lowerBoundFrom_eq {first length target : Nat} (hfirst : first ≤ target)
    (htarget : target ≤ first + length)
    (hbelow : ∀ i x, xs[i]? = some x → (below x = true ↔ i < target))
    (hlength : first + length ≤ xs.length) : lowerBoundFrom below xs first length = target := by
  fun_induction lowerBoundFrom below xs first length with
  | case1 first => omega
  | case2 first length hpos half hmiddle ih =>
      have hlt : first + half < xs.length := by omega
      rw [List.getElem?_eq_getElem hlt, Option.any_some,
        hbelow _ _ (List.getElem?_eq_getElem hlt)] at hmiddle
      exact ih (by omega) (by omega) (by omega)
  | case3 first length hpos half hmiddle ih =>
      have hlt : first + half < xs.length := by omega
      rw [List.getElem?_eq_getElem hlt, Option.any_some,
        hbelow _ _ (List.getElem?_eq_getElem hlt)] at hmiddle
      exact ih hfirst (by omega) (by omega)

/-- Where nothing below comes behind something that is not, the binary search finds the
    first element that is not below. -/
theorem lowerBound_eq_findIdx (h : xs.Pairwise fun x y => below y = true → below x = true) :
    lowerBound below xs = xs.findIdx fun x => !below x := by
  refine lowerBoundFrom_eq (Nat.zero_le _) (by rw [Nat.zero_add]; exact List.findIdx_le_length)
    ?_ (by omega)
  intro i x hx
  rcases List.getElem?_eq_some_iff.mp hx with ⟨hi, rfl⟩
  constructor
  · intro hbelow
    by_contra hle
    have hlt : xs.findIdx (fun x => !below x) < xs.length := by omega
    have hnot : below xs[xs.findIdx fun x => !below x] = false := by
      simpa using @List.findIdx_getElem _ (fun x => !below x) xs hlt
    rcases Nat.lt_or_eq_of_le (Nat.le_of_not_lt hle) with hbefore | heq
    · rw [List.pairwise_iff_getElem.mp h _ _ hlt hi hbefore hbelow] at hnot
      cases hnot
    · simp only [heq, hbelow] at hnot
      cases hnot
  · intro hlt
    simpa using List.not_of_lt_findIdx hlt

theorem getElem?_lowerBound (h : xs.Pairwise fun x y => below y = true → below x = true) :
    xs[lowerBound below xs]? = xs.find? fun x => !below x := by
  rw [lowerBound_eq_findIdx h, List.find?_eq_getElem?_findIdx]

end LowerBound

/-! ### Families of ranges -/

section Ranges

variable {L : Type} [LinearOrder L] (first last : ρ → L)

/-- The second range begins before the first one ends. -/
def overlap (r r' : ρ) : Bool := !decide (last r < first r')

/-- `r` is around `r'`, and begins earlier. -/
def Around (r r' : ρ) : Prop := first r < first r' ∧ last r' ≤ last r

/-- Any two ranges are identical, disjoint, or nested. -/
def Nested (r r' : ρ) : Prop :=
  (first r = first r' ∧ last r = last r') ∨ last r < first r' ∨ last r' < first r ∨
    Around first last r r' ∨ Around first last r' r

/-- The point is in the range, and not at its ends. -/
def Inside (r : ρ) (x : L) : Prop := first r < x ∧ x < last r

instance (r r' : ρ) : Decidable (Around first last r r') :=
  inferInstanceAs (Decidable (first r < first r' ∧ last r' ≤ last r))

instance (r r' : ρ) : Decidable (Nested first last r r') :=
  inferInstanceAs (Decidable (_ ∨ _ ∨ _ ∨ Around first last r r' ∨ Around first last r' r))

variable {first last} {xs : List ρ}

theorem nested_symm {r r' : ρ} (h : Nested first last r r') : Nested first last r' r := by
  rcases h with ⟨hfirst, hlast⟩ | hbefore | hbehind | haround | haround
  · exact .inl ⟨hfirst.symm, hlast.symm⟩
  · exact .inr (.inr (.inl hbefore))
  · exact .inr (.inl hbehind)
  · exact .inr (.inr (.inr (.inr haround)))
  · exact .inr (.inr (.inr (.inl haround)))

/-- A later range that overlaps an earlier one is part of it. -/
theorem last_le_of_overlap {r r' : ρ} (hrange : first r' ≤ last r') (hle : first r ≤ first r')
    (hnested : Nested first last r r') (hoverlap : overlap first last r r' = true) :
    last r' ≤ last r := by
  have hnot : first r' ≤ last r := by simpa [overlap] using hoverlap
  rcases hnested with ⟨-, hlast⟩ | hbefore | hbehind | haround | haround
  · exact hlast.ge
  · exact absurd hbefore (not_lt_of_ge hnot)
  · exact absurd (hrange.trans_lt hbehind) (not_lt_of_ge hle)
  · exact haround.2
  · exact absurd haround.1 (not_lt_of_ge hle)

theorem mem_of_mem_uniqueFrom {same : ρ → ρ → Bool} {kept r : ρ}
    (h : r ∈ uniqueFrom same kept xs) : r = kept ∨ r ∈ xs := by
  induction xs generalizing kept with
  | nil => exact .inl (List.mem_singleton.mp h)
  | cons x xs ih =>
      rw [uniqueFrom] at h
      split at h
      · exact (ih h).imp id (List.mem_cons_of_mem _)
      · rcases List.mem_cons.mp h with rfl | h
        · exact .inl rfl
        · exact .inr (List.mem_cons.mpr (ih h))

theorem mem_of_mem_unique {same : ρ → ρ → Bool} {r : ρ} (h : r ∈ unique same xs) : r ∈ xs := by
  cases xs with
  | nil => cases h
  | cons x xs => exact List.mem_cons.mpr (mem_of_mem_uniqueFrom h)

/-- What is kept lies behind one another. -/
theorem pairwise_uniqueFrom {kept : ρ} (hrange : ∀ r ∈ kept :: xs, first r ≤ last r)
    (hsorted : (kept :: xs).Pairwise fun r r' => first r ≤ first r') :
    (uniqueFrom (overlap first last) kept xs).Pairwise fun r r' => last r < first r' := by
  induction xs generalizing kept with
  | nil => exact List.pairwise_singleton _ _
  | cons x xs ih =>
      rw [uniqueFrom]
      split
      · refine ih (fun r hr => hrange r ?_) (hsorted.sublist ?_)
        · rcases List.mem_cons.mp hr with rfl | hr
          · exact List.mem_cons_self
          · exact List.mem_cons_of_mem _ (List.mem_cons_of_mem _ hr)
        · exact (List.sublist_cons_self x xs).cons_cons kept
      · rename_i hoverlap
        have hlt : last kept < first x := by simpa [overlap] using hoverlap
        refine List.pairwise_cons.mpr ⟨fun r hr => ?_, ?_⟩
        · rcases mem_of_mem_uniqueFrom hr with rfl | hr
          · exact hlt
          · exact hlt.trans_le ((List.pairwise_cons.mp (List.pairwise_cons.mp hsorted).2).1 r hr)
        · exact ih (fun r hr => hrange r (List.mem_cons_of_mem _ hr)) (List.pairwise_cons.mp hsorted).2

/-- Every range is part of one that is kept. -/
theorem exists_mem_uniqueFrom {kept : ρ} (hrange : ∀ r ∈ kept :: xs, first r ≤ last r)
    (hsorted : (kept :: xs).Pairwise fun r r' => first r ≤ first r')
    (hnested : (kept :: xs).Pairwise (Nested first last)) {r : ρ} (hr : r ∈ kept :: xs) :
    ∃ r' ∈ uniqueFrom (overlap first last) kept xs, first r' ≤ first r ∧ last r ≤ last r' := by
  induction xs generalizing kept r with
  | nil =>
      obtain rfl := List.mem_singleton.mp hr
      exact ⟨r, List.mem_singleton_self r, le_rfl, le_rfl⟩
  | cons x xs ih =>
      rw [List.pairwise_cons] at hsorted hnested
      rw [List.forall_mem_cons] at hrange
      rw [uniqueFrom]
      split
      · rename_i hoverlap
        -- the dropped range is part of the one that was kept
        have hskip := @ih kept (List.forall_mem_cons.mpr ⟨hrange.1, (List.forall_mem_cons.mp hrange.2).2⟩)
          (List.pairwise_cons.mpr ⟨fun r hr => hsorted.1 r (List.mem_cons_of_mem _ hr),
            (List.pairwise_cons.mp hsorted.2).2⟩)
          (List.pairwise_cons.mpr ⟨fun r hr => hnested.1 r (List.mem_cons_of_mem _ hr),
            (List.pairwise_cons.mp hnested.2).2⟩)
        rcases List.mem_cons.mp hr with rfl | hr
        · exact hskip List.mem_cons_self
        rcases List.mem_cons.mp hr with rfl | hr
        · rcases hskip List.mem_cons_self with ⟨r', hr', hfirst, hlast⟩
          have hle := hsorted.1 r List.mem_cons_self
          exact ⟨r', hr', hfirst.trans hle, (last_le_of_overlap (hrange.2 r List.mem_cons_self) hle
            (hnested.1 r List.mem_cons_self) hoverlap).trans hlast⟩
        · exact hskip (List.mem_cons_of_mem _ hr)
      · rcases List.mem_cons.mp hr with rfl | hr
        · exact ⟨r, List.mem_cons_self, le_rfl, le_rfl⟩
        · rcases ih hrange.2 hsorted.2 hnested.2 hr with ⟨r', hr', hpart⟩
          exact ⟨r', List.mem_cons_of_mem _ hr', hpart⟩

/-! ### The ranges that are kept -/

section Unique

variable (hrange : ∀ r ∈ xs, first r ≤ last r) (hsorted : xs.Pairwise fun r r' => first r ≤ first r')

include hrange hsorted

theorem pairwise_unique :
    (unique (overlap first last) xs).Pairwise fun r r' => last r < first r' := by
  cases xs with
  | nil => exact List.Pairwise.nil
  | cons x xs => exact pairwise_uniqueFrom hrange hsorted

theorem exists_mem_unique (hnested : xs.Pairwise (Nested first last)) {r : ρ} (hr : r ∈ xs) :
    ∃ r' ∈ unique (overlap first last) xs, first r' ≤ first r ∧ last r ≤ last r' := by
  cases xs with
  | nil => cases hr
  | cons x xs => exact exists_mem_uniqueFrom hrange hsorted hnested hr

end Unique

/-! ### The range around a point -/

/-- The first range that does not end before the point, if the point is inside. -/
def enclosing (first last : ρ → L) (xs : List ρ) (x : L) : Option ρ :=
  xs[lowerBound (fun r => decide (last r < x)) xs]?.filter fun r =>
    decide (first r < x) && decide (x < last r)

theorem enclosing_eq_find? (hrange : ∀ r ∈ xs, first r ≤ last r)
    (hbehind : xs.Pairwise fun r r' => last r < first r') (x : L) :
    enclosing first last xs x = (xs.find? fun r => !decide (last r < x)).filter fun r =>
      decide (first r < x) && decide (x < last r) := by
  rw [enclosing, getElem?_lowerBound]
  refine hbehind.imp_of_mem fun {r r'} _ hr' hlt hbelow => ?_
  rw [decide_eq_true_eq] at hbelow ⊢
  exact (hlt.trans_le (hrange r' hr')).trans hbelow

theorem disjoint_of_ne (hbehind : xs.Pairwise fun r r' => last r < first r') {r r' : ρ}
    (hr : r ∈ xs) (hr' : r' ∈ xs) (hne : r ≠ r') : last r < first r' ∨ last r' < first r := by
  have : Std.Symm fun r r' : ρ => last r < first r' ∨ last r' < first r := ⟨fun _ _ => Or.symm⟩
  have hpairwise : xs.Pairwise fun r r' => last r < first r' ∨ last r' < first r :=
    hbehind.imp Or.inl
  exact hpairwise.forall hr hr' hne

/-- Of ranges behind one another the search finds the one that the point is inside. -/
theorem enclosing_eq_some_iff (hrange : ∀ r ∈ xs, first r ≤ last r)
    (hbehind : xs.Pairwise fun r r' => last r < first r') {x : L} {r : ρ} :
    enclosing first last xs x = some r ↔ r ∈ xs ∧ Inside first last r x := by
  rw [enclosing_eq_find? hrange hbehind, Option.filter_eq_some_iff, Bool.and_eq_true,
    decide_eq_true_eq, decide_eq_true_eq]
  constructor
  · rintro ⟨hfind, hinside⟩
    exact ⟨List.mem_of_find?_eq_some hfind, hinside⟩
  · rintro ⟨hmem, hinside⟩
    refine ⟨?_, hinside⟩
    rcases List.append_of_mem hmem with ⟨before, behind, rfl⟩
    refine List.find?_eq_some_iff_append.mpr ⟨by simpa using hinside.2.le, before, behind, rfl, ?_⟩
    intro r' hr'
    have hlt := (List.pairwise_append.mp hbehind).2.2 r' hr' r List.mem_cons_self
    simpa using hlt.trans hinside.1

/-- **The sweep and the search find the outermost range around a point.** -/
theorem enclosing_unique (hrange : ∀ r ∈ xs, first r ≤ last r)
    (hsorted : xs.Pairwise fun r r' => first r ≤ first r') (hnested : xs.Pairwise (Nested first last))
    (x : L) :
    ((enclosing first last (unique (overlap first last) xs) x).isSome ↔
      ∃ r ∈ xs, Inside first last r x) ∧
    ∀ r, enclosing first last (unique (overlap first last) xs) x = some r →
      r ∈ xs ∧ Inside first last r x ∧
        ∀ r' ∈ xs, first r' ≤ x → x ≤ last r' → first r ≤ first r' ∧ last r' ≤ last r := by
  have hbehind := pairwise_unique hrange hsorted
  have hkept : ∀ r ∈ unique (overlap first last) xs, first r ≤ last r := fun r hr =>
    hrange r (mem_of_mem_unique hr)
  constructor
  · rw [Option.isSome_iff_exists]
    constructor
    · rintro ⟨r, hr⟩
      rcases (enclosing_eq_some_iff hkept hbehind).mp hr with ⟨hmem, hinside⟩
      exact ⟨r, mem_of_mem_unique hmem, hinside⟩
    · rintro ⟨r, hr, hinside⟩
      rcases exists_mem_unique hrange hsorted hnested hr with ⟨r', hr', hfirst, hlast⟩
      exact ⟨r', (enclosing_eq_some_iff hkept hbehind).mpr
        ⟨hr', hfirst.trans_lt hinside.1, hinside.2.trans_le hlast⟩⟩
  · intro r hr
    rcases (enclosing_eq_some_iff hkept hbehind).mp hr with ⟨hmem, hinside⟩
    refine ⟨mem_of_mem_unique hmem, hinside, ?_⟩
    intro r' hr' hfirst hlast
    rcases exists_mem_unique hrange hsorted hnested hr' with ⟨r'', hr'', hfirst', hlast'⟩
    -- two kept ranges around one point are the same
    have hsame : r'' = r := by
      by_contra hne
      rcases disjoint_of_ne hbehind hr'' hmem hne with hlt | hlt
      · exact absurd (hlast.trans hlast') (not_le_of_gt (hlt.trans hinside.1))
      · exact absurd (hfirst'.trans hfirst) (not_le_of_gt (hinside.2.trans hlt))
    rw [← hsame]
    exact ⟨hfirst', hlast'⟩

end Ranges

end NestedRanges
