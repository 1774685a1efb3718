import Mathlib.Algebra.Order.Floor.Div
import Mathlib.Order.Interval.Finset.Nat
import Mathlib.Tactic.Ring

/-!
# Mapping and unmapping of whole pages

Memory is mapped and unmapped by lengths in bytes, and both work on whole pages.  What is left of
a mapping after a shorter length was unmapped are the pages behind it (`card_munmap_mmap`).  A
multiple of a length takes as many pages as the length only if both fit in one page
(`pages_mul_eq_iff`).
-/

namespace PageMap

/-- The size of a page. -/
structure PageSize where
  bytes : Nat
  pos : 0 < bytes

/-- The number of pages for a length. -/
def PageSize.pages (page : PageSize) (length : Nat) : Nat := length ⌈/⌉ page.bytes

/-- The pages that a length takes from page `first` on. -/
def region (page : PageSize) (first length : Nat) : Finset Nat :=
  Finset.Ico first (first + page.pages length)

/-- The pages that are mapped after a mapping was placed at page `first`, where nothing may be
    mapped before. -/
def mmap (page : PageSize) (mapped : Finset Nat) (first length : Nat) : Option (Finset Nat) :=
  if Disjoint mapped (region page first length) then some (mapped ∪ region page first length)
  else none

/-- The pages that are mapped after a length was unmapped from page `first` on. -/
def munmap (page : PageSize) (mapped : Finset Nat) (first length : Nat) : Finset Nat :=
  mapped \ region page first length

section

variable {page : PageSize} {mapped mapped' : Finset Nat} {first length short : Nat}

theorem pages_le_iff {count : Nat} : page.pages length ≤ count ↔ length ≤ page.bytes * count :=
  ceilDiv_le_iff_le_mul page.pos

theorem pages_mono (page : PageSize) (h : short ≤ length) :
    page.pages short ≤ page.pages length := by
  rw [pages_le_iff]
  exact h.trans (pages_le_iff.mp le_rfl)

theorem pages_pos (h : 0 < length) : 0 < page.pages length := by
  by_contra hzero
  have hle : length ≤ page.bytes * 0 := pages_le_iff.mp (by omega)
  omega

/-- A length takes one page at most if it is not longer than that. -/
theorem pages_le_one_iff : page.pages length ≤ 1 ↔ length ≤ page.bytes := by
  rw [pages_le_iff, Nat.mul_one]

/-- Rounding to whole pages hides the difference of a length and a multiple of it within the
    first page only. -/
theorem pages_mul_eq_iff {k n : Nat} (hk : 2 ≤ k) (hn : 0 < n) :
    page.pages (k * n) = page.pages n ↔ k * n ≤ page.bytes := by
  have hpos : 0 < page.pages n := pages_pos hn
  have hkn : n ≤ k * n := Nat.le_mul_of_pos_left n (by omega)
  constructor
  · intro heq
    rw [← pages_le_one_iff, heq]
    by_contra hmore
    -- all pages but the last are filled by `n` bytes, and twice as many are not enough for `k * n`
    have hlast : ¬ n ≤ page.bytes * (page.pages n - 1) := by
      rw [← pages_le_iff]
      omega
    have hfits : k * n ≤ page.bytes * page.pages n := pages_le_iff.mp heq.le
    have htwice : 2 * n ≤ k * n := Nat.mul_le_mul_right n hk
    have hhalf : page.bytes * page.pages n ≤ page.bytes * (2 * (page.pages n - 1)) :=
      Nat.mul_le_mul_left _ (by omega)
    have hdouble : page.bytes * (2 * (page.pages n - 1)) =
        2 * (page.bytes * (page.pages n - 1)) := by ring
    omega
  · intro hle
    have hone : page.pages (k * n) ≤ 1 := pages_le_one_iff.mpr hle
    have hmono : page.pages n ≤ page.pages (k * n) := pages_mono page hkn
    omega

theorem mmap_eq_some_iff :
    mmap page mapped first length = some mapped' ↔
      Disjoint mapped (region page first length) ∧ mapped' = mapped ∪ region page first length := by
  unfold mmap
  split
  · rename_i hfree
    simp [hfree, eq_comm]
  · rename_i hfree
    simp [hfree]

/-- Behind all mapped pages there is a free place. -/
theorem exists_free (page : PageSize) (mapped : Finset Nat) (length : Nat) :
    ∃ first, Disjoint mapped (region page first length) := by
  refine ⟨mapped.sup id + 1, Finset.disjoint_left.mpr ?_⟩
  intro used hused hregion
  have hle : used ≤ mapped.sup id := Finset.le_sup (f := id) hused
  simp only [region, Finset.mem_Ico] at hregion
  omega

theorem card_region : (region page first length).card = page.pages length := by
  rw [region, Nat.card_Ico, Nat.add_sub_cancel_left]

/-- A shorter length starts with the same pages. -/
theorem region_subset (h : short ≤ length) :
    region page first short ⊆ region page first length :=
  Finset.Ico_subset_Ico_right (by have := pages_mono page h; omega)

/-- What is left of a mapping after a shorter length was unmapped. -/
theorem card_munmap_mmap (hmmap : mmap page mapped first length = some mapped')
    (hshort : short ≤ length) :
    (munmap page mapped' first short).card =
      mapped.card + (page.pages length - page.pages short) := by
  rcases mmap_eq_some_iff.mp hmmap with ⟨hfree, rfl⟩
  have hsubset : region page first short ⊆ mapped ∪ region page first length :=
    (region_subset hshort).trans Finset.subset_union_right
  have hmono := pages_mono page hshort
  rw [munmap, Finset.card_sdiff_of_subset hsubset, Finset.card_union_of_disjoint hfree, card_region,
    card_region]
  omega

end

end PageMap
