import Mathlib

/-!
# Floating-point numbers as rational numbers

The operations on `Float` are defined on mantissas and exponents.  Here they are what IEEE 754
says: a quotient or a product is the exact one, rounded to 53 bits, a tie to the even mantissa
(`Holds.div`, `Holds.mul`).  Only positive normal numbers are considered.  What follows from
that needs the rounding only: it is monotone (`rounded_mono`), keeps what has 53 bits
(`rounded_natCast`), and is off by a factor of `2 ^ (-53)` at most (`rounded_le`, `le_rounded`).
-/

namespace Binary64

open Float.Model UnpackedFloat

/-! ### Rounding to an integer -/

/-- The nearest integer, the even one of two, for a number that is not negative. -/
def nearestEven (x : ℚ) : ℕ :=
  if Int.fract x < 1 / 2 then ⌊x⌋₊
  else if Int.fract x = 1 / 2 then ⌊x⌋₊ + ⌊x⌋₊ % 2
  else ⌊x⌋₊ + 1

theorem nearestEven_natCast (n : ℕ) : nearestEven n = n := by
  simp [nearestEven]

theorem nearestEven_bounds {x : ℚ} (hx : 0 ≤ x) :
    x - 1 / 2 ≤ nearestEven x ∧ (nearestEven x : ℚ) ≤ x + 1 / 2 := by
  have hfloor : (⌊x⌋₊ : ℚ) = x - Int.fract x := by
    rw [natCast_floor_eq_intCast_floor hx, Int.self_sub_fract]
  have hnonneg := Int.fract_nonneg x
  have hlt := Int.fract_lt_one x
  unfold nearestEven
  split
  · rw [hfloor]
    constructor <;> linarith
  · split
    · have hmod : ⌊x⌋₊ % 2 ≤ 1 := by omega
      have hmod' : ((⌊x⌋₊ % 2 : ℕ) : ℚ) ≤ 1 := by exact_mod_cast hmod
      have hmod₀ : (0 : ℚ) ≤ ((⌊x⌋₊ % 2 : ℕ) : ℚ) := Nat.cast_nonneg _
      rw [Nat.cast_add, hfloor]
      constructor <;> linarith
    · have hhalf : 1 / 2 ≤ Int.fract x := by
        by_contra hless
        exact absurd (not_le.mp hless) ‹_›
      rw [Nat.cast_add, Nat.cast_one, hfloor]
      constructor <;> linarith

theorem nearestEven_mono {x y : ℚ} (hx : 0 ≤ x) (h : x ≤ y) : nearestEven x ≤ nearestEven y := by
  have hy := hx.trans h
  rcases (Nat.floor_mono h).lt_or_eq with hlt | heq
  · -- there is an integer in between
    have hmiddle : x < ⌊y⌋₊ := by
      have hsucc : (⌊x⌋₊ : ℚ) + 1 ≤ ⌊y⌋₊ := by exact_mod_cast hlt
      exact (Nat.lt_floor_add_one x).trans_le hsucc
    have hle : nearestEven x ≤ ⌊x⌋₊ + 1 := by
      unfold nearestEven
      split
      · omega
      · split <;> omega
    have hge : ⌊y⌋₊ ≤ nearestEven y := by
      unfold nearestEven
      split
      · exact Nat.le_refl _
      · split <;> omega
    exact hle.trans ((Nat.succ_le_of_lt hlt).trans hge)
  · have hfract : Int.fract x ≤ Int.fract y := by
      have hfloor : (⌊x⌋ : ℚ) = ⌊y⌋ := by
        rw [← natCast_floor_eq_intCast_floor hx, ← natCast_floor_eq_intCast_floor hy, heq]
      rw [← Int.self_sub_floor, ← Int.self_sub_floor, hfloor]
      linarith
    unfold nearestEven
    rw [heq]
    split
    · split
      · exact Nat.le_refl _
      · split <;> omega
    · rename_i hhalf
      rw [if_neg (fun hless => hhalf (hfract.trans_lt hless))]
      split
      · split <;> omega
      · rename_i hne
        rw [if_neg]
        intro heq'
        exact hne (le_antisymm (hfract.trans heq'.le) (not_lt.mp hhalf))

theorem nearestEven_between {x : ℚ} {a b : ℕ} (ha : (a : ℚ) ≤ x) (hb : x ≤ b) :
    a ≤ nearestEven x ∧ nearestEven x ≤ b := by
  have hx : 0 ≤ x := (Nat.cast_nonneg a).trans ha
  constructor
  · exact (nearestEven_natCast a).symm.trans_le (nearestEven_mono (Nat.cast_nonneg a) ha)
  · exact (nearestEven_mono hx hb).trans_eq (nearestEven_natCast b)

/-! ### Rounding to 53 bits -/

/-- The exponent with which a positive number has a mantissa of 53 bits. -/
def exponent (x : ℚ) : ℤ := Int.log 2 x - 52

def rounded (x : ℚ) : ℚ := nearestEven (x / 2 ^ exponent x) * 2 ^ exponent x

section Rounded

variable {x y : ℚ} (hx : 0 < x)

theorem two_zpow_pos (e : ℤ) : (0 : ℚ) < 2 ^ e := zpow_pos two_pos e

theorem zpow_exponent_add (x : ℚ) (k : ℤ) : (2 : ℚ) ^ (exponent x + k) = 2 ^ exponent x * 2 ^ k :=
  zpow_add₀ two_ne_zero _ _

include hx

theorem scaled_bounds : 2 ^ 52 ≤ x / 2 ^ exponent x ∧ x / 2 ^ exponent x < 2 ^ 53 := by
  have hle : (2 : ℚ) ^ Int.log 2 x ≤ x := Int.zpow_log_le_self Nat.one_lt_two hx
  have hlt : x < (2 : ℚ) ^ (Int.log 2 x + 1) := Int.lt_zpow_succ_log_self Nat.one_lt_two x
  have hlog : Int.log 2 x = exponent x + 52 := by
    unfold exponent
    ring
  rw [hlog, zpow_exponent_add] at hle
  rw [hlog, add_assoc, zpow_exponent_add] at hlt
  rw [le_div_iff₀ (two_zpow_pos _), div_lt_iff₀ (two_zpow_pos _)]
  constructor
  · calc (2 : ℚ) ^ 52 * 2 ^ exponent x = 2 ^ exponent x * 2 ^ (52 : ℤ) := by norm_num [mul_comm]
      _ ≤ x := hle
  · calc x < 2 ^ exponent x * 2 ^ (52 + 1 : ℤ) := hlt
      _ = 2 ^ 53 * 2 ^ exponent x := by norm_num [mul_comm]

/-- The mantissa has 53 bits, unless it is rounded up to a power of two. -/
theorem mantissa_bounds :
    2 ^ 52 ≤ nearestEven (x / 2 ^ exponent x) ∧ nearestEven (x / 2 ^ exponent x) ≤ 2 ^ 53 := by
  obtain ⟨hle, hlt⟩ := scaled_bounds hx
  exact nearestEven_between (by exact_mod_cast hle) (by exact_mod_cast hlt.le)

/-- Half a unit in the last place. -/
theorem half_ulp_le : 1 / 2 * (2 : ℚ) ^ exponent x ≤ x / 2 ^ 53 := by
  have hle := (scaled_bounds hx).1
  rw [le_div_iff₀ (two_zpow_pos _)] at hle
  rw [le_div_iff₀ (by norm_num)]
  linarith

theorem rounded_le : rounded x ≤ x + x / 2 ^ 53 := by
  have hupper := (nearestEven_bounds (div_pos hx (two_zpow_pos (exponent x))).le).2
  calc rounded x ≤ (x / 2 ^ exponent x + 1 / 2) * 2 ^ exponent x :=
        mul_le_mul_of_nonneg_right hupper (two_zpow_pos _).le
    _ = x + 1 / 2 * 2 ^ exponent x := by
        rw [add_mul, div_mul_cancel₀ _ (two_zpow_pos _).ne']
    _ ≤ x + x / 2 ^ 53 := by linarith [half_ulp_le hx]

theorem le_rounded : x - x / 2 ^ 53 ≤ rounded x := by
  have hlower := (nearestEven_bounds (div_pos hx (two_zpow_pos (exponent x))).le).1
  calc x - x / 2 ^ 53 ≤ x - 1 / 2 * 2 ^ exponent x := by linarith [half_ulp_le hx]
    _ = (x / 2 ^ exponent x - 1 / 2) * 2 ^ exponent x := by
        rw [sub_mul, div_mul_cancel₀ _ (two_zpow_pos _).ne']
    _ ≤ rounded x := mul_le_mul_of_nonneg_right hlower (two_zpow_pos _).le

theorem rounded_pos : 0 < rounded x := by
  have hle := le_rounded hx
  have hsmall : x / 2 ^ 53 < x := div_lt_self hx (by norm_num)
  linarith

theorem rounded_mono (h : x ≤ y) : rounded x ≤ rounded y := by
  have hy := hx.trans_le h
  rcases (Int.log_mono_right (b := 2) hx h).lt_or_eq with hlt | heq
  · -- a power of two is in between
    have hexponent : exponent x + 1 ≤ exponent y := by
      unfold exponent
      omega
    have hupper : (nearestEven (x / 2 ^ exponent x) : ℚ) ≤ 2 ^ 53 := by
      exact_mod_cast (mantissa_bounds hx).2
    have hlower : (2 : ℚ) ^ 52 ≤ nearestEven (y / 2 ^ exponent y) := by
      exact_mod_cast (mantissa_bounds hy).1
    calc rounded x ≤ 2 ^ 53 * 2 ^ exponent x := mul_le_mul_of_nonneg_right hupper (two_zpow_pos _).le
      _ = 2 ^ 52 * 2 ^ (exponent x + 1) := by
          rw [zpow_exponent_add]
          ring
      _ ≤ 2 ^ 52 * 2 ^ exponent y := by
          have hpow := zpow_le_zpow_right₀ (one_le_two (α := ℚ)) hexponent
          linarith
      _ ≤ rounded y := mul_le_mul_of_nonneg_right hlower (two_zpow_pos _).le
  · have hexponent : exponent y = exponent x := by
      unfold exponent
      rw [heq]
    have hscaled : x / 2 ^ exponent x ≤ y / 2 ^ exponent x :=
      div_le_div_of_nonneg_right h (two_zpow_pos _).le
    have hnearest := nearestEven_mono (div_pos hx (two_zpow_pos _)).le hscaled
    unfold rounded
    rw [hexponent]
    exact mul_le_mul_of_nonneg_right (by exact_mod_cast hnearest) (two_zpow_pos _).le

end Rounded

/-- A number with at most 53 bits is kept. -/
theorem rounded_natCast {n : ℕ} (h : n < 2 ^ 53) : rounded n = n := by
  rcases Nat.eq_zero_or_pos n with rfl | hpos
  · simp [rounded, nearestEven]
  · have hlog : Int.log 2 (n : ℚ) ≤ 52 := by
      have hlt : Nat.log 2 n < 53 := Nat.log_lt_of_lt_pow (by omega) h
      rw [Int.log_natCast]
      omega
    obtain ⟨k, hk⟩ : ∃ k : ℕ, exponent (n : ℚ) = -k := ⟨(52 - Int.log 2 (n : ℚ)).toNat, by
      unfold exponent
      omega⟩
    have hscaled : (n : ℚ) / 2 ^ exponent (n : ℚ) = ((n * 2 ^ k : ℕ) : ℚ) := by
      rw [hk, zpow_neg, zpow_natCast, div_inv_eq_mul]
      push_cast
      ring
    rw [rounded, hscaled, nearestEven_natCast, ← hscaled, div_mul_cancel₀ _ (two_zpow_pos _).ne']

/-! ### Mantissas with residual bits -/

/-- The mantissa and the two bits tell of `x` what matters for rounding it to an integer. -/
structure Stands (em : ExtendedMantissa) (x : ℚ) : Prop where
  le : em.mantissa ≤ x
  lt : x < em.mantissa + 1
  roundBit : em.roundBit = true ↔ em.mantissa + 1 / 2 ≤ x
  stickyBit : em.stickyBit = false ↔ x = em.mantissa + if em.roundBit then 1 / 2 else 0

theorem Stands.floor {em : ExtendedMantissa} {x : ℚ} (h : Stands em x) : ⌊x⌋₊ = em.mantissa :=
  (Nat.floor_eq_iff ((Nat.cast_nonneg _).trans h.le)).mpr ⟨h.le, h.lt⟩

theorem Stands.fract {em : ExtendedMantissa} {x : ℚ} (h : Stands em x) :
    Int.fract x = x - em.mantissa := by
  rw [← Int.self_sub_floor, ← natCast_floor_eq_intCast_floor ((Nat.cast_nonneg _).trans h.le), h.floor]

theorem Stands.roundedMantissa {em : ExtendedMantissa} {x : ℚ} (h : Stands em x) :
    em.roundedMantissa = nearestEven x := by
  have hfract := h.fract
  have hfloor := h.floor
  obtain ⟨hle, hlt, hround, hsticky⟩ := h
  rcases em with ⟨mantissa, roundBit, stickyBit⟩
  unfold nearestEven
  rw [hfloor, hfract]
  cases roundBit with
  | false =>
      have hless : x - mantissa < 1 / 2 := by
        have hnot : ¬ (mantissa + 1 / 2 : ℚ) ≤ x := fun hge => Bool.false_ne_true (hround.mpr hge)
        linarith [not_le.mp hnot]
      rw [if_pos hless]
      cases stickyBit <;> rfl
  | true =>
      have hge : (mantissa + 1 / 2 : ℚ) ≤ x := hround.mp rfl
      have hnot : ¬ x - mantissa < 1 / 2 := not_lt.mpr (by linarith)
      rw [if_neg hnot]
      cases stickyBit with
      | false =>
          have heq : x = mantissa + 1 / 2 := hsticky.mp rfl
          rw [if_pos (by linarith)]
          rfl
      | true =>
          have hne : x - mantissa ≠ 1 / 2 := by
            intro heq
            exact Bool.noConfusion (hsticky.mpr (by simp only [if_true]; linarith))
          rw [if_neg hne]
          rfl

theorem Stands.shiftRightOne {em : ExtendedMantissa} {x : ℚ} (h : Stands em x) :
    Stands em.shiftRightOne (x / 2) := by
  obtain ⟨hle, hlt, hround, hsticky⟩ := h
  rcases em with ⟨mantissa, roundBit, stickyBit⟩
  simp only at hle hlt hround hsticky
  have hdiv : (mantissa : ℚ) = 2 * (mantissa / 2 : ℕ) + (mantissa % 2 : ℕ) := by
    exact_mod_cast (Nat.div_add_mod mantissa 2).symm
  -- the bit that is shifted out becomes the round bit
  have hsticky' : (roundBit || stickyBit) = false ↔ x = mantissa := by
    cases roundBit with
    | false => simpa using hsticky
    | true =>
        have hge := hround.mp rfl
        refine iff_of_false (by simp) fun heq => ?_
        rw [heq] at hge
        linarith
  rcases Nat.mod_two_eq_zero_or_one mantissa with hmod | hmod
  · rw [hmod, Nat.cast_zero, add_zero] at hdiv
    refine ⟨?_, ?_, ?_, ?_⟩
    · simp only [ExtendedMantissa.shiftRightOne]
      linarith
    · simp only [ExtendedMantissa.shiftRightOne]
      linarith
    · refine iff_of_false (by simp [ExtendedMantissa.shiftRightOne, hmod]) ?_
      simp only [ExtendedMantissa.shiftRightOne]
      intro hge
      linarith
    · simp only [ExtendedMantissa.shiftRightOne, hmod, hsticky']
      simp only [bne_self_eq_false, Bool.false_eq_true, if_false, add_zero]
      constructor <;> intro heq <;> linarith
  · rw [hmod, Nat.cast_one] at hdiv
    refine ⟨?_, ?_, ?_, ?_⟩
    · simp only [ExtendedMantissa.shiftRightOne]
      linarith
    · simp only [ExtendedMantissa.shiftRightOne]
      linarith
    · refine iff_of_true (by simp [ExtendedMantissa.shiftRightOne, hmod]) ?_
      simp only [ExtendedMantissa.shiftRightOne]
      linarith
    · have hbit : (1 != 0) = true := rfl
      simp only [ExtendedMantissa.shiftRightOne, hmod, hsticky', hbit, if_true]
      constructor <;> intro heq <;> linarith

theorem Stands.shiftRight {em : ExtendedMantissa} {x : ℚ} (h : Stands em x) (n : ℕ) :
    Stands (em >>> n) (x / 2 ^ n) := by
  induction n with
  | zero =>
      rw [pow_zero, div_one]
      exact h
  | succ n ih =>
      have hstep := ih.shiftRightOne
      rw [div_div, ← pow_succ] at hstep
      exact hstep

theorem stands_exact (mantissa : ℕ) :
    Stands (ExtendedMantissa.ofMantissaAndAccuracy mantissa .exact) mantissa := by
  refine ⟨le_refl _, lt_add_one _, ?_, ?_⟩
  · refine iff_of_false Bool.false_ne_true fun hge => ?_
    simp only [ExtendedMantissa.ofMantissaAndAccuracy] at hge
    linarith
  · simp [ExtendedMantissa.ofMantissaAndAccuracy]

/-- A division of integers with its remainder. -/
theorem stands_fraction (a : ℕ) {b : ℕ} (hb : 0 < b) :
    Stands (ExtendedMantissa.ofMantissaAndAccuracy (a / b) (accuracyOfFraction (a % b) b))
      ((a : ℚ) / b) := by
  have hb' : (0 : ℚ) < b := by exact_mod_cast hb
  have hvalue : (a : ℚ) / b = (a / b : ℕ) + (a % b : ℕ) / b := by
    rw [div_eq_iff hb'.ne', add_mul, div_mul_cancel₀ _ hb'.ne']
    exact_mod_cast (Nat.div_add_mod' a b).symm
  have hmod : a % b < b := Nat.mod_lt _ hb
  have hmod' : ((a % b : ℕ) : ℚ) / b < 1 := by
    rw [div_lt_one hb']
    exact_mod_cast hmod
  have hmod₀ : (0 : ℚ) ≤ (a % b : ℕ) / b := by positivity
  rw [hvalue]
  unfold accuracyOfFraction
  by_cases hzero : a % b = 0
  · rw [if_pos hzero, hzero, Nat.cast_zero, zero_div, add_zero]
    exact stands_exact (a / b)
  · rw [if_neg hzero]
    have hpos : (0 : ℚ) < (a % b : ℕ) / b :=
      div_pos (by exact_mod_cast Nat.pos_of_ne_zero hzero) hb'
    rcases Nat.lt_trichotomy (2 * (a % b)) b with hlt | heq | hgt
    · have hhalf : ((a % b : ℕ) : ℚ) / b < 1 / 2 := by
        rw [div_lt_iff₀ hb']
        have : (2 : ℚ) * (a % b : ℕ) < b := by exact_mod_cast hlt
        linarith
      rw [Nat.compare_eq_lt.mpr hlt]
      refine ⟨?_, ?_, ?_, ?_⟩ <;> simp only [ExtendedMantissa.ofMantissaAndAccuracy]
      · linarith
      · linarith
      · exact iff_of_false Bool.false_ne_true fun hge => by linarith
      · refine iff_of_false (by simp) fun hexact => ?_
        simp only [Bool.false_eq_true, if_false] at hexact
        linarith
    · have hhalf : ((a % b : ℕ) : ℚ) / b = 1 / 2 := by
        rw [div_eq_iff hb'.ne']
        have : (2 : ℚ) * (a % b : ℕ) = b := by exact_mod_cast heq
        linarith
      rw [Nat.compare_eq_eq.mpr heq, hhalf]
      refine ⟨?_, ?_, ?_, ?_⟩ <;> simp only [ExtendedMantissa.ofMantissaAndAccuracy]
      · linarith
      · linarith
      · exact iff_of_true trivial (le_refl _)
      · simp
    · have hhalf : 1 / 2 < ((a % b : ℕ) : ℚ) / b := by
        rw [lt_div_iff₀ hb']
        have : (b : ℚ) < 2 * (a % b : ℕ) := by exact_mod_cast hgt
        linarith
      rw [Nat.compare_eq_gt.mpr hgt]
      refine ⟨?_, ?_, ?_, ?_⟩ <;> simp only [ExtendedMantissa.ofMantissaAndAccuracy]
      · linarith
      · linarith
      · exact iff_of_true trivial (by linarith)
      · refine iff_of_false (by simp) fun hexact => ?_
        simp only [if_true] at hexact
        linarith

/-- The bits of a mantissa are those of the number it stands for. -/
theorem Stands.log {m : ℕ} {acc : Accuracy} {x : ℚ} {e : ℤ} (hm : m ≠ 0)
    (h : Stands (ExtendedMantissa.ofMantissaAndAccuracy m acc) (x / 2 ^ e)) :
    Int.log 2 x = m.log2 + e := by
  have hmantissa : (ExtendedMantissa.ofMantissaAndAccuracy m acc).mantissa = m := by
    rcases acc with _ | (_ | _ | _) <;> rfl
  have hle := h.le
  have hlt := h.lt
  rw [hmantissa, le_div_iff₀ (two_zpow_pos _)] at hle
  rw [hmantissa, div_lt_iff₀ (two_zpow_pos _)] at hlt
  have hlower : (2 : ℚ) ^ m.log2 ≤ m := by exact_mod_cast Nat.log2_self_le hm
  have hupper : (m : ℚ) + 1 ≤ 2 ^ (m.log2 + 1) := by
    exact_mod_cast Nat.succ_le_of_lt (Nat.lt_log2_self (n := m))
  have hpow : ∀ k : ℕ, (2 : ℚ) ^ ((k : ℤ) + e) = 2 ^ k * 2 ^ e := fun k => by
    rw [zpow_add₀ two_ne_zero, zpow_natCast]
  have hx : 0 < x := by
    have hpos : (0 : ℚ) < m := by exact_mod_cast Nat.pos_of_ne_zero hm
    exact (mul_pos hpos (two_zpow_pos e)).trans_le hle
  refine le_antisymm ?_ ?_
  · have hless : x < (2 : ℚ) ^ (((m.log2 + 1 : ℕ) : ℤ) + e) := by
      rw [hpow]
      exact hlt.trans_le (mul_le_mul_of_nonneg_right hupper (two_zpow_pos e).le)
    have := (Int.lt_zpow_iff_log_lt Nat.one_lt_two hx).mp hless
    omega
  · refine (Int.zpow_le_iff_le_log Nat.one_lt_two hx).mp ?_
    rw [Nat.cast_two, hpow]
    exact (mul_le_mul_of_nonneg_right hlower (two_zpow_pos e).le).trans hle

/-! ### Rounding a mantissa -/

theorem minExponent_binary64 : Format.binary64.minExponent = -1074 := rfl

theorem mantissaBits_binary64 : Format.binary64.mantissaBits = 53 := rfl

theorem log2_eq {m k : ℕ} (hle : 2 ^ k ≤ m) (hlt : m < 2 ^ (k + 1)) : m.log2 = k := by
  have hne : m ≠ 0 := ((Nat.two_pow_pos k).trans_le hle).ne'
  exact (Nat.log2_eq_iff hne).mpr ⟨hle, hlt⟩

/-- The first shift leaves the 53 bits of the mantissa, which still stand for the number. -/
theorem shiftToTargetExponent_stands {m : ℕ} {e : ℤ} {acc : Accuracy} {x : ℚ} (hm : 2 ^ 52 ≤ m)
    (h : Stands (ExtendedMantissa.ofMantissaAndAccuracy m acc) (x / 2 ^ e))
    (hmin : -1074 ≤ exponent x) :
    ∃ em, shiftToTargetExponent Format.binary64 m e acc = (em, exponent x) ∧
      Stands em (x / 2 ^ exponent x) := by
  have hm₀ : m ≠ 0 := ((Nat.two_pow_pos 52).trans_le hm).ne'
  have hlog2 : 52 ≤ m.log2 := (Nat.le_log2 hm₀).mpr hm
  have hexponent : exponent x = m.log2 + e - 52 := by rw [exponent, h.log hm₀]
  have htarget : Format.binary64.targetExponent (totalExponent m e) = exponent x := by
    rw [Format.targetExponent, totalExponent, minExponent_binary64, mantissaBits_binary64]
    omega
  have hshift : ((exponent x - e).toNat : ℤ) = exponent x - e := by omega
  refine ⟨ExtendedMantissa.ofMantissaAndAccuracy m acc >>> (exponent x - e).toNat, ?_, ?_⟩
  · rw [shiftToTargetExponent, shiftToExponent, htarget, hshift, add_sub_cancel]
  · have hpow : (2 : ℚ) ^ exponent x = 2 ^ e * 2 ^ (exponent x - e).toNat := by
      rw [← zpow_natCast, hshift, ← zpow_add₀ two_ne_zero, add_sub_cancel]
    rw [hpow, ← div_div]
    exact h.shiftRight _

/-- The second shift is for a mantissa that was rounded up to a power of two. -/
theorem shiftToTargetExponent_rounded {r : ℕ} {e : ℤ} (hlower : 2 ^ 52 ≤ r) (hupper : r ≤ 2 ^ 53)
    (hmin : -1074 ≤ e) :
    ∃ em e', shiftToTargetExponent Format.binary64 r e .exact = (em, e') ∧
      2 ^ 52 ≤ em.mantissa ∧ em.mantissa < 2 ^ 53 ∧ e ≤ e' ∧ e' ≤ e + 1 ∧
      (em.mantissa : ℚ) * 2 ^ e' = r * 2 ^ e := by
  rcases hupper.lt_or_eq with hlt | rfl
  · have htarget : Format.binary64.targetExponent (totalExponent r e) = e := by
      rw [Format.targetExponent, totalExponent, minExponent_binary64, mantissaBits_binary64,
        log2_eq hlower hlt]
      omega
    refine ⟨_, _, by rw [shiftToTargetExponent, shiftToExponent, htarget], ?_⟩
    simp only [sub_self, Int.toNat_zero, Nat.cast_zero, add_zero, le_refl, true_and]
    exact ⟨hlower, hlt, by omega, rfl⟩
  · have htarget : Format.binary64.targetExponent (totalExponent (2 ^ 53) e) = e + 1 := by
      rw [Format.targetExponent, totalExponent, minExponent_binary64, mantissaBits_binary64,
        log2_eq (le_refl (2 ^ 53)) (by norm_num)]
      omega
    refine ⟨_, _, by rw [shiftToTargetExponent, shiftToExponent, htarget, add_sub_cancel_left], ?_⟩
    have hmantissa : (ExtendedMantissa.ofMantissaAndAccuracy (2 ^ 53) .exact >>>
        (1 : ℤ).toNat).mantissa = 2 ^ 52 := rfl
    rw [hmantissa]
    refine ⟨le_refl _, by norm_num, by omega, by omega, ?_⟩
    rw [Int.toNat_one, Nat.cast_one, zpow_add₀ two_ne_zero, zpow_one]
    push_cast
    ring

/-- `u` is the positive normal number `x`. -/
def Represents (u : UnpackedFloat) (x : ℚ) : Prop :=
  ∃ m e h, u = .finite .positive m e h ∧ 2 ^ 52 ≤ m ∧ m < 2 ^ 53 ∧ -1074 ≤ e ∧ e ≤ 971 ∧ x = m * 2 ^ e

theorem represents_roundWithAccuracy {m : ℕ} {e : ℤ} {acc : Accuracy} {x : ℚ} (hx : 0 < x)
    (hm : 2 ^ 52 ≤ m) (h : Stands (ExtendedMantissa.ofMantissaAndAccuracy m acc) (x / 2 ^ e))
    (hmin : -1074 ≤ exponent x) (hmax : exponent x ≤ 970) :
    Represents (roundWithAccuracy Format.binary64 .positive m e acc) (rounded x) := by
  obtain ⟨em, hfirst, hem⟩ := shiftToTargetExponent_stands hm h hmin
  obtain ⟨hlower, hupper⟩ := mantissa_bounds hx
  rw [← hem.roundedMantissa] at hlower hupper
  obtain ⟨em', e', hsecond, hle, hlt, hle', hlt', hvalue⟩ :=
    shiftToTargetExponent_rounded hlower hupper hmin
  have hne : em'.mantissa ≠ 0 := ((Nat.two_pow_pos 52).trans_le hle).ne'
  refine ⟨em'.mantissa, e', Nat.pos_of_ne_zero hne, ?_, hle, hlt, hmin.trans hle', by omega, ?_⟩
  · simp only [roundWithAccuracy, hfirst, hsecond, hne, dite_false]
  · rw [hvalue, hem.roundedMantissa, rounded]

/-! ### Bit patterns -/

theorem unpackSign_packComponents {spec : Format} {sign : Sign}
    {exponent : BitVec spec.exponentBits} {mantissa : BitVec spec.mantissaBitsWithoutImplicit} :
    unpackSign (packComponents spec sign exponent mantissa) = sign.toBitVec := by
  ext i hi
  obtain rfl : i = 0 := by omega
  simp [unpackSign, packComponents, BitVec.getLsbD_eq_getElem, BitVec.getLsbD_append,
    BitVec.getElem_append]

/-- A normal number is kept by its bit pattern. -/
theorem Represents.unpack_pack {u : UnpackedFloat} {x : ℚ} (h : Represents u x) :
    Represents (UnpackedFloat.unpack Format.binary64 (UnpackedFloat.pack Format.binary64 u)) x := by
  obtain ⟨m, e, hpos, rfl, hle, hlt, hmin, hmax, hx⟩ := h
  have hlog2 : m.log2 = 52 := log2_eq hle hlt
  have hbias : Format.binary64.exponentBias = 1023 := rfl
  have hbiased : ((e + 1023 + 52).toNat : ℤ) = e + 1075 := by omega
  generalize hn : (e + 1023 + 52).toNat = n at hbiased
  have hpack : UnpackedFloat.pack Format.binary64 (.finite .positive m e hpos) =
      packComponents Format.binary64 .positive (BitVec.ofNat 11 n) (BitVec.ofNat 52 m) := by
    simp only [UnpackedFloat.pack, hbias, mantissaBits_binary64, hlog2]
    rw [if_neg]
    · simp [hn]
    · simp [hn]
      omega
  refine ⟨m, e, hpos, ?_, hle, hlt, hmin, hmax, hx⟩
  have hexponent : BitVec.ofNat 11 n ≠ -1#11 ∧ BitVec.ofNat 11 n ≠ 0#11 := by
    constructor <;> intro heq <;> have := congrArg BitVec.toNat heq <;> simp at this <;> omega
  rw [hpack]
  simp only [UnpackedFloat.unpack, unpackExponent_packComponents, unpackMantissa_packComponents,
    unpackSign_packComponents, hbias]
  rw [if_neg hexponent.1, if_neg hexponent.2]
  have hmantissa : (1#1 ++ BitVec.ofNat 52 m).toNat = m := by
    have hmod : m % 2 ^ 52 < 2 ^ 52 := Nat.mod_lt _ (by norm_num)
    rw [BitVec.toNat_append, BitVec.toNat_ofNat, BitVec.toNat_ofNat,
      ← Nat.shiftLeft_add_eq_or_of_lt hmod, Nat.shiftLeft_eq]
    omega
  have hvalue : ((BitVec.ofNat 11 n).toNat : ℤ) - ((1023 : ℕ) + (52 : ℕ)) = e := by
    rw [BitVec.toNat_ofNat]
    omega
  simp only [hmantissa, hvalue]
  rfl

/-! ### Operations -/

/-- The exponent is far from the bounds of the format. -/
structure Moderate (x : ℚ) : Prop where
  le : (2 : ℚ) ^ (-900 : ℤ) ≤ x
  lt : x < (2 : ℚ) ^ (900 : ℤ)

theorem Moderate.pos {x : ℚ} (h : Moderate x) : 0 < x := (two_zpow_pos _).trans_le h.le

theorem Moderate.log {x : ℚ} (h : Moderate x) : -900 ≤ Int.log 2 x ∧ Int.log 2 x < 900 :=
  ⟨(Int.zpow_le_iff_le_log Nat.one_lt_two h.pos).mp h.le,
    (Int.lt_zpow_iff_log_lt Nat.one_lt_two h.pos).mp h.lt⟩

theorem Moderate.represents {m : ℕ} {e : ℤ} {acc : Accuracy} {x : ℚ} (hx : Moderate x)
    (hm : 2 ^ 52 ≤ m) (h : Stands (ExtendedMantissa.ofMantissaAndAccuracy m acc) (x / 2 ^ e)) :
    Represents (roundWithAccuracy Format.binary64 .positive m e acc) (rounded x) := by
  have hlog := hx.log
  refine represents_roundWithAccuracy hx.pos hm h ?_ ?_ <;> unfold exponent <;> omega

/-- `a` is the positive normal number `x`. -/
def Holds (a : Float) (x : ℚ) : Prop := Represents a.toModel.unpack x

theorem Holds.mul {a b : Float} {x y : ℚ} (ha : Holds a x) (hb : Holds b y) (h : Moderate (x * y)) :
    Holds (a * b) (rounded (x * y)) := by
  obtain ⟨m₁, e₁, h₁, ha, hle₁, -, -, -, rfl⟩ := ha
  obtain ⟨m₂, e₂, h₂, hb, hle₂, -, -, -, rfl⟩ := hb
  have hunpacked : UnpackedFloat.mul Format.binary64 a.toModel.unpack b.toModel.unpack =
      roundWithAccuracy Format.binary64 .positive (m₁ * m₂) (e₁ + e₂) .exact := by
    rw [ha, hb]
    rfl
  suffices hresult : Represents
      (UnpackedFloat.mul Format.binary64 a.toModel.unpack b.toModel.unpack) _ from
    hresult.unpack_pack
  rw [hunpacked]
  refine h.represents ?_ ?_
  · calc 2 ^ 52 ≤ m₁ := hle₁
      _ ≤ m₁ * m₂ := Nat.le_mul_of_pos_right _ h₂
  · have hvalue : (m₁ * 2 ^ e₁ * (m₂ * 2 ^ e₂) : ℚ) / 2 ^ (e₁ + e₂) = ((m₁ * m₂ : ℕ) : ℚ) := by
      rw [div_eq_iff (two_zpow_pos _).ne', zpow_add₀ two_ne_zero]
      push_cast
      ring
    rw [hvalue]
    exact stands_exact _

/-- The dividend is shifted until the quotient has 53 bits. -/
theorem divCore_eq {m₁ m₂ : ℕ} {e₁ e₂ : ℤ} (hle₁ : 2 ^ 52 ≤ m₁) (hlt₁ : m₁ < 2 ^ 53)
    (hle₂ : 2 ^ 52 ≤ m₂) (hlt₂ : m₂ < 2 ^ 53) (hrange : -1074 ≤ e₁ - e₂ - 53) :
    divCore Format.binary64 m₁ e₁ m₂ e₂ = (m₁ * 2 ^ 53 / m₂, e₁ - e₂ - 53,
      accuracyOfFraction (m₁ * 2 ^ 53 % m₂) m₂) := by
  have htarget : Format.binary64.targetExponent (totalExponent m₁ e₁ - totalExponent m₂ e₂) =
      e₁ - e₂ - 53 := by
    rw [Format.targetExponent, totalExponent, totalExponent, minExponent_binary64,
      mantissaBits_binary64, log2_eq hle₁ hlt₁, log2_eq hle₂ hlt₂]
    omega
  have hshift : (e₁ - e₂ - (e₁ - e₂ - 53)).toNat = 53 := by omega
  rw [divCore, htarget, min_eq_right (by omega), hshift, Nat.shiftLeft_eq]

theorem Holds.div {a b : Float} {x y : ℚ} (ha : Holds a x) (hb : Holds b y) (h : Moderate (x / y)) :
    Holds (a / b) (rounded (x / y)) := by
  obtain ⟨m₁, e₁, h₁, ha, hle₁, hlt₁, -, -, rfl⟩ := ha
  obtain ⟨m₂, e₂, h₂, hb, hle₂, hlt₂, -, -, rfl⟩ := hb
  have h₂' : (0 : ℚ) < m₂ := by exact_mod_cast h₂
  have hquotient : (m₁ * 2 ^ e₁ / (m₂ * 2 ^ e₂) : ℚ) / 2 ^ (e₁ - e₂ - 53) =
      ((m₁ * 2 ^ 53 : ℕ) : ℚ) / m₂ := by
    have hpow : (2 : ℚ) ^ e₁ = 2 ^ e₂ * 2 ^ (e₁ - e₂ - 53) * 2 ^ 53 := by
      rw [← zpow_natCast, ← zpow_add₀ two_ne_zero, ← zpow_add₀ two_ne_zero]
      congr 1
      push_cast
      ring
    have hpos₂ := two_zpow_pos e₂
    have hpos := two_zpow_pos (e₁ - e₂ - 53)
    rw [hpow, div_div, div_eq_div_iff (by positivity) h₂'.ne']
    push_cast
    ring
  have hstands := stands_fraction (m₁ * 2 ^ 53) h₂
  rw [← hquotient] at hstands
  have hm : 2 ^ 52 ≤ m₁ * 2 ^ 53 / m₂ := by
    rw [Nat.le_div_iff_mul_le h₂]
    omega
  -- the exponent of the quotient is one of two
  have hrange : -1074 ≤ e₁ - e₂ - 53 := by
    have hlog := hstands.log ((Nat.two_pow_pos 52).trans_le hm).ne'
    have hlt : m₁ * 2 ^ 53 / m₂ < 2 ^ 54 := by
      rw [Nat.div_lt_iff_lt_mul h₂]
      omega
    have hlog2 := (Nat.log2_lt ((Nat.two_pow_pos 52).trans_le hm).ne').mpr hlt
    have := h.log.1
    omega
  suffices hresult : Represents
      (UnpackedFloat.div Format.binary64 a.toModel.unpack b.toModel.unpack) _ from
    hresult.unpack_pack
  have hunpacked : UnpackedFloat.div Format.binary64 a.toModel.unpack b.toModel.unpack =
      roundWithAccuracy Format.binary64 .positive (m₁ * 2 ^ 53 / m₂) (e₁ - e₂ - 53)
        (accuracyOfFraction (m₁ * 2 ^ 53 % m₂) m₂) := by
    rw [ha, hb, UnpackedFloat.div, divCore_eq hle₁ hlt₁ hle₂ hlt₂ hrange]
    rfl
  rw [hunpacked]
  exact h.represents hm hstands

/-- A number of at most 53 bits is converted exactly. -/
theorem holds_toFloat {n : UInt64} (hpos : 0 < n.toNat) (hlt : n.toNat < 2 ^ 53) :
    Holds n.toFloat n.toNat := by
  suffices hresult : Represents (UnpackedFloat.ofUInt64 Format.binary64 n) n.toNat from
    hresult.unpack_pack
  generalize hk : n.toNat = k at hpos hlt
  have hlog2 : k.log2 < 53 := (Nat.log2_lt hpos.ne').mpr hlt
  have htarget : Format.binary64.targetExponent (totalExponent k 0) = k.log2 - 52 := by
    rw [Format.targetExponent, totalExponent, minExponent_binary64, mantissaBits_binary64]
    omega
  have hunpacked : UnpackedFloat.ofUInt64 Format.binary64 n =
      roundWithAccuracy Format.binary64 .positive (k * 2 ^ (52 - k.log2)) (-(52 - k.log2 : ℕ))
        .exact := by
    have hcompare : compare (k : ℤ) 0 = .gt := Int.compare_eq_gt.mpr (by omega)
    have hshift : (-((k.log2 : ℤ) - 52)).toNat = 52 - k.log2 := by omega
    rw [UnpackedFloat.ofUInt64, UnpackedFloat.ofNat, UnpackedFloat.ofInt,
      UnpackedFloat.normalize, hk, hcompare]
    simp only [UnpackedFloat.round, decreaseExponent, Int.toNat_natCast, htarget, zero_sub, hshift,
      Nat.shiftLeft_eq]
  have hvalue : (k : ℚ) / 2 ^ (-(52 - k.log2 : ℕ) : ℤ) = (k * 2 ^ (52 - k.log2) : ℕ) := by
    rw [zpow_neg, zpow_natCast, div_inv_eq_mul]
    push_cast
    rfl
  have hmoderate : Moderate k := by
    constructor
    · calc (2 : ℚ) ^ (-900 : ℤ) ≤ 2 ^ (0 : ℤ) := zpow_le_zpow_right₀ one_le_two (by omega)
        _ ≤ k := by exact_mod_cast hpos
    · calc (k : ℚ) < 2 ^ (53 : ℤ) := by exact_mod_cast hlt
        _ ≤ 2 ^ (900 : ℤ) := zpow_le_zpow_right₀ one_le_two (by omega)
  rw [hunpacked, ← rounded_natCast hlt]
  refine hmoderate.represents ?_ ?_
  · calc 2 ^ 52 = 2 ^ k.log2 * 2 ^ (52 - k.log2) := by rw [← pow_add, Nat.add_sub_cancel' (by omega)]
      _ ≤ k * 2 ^ (52 - k.log2) := Nat.mul_le_mul_right _ (Nat.log2_self_le hpos.ne')
  · rw [hvalue]
    exact stands_exact _

/-- The conversion truncates. -/
theorem Holds.toUInt32 {a : Float} {x : ℚ} (h : Holds a x) (hlt : x < 2 ^ 32) :
    a.toUInt32.toNat = ⌊x⌋₊ := by
  obtain ⟨m, e, hpos, ha, hle, -, -, -, rfl⟩ := h
  have he : e < 0 := by
    by_contra hnonneg
    have hpow : (1 : ℚ) ≤ 2 ^ e := one_le_zpow₀ one_le_two (by omega)
    have hle' : (2 : ℚ) ^ 52 ≤ m := by exact_mod_cast hle
    have := mul_le_mul hle' hpow zero_le_one (Nat.cast_nonneg m)
    norm_num at this hlt
    linarith
  have hstands := (stands_exact m).shiftRight (0 - e).toNat
  have hvalue : (m : ℚ) / 2 ^ (0 - e).toNat = m * 2 ^ e := by
    obtain ⟨k, rfl⟩ : ∃ k : ℕ, e = -k := ⟨(-e).toNat, by omega⟩
    rw [zero_sub, neg_neg, Int.toNat_natCast, zpow_neg, zpow_natCast, div_eq_mul_inv]
  rw [hvalue] at hstands
  have hunpacked : a.toModel.unpack.toInt 0 (UInt32.size - 1) = ⌊(m * 2 ^ e : ℚ)⌋₊ := by
    have hdecrease : (e - 0).toNat = 0 := by omega
    rw [ha, hstands.floor, UnpackedFloat.toInt, roundToInt, decreaseExponent, hdecrease]
    simp only [shiftToExponent, Nat.shiftLeft_zero, Nat.cast_zero, sub_zero]
    rfl
  have hfloor : ⌊(m * 2 ^ e : ℚ)⌋₊ < 2 ^ 32 := (Nat.floor_lt' (by norm_num)).mpr (by exact_mod_cast hlt)
  show (UnpackedFloat.toUInt32 a.toModel.unpack).toNat = _
  rw [UnpackedFloat.toUInt32, hunpacked, Int.toNat_natCast, UInt32.toNat_ofNatClamp_of_lt hfloor]

theorem toFloat_zero_div {b : Float} {y : ℚ} (h : Holds b y) :
    (0 : UInt64).toFloat / b = (0 : UInt64).toFloat := by
  obtain ⟨m, e, hpos, hb, -⟩ := h
  have hzero : (0 : UInt64).toFloat.toModel.unpack = .zero .positive := rfl
  show Float.ofModel (Float.Model.pack (UnpackedFloat.div Format.binary64 _ b.toModel.unpack)) = _
  rw [hb, hzero]
  rfl

theorem toFloat_zero_mul {b : Float} {y : ℚ} (h : Holds b y) :
    (0 : UInt64).toFloat * b = (0 : UInt64).toFloat := by
  obtain ⟨m, e, hpos, hb, -⟩ := h
  have hzero : (0 : UInt64).toFloat.toModel.unpack = .zero .positive := rfl
  show Float.ofModel (Float.Model.pack (UnpackedFloat.mul Format.binary64 _ b.toModel.unpack)) = _
  rw [hb, hzero]
  rfl

end Binary64
