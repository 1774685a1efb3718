import Mathlib.Data.Int.Basic
import Mathlib.Tactic.NormNum

/-!
# Machine integers

A 32-bit `int` is an integer between `intMin` and `intMax`.  An unsigned value
that does not fit is narrowed modulo `2 ^ 32` (`toInt`).  Signed arithmetic that
leaves the range has no defined result: `checked` is `none` there, and `wrap` is what
most machines compute.
-/

namespace MachineInt

def intMax : Int := 2147483647

def intMin : Int := -2147483648

/-- The narrowing conversion from an unsigned size to `int`. -/
def toInt (n : Nat) : Int := Int.bmod n 4294967296

/-- The value of a signed computation, if it is in range. -/
def checked (x : Int) : Option Int := if intMin ≤ x ∧ x ≤ intMax then some x else none

theorem checked_eq_some_iff {x y : Int} :
    checked x = some y ↔ x = y ∧ intMin ≤ x ∧ x ≤ intMax := by
  unfold checked
  split
  · rename_i h
    simp [h]
  · rename_i h
    simp [h]

theorem checked_of_mem {x : Int} (hmin : intMin ≤ x) (hmax : x ≤ intMax) : checked x = some x :=
  checked_eq_some_iff.mpr ⟨rfl, hmin, hmax⟩

/-- The value of a signed computation on a machine that wraps around. -/
def wrap (x : Int) : Int := Int.bmod x 4294967296

theorem wrap_of_mem {x : Int} (hmin : intMin ≤ x) (hmax : x ≤ intMax) : wrap x = x := by
  unfold wrap intMin intMax at *
  rw [Int.bmod_def]
  omega

/-- Sizes that fit are kept. -/
theorem toInt_of_le {n : Nat} (h : (n : Int) ≤ intMax) : toInt n = n := by
  unfold toInt intMax at *
  rw [Int.bmod_def]
  omega

/-- Narrowing never gives more. -/
theorem toInt_le (n : Nat) : toInt n ≤ n := by
  unfold toInt
  rw [Int.bmod_def]
  omega

theorem toInt_le_intMax (n : Nat) : toInt n ≤ intMax := by
  unfold toInt intMax
  rw [Int.bmod_def]
  omega

end MachineInt
