import Mathlib.Data.List.Basic
import Mathlib.Data.Nat.Digits.Defs

/-!
# Words in memory

A word of a fixed width is stored with its lowest or with its highest byte first.  A table of
entries of one size is read entry by entry, at the multiples of the size (`slices_flatten`).
-/

namespace Words

/-- The bytes of a word, the lowest first. -/
def toBytes : ℕ → ℕ → List UInt8
  | 0, _ => []
  | width + 1, n => UInt8.ofNat n :: toBytes width (n / 256)

def encode (bigEndian : Bool) (width n : ℕ) : List UInt8 :=
  if bigEndian then (toBytes width n).reverse else toBytes width n

def decode (bigEndian : Bool) (bytes : List UInt8) : ℕ :=
  Nat.ofDigits 256 ((if bigEndian then bytes.reverse else bytes).map UInt8.toNat)

theorem length_toBytes (width n : ℕ) : (toBytes width n).length = width := by
  induction width generalizing n with
  | zero => rfl
  | succ width ih => rw [toBytes, List.length_cons, ih]

theorem length_encode (bigEndian : Bool) (width n : ℕ) :
    (encode bigEndian width n).length = width := by
  cases bigEndian with
  | false => exact length_toBytes width n
  | true => exact List.length_reverse.trans (length_toBytes width n)

theorem ofDigits_toBytes {width n : ℕ} (h : n < 256 ^ width) :
    Nat.ofDigits 256 ((toBytes width n).map UInt8.toNat) = n := by
  induction width generalizing n with
  | zero =>
      obtain rfl : n = 0 := by
        rw [pow_zero] at h
        omega
      rfl
  | succ width ih =>
      have hdiv : n / 256 < 256 ^ width := by
        rw [pow_succ] at h
        exact Nat.div_lt_of_lt_mul (by rw [Nat.mul_comm]; exact h)
      rw [toBytes, List.map_cons, Nat.ofDigits_cons, ih hdiv, UInt8.toNat_ofNat']
      exact Nat.mod_add_div n 256

/-- **A word is read as it was written.** -/
theorem decode_encode (bigEndian : Bool) {width n : ℕ} (h : n < 256 ^ width) :
    decode bigEndian (encode bigEndian width n) = n := by
  cases bigEndian with
  | false => exact ofDigits_toBytes h
  | true =>
      simp only [decode, encode, if_true, List.reverse_reverse]
      exact ofDigits_toBytes h

/-- The entries of a table. -/
def slices (size : ℕ) (bytes : List UInt8) : List (List UInt8) :=
  (List.range (bytes.length / size)).map fun i => (bytes.drop (i * size)).take size

theorem length_flatten_of {size : ℕ} {entries : List (List UInt8)}
    (h : ∀ entry ∈ entries, entry.length = size) : entries.flatten.length = entries.length * size := by
  induction entries with
  | nil => exact (Nat.zero_mul size).symm
  | cons entry entries ih =>
      rw [List.flatten_cons, List.length_append, h entry List.mem_cons_self,
        ih fun other hother => h other (List.mem_cons_of_mem _ hother), List.length_cons,
        Nat.succ_mul, Nat.add_comm]

/-- **A table is read as it was written.** -/
theorem slices_flatten {size : ℕ} (hsize : 0 < size) {entries : List (List UInt8)}
    (h : ∀ entry ∈ entries, entry.length = size) : slices size entries.flatten = entries := by
  have hslice : ∀ i (hi : i < entries.length),
      (entries.flatten.drop (i * size)).take size = entries[i] := by
    induction entries with
    | nil => intro i hi; cases hi
    | cons entry entries ih =>
        intro i hi
        have hentry := h entry List.mem_cons_self
        cases i with
        | zero =>
            rw [List.flatten_cons, Nat.zero_mul, List.drop_zero,
              List.take_append_of_le_length hentry.ge, List.take_of_length_le hentry.le, List.getElem_cons_zero]
        | succ i =>
            have hdrop : (i + 1) * size = entry.length + i * size := by
              rw [hentry, Nat.succ_mul, Nat.add_comm]
            rw [List.flatten_cons, hdrop, List.drop_length_add_append]
            exact ih (fun other hother => h other (List.mem_cons_of_mem _ hother)) i
              (Nat.lt_of_succ_lt_succ hi)
  rw [slices, length_flatten_of h, Nat.mul_div_cancel _ hsize]
  refine List.ext_getElem (by rw [List.length_map, List.length_range]) fun i hi hi' => ?_
  rw [List.getElem_map, List.getElem_range]
  exact hslice i hi'

end Words
