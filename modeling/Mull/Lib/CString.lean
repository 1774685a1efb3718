import Mathlib.Data.List.TakeWhile

/-!
# C strings

A buffer that is read as a C string ends at its first zero byte.
-/

namespace CString

abbrev Bytes := List UInt8

/-- The string that begins with the first byte of a buffer. -/
def cString (buffer : Bytes) : Bytes := buffer.takeWhile (· ≠ 0)

theorem zero_notMem_cString (buffer : Bytes) : 0 ∉ cString buffer := fun hmem => by
  simpa using List.mem_takeWhile_imp hmem

/-- A string is the whole buffer if it has no zero byte. -/
theorem cString_eq_self_iff {buffer : Bytes} : cString buffer = buffer ↔ 0 ∉ buffer := by
  rw [cString, List.takeWhile_eq_self_iff]
  constructor
  · intro h hzero
    simpa using h 0 hzero
  · intro h b hb
    simpa using fun heq : b = 0 => h (heq ▸ hb)

theorem cString_append_of_notMem {text rest : Bytes} (htext : 0 ∉ text) :
    cString (text ++ rest) = text ++ cString rest := by
  apply List.takeWhile_append_of_pos
  intro b hb
  simpa using fun heq : b = 0 => htext (heq ▸ hb)

/-- What stands behind a terminator is not read. -/
theorem cString_append_zero (text rest : Bytes) : cString (text ++ 0 :: rest) = cString text := by
  induction text with
  | nil => rfl
  | cons b text ih =>
    simp only [cString, List.cons_append, List.takeWhile_cons] at ih ⊢
    rw [ih]

theorem length_cString_le (buffer : Bytes) : (cString buffer).length ≤ buffer.length :=
  (List.takeWhile_prefix _).length_le

/-! ### Byte arrays -/

theorem toList_loop (bytes : ByteArray) (i : Nat) (before : List UInt8) (hi : i ≤ bytes.data.size) :
    ByteArray.toList.loop bytes i before = before.reverse ++ bytes.data.toList.drop i := by
  have hsize : bytes.size = bytes.data.size := rfl
  induction h : bytes.data.size - i generalizing i before with
  | zero =>
      have hnil : bytes.data.toList.drop i = [] :=
        List.drop_eq_nil_of_le (by rw [Array.length_toList]; omega)
      rw [ByteArray.toList.loop, if_neg (by omega), hnil, List.append_nil]
  | succ n ih =>
      have hlt : i < bytes.data.toList.length := by
        rw [Array.length_toList]
        omega
      have hget : bytes.get! i = bytes.data.toList[i] := by
        rw [Array.getElem_toList]
        exact getElem!_pos bytes.data i (by omega)
      rw [ByteArray.toList.loop, if_pos (by omega), ih _ _ (by omega) (by omega),
        List.drop_eq_getElem_cons hlt, hget, List.reverse_cons, List.append_assoc,
        List.singleton_append]

theorem toList_injective : Function.Injective ByteArray.toList := by
  intro bytes bytes' h
  have hloop := toList_loop bytes 0 [] (Nat.zero_le _)
  have hloop' := toList_loop bytes' 0 [] (Nat.zero_le _)
  exact ByteArray.ext (Array.toList_inj.mp (hloop.symm.trans (h.trans hloop')))

end CString
