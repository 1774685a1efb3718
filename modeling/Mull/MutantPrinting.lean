import Mull.SourceManager

/-!
# Printing a mutant

`IDEReporter` prints the line of a mutant and under it a caret at the column.  The table of
the file has an entry for the line, and the caret string a place for the caret, if the line
and the column are at least one.  `isNull` only says that one of them is not zero
(`accesses_in_range_iff`).
-/

namespace Mull.Sources

open CString LineTable

/-- `isNull`.  The second case is what code compiled with `-Og` has. -/
def SourceLocation.isNull (location : SourceLocation) : Bool :=
  location.directory.isEmpty && location.filePath.isEmpty && location.line == 0 &&
      location.column == 0 ||
    location.line == 0 && location.column == 0

/-- What is used of a `MutationPoint`. -/
structure Mutant where
  sourceLocation : SourceLocation
  diagnostics : Bytes
  mutatorIdentifier : Bytes
deriving DecidableEq, Repr

/-- The bytes of a string literal. -/
def bytes (s : String) : Bytes := s.toUTF8.toList

theorem bytes_injective : Function.Injective bytes := fun _ _ h =>
  String.toByteArray_inj.mp (toList_injective h)

/-- `std::string(count, ' ')` throws if a size below zero is converted. -/
def spaces (count : Int) : Option Bytes :=
  if count < 0 then none else some (List.replicate count.toNat 32)

/-- `caret[index] = c`. -/
def store (caret : Bytes) (index : Int) (c : UInt8) : Option Bytes :=
  if 0 ≤ index ∧ index < caret.length then some (caret.set index.toNat c) else none

/-- The loop that keeps the tabs of the line. -/
def keepTabs (text caret : Bytes) (count : Nat) : Bytes :=
  (List.range count).foldl (fun caret index =>
    if text[index]? = some 9 then caret.set index 9 else caret) caret

/-- The string under the line. -/
def caretString (line : Bytes) (column : Int) : Option Bytes := do
  let caret ← spaces column
  store (keepTabs line caret column.toNat) (column - 1) 94

/-- What `printMutant` writes before the line. -/
def header (mutant : Mutant) (survived : Bool) : Bytes :=
  mutant.sourceLocation.filePath ++ bytes ":" ++ bytes (toString mutant.sourceLocation.line) ++
    bytes ":" ++ bytes (toString mutant.sourceLocation.column) ++ bytes ": warning: " ++
    bytes (if survived then "Survived" else "Killed") ++ bytes ": " ++ mutant.diagnostics ++
    bytes " [" ++ mutant.mutatorIdentifier ++ bytes "]\n"

variable {files : Files}

/-- `printMutant`, with its two assertions.  The text is printed as a C string. -/
def printMutant (manager : SourceManager files) (mutant : Mutant) (survived : Bool)
    (fresh : Nat → UInt8) : Option (Bytes × SourceManager files) :=
  let location := mutant.sourceLocation
  if location.isNull then none
  else do
    let (line, manager) ← manager.getLine location fresh
    if 0 ≤ location.column ∧ location.column < line.length then
      let caret ← caretString line location.column
      some (cString (header mutant survived ++ line ++ caret ++ bytes "\n"), manager)
    else none

/-- `isNull` takes a line or a column that is not zero for a location. -/
theorem SourceLocation.isNull_eq_false_iff {location : SourceLocation} :
    location.isNull = false ↔ location.line ≠ 0 ∨ location.column ≠ 0 := by
  by_cases hline : location.line = 0 <;> by_cases hcolumn : location.column = 0 <;>
    simp [isNull, hline, hcolumn]

/-! ### The accesses -/

/-- The two entries of the table and the place of the caret are there. -/
structure AccessesInRange (manager : SourceManager files) (location : SourceLocation) : Prop where
  entries : ∃ result, manager.getLineOffset location = some result ∧
    (result.1.entry (location.line - 1)).isSome ∧ (result.1.entry location.line).isSome
  caret : ∃ caret, spaces location.column = some caret ∧
    0 ≤ location.column - 1 ∧ location.column - 1 < caret.length

theorem spaces_eq_some_iff {count : Int} {caret : Bytes} :
    spaces count = some caret ↔ 0 ≤ count ∧ caret = List.replicate count.toNat 32 := by
  unfold spaces
  split
  · simp
    omega
  · rw [Option.some.injEq]
    constructor
    · rintro rfl
      exact ⟨by omega, rfl⟩
    · rintro ⟨-, rfl⟩
      rfl

@[simp] theorem length_keepTabs (text caret : Bytes) (count : Nat) :
    (keepTabs text caret count).length = caret.length := by
  unfold keepTabs
  induction List.range count generalizing caret with
  | nil => rfl
  | cons index indices ih =>
    rw [List.foldl_cons, ih]
    split <;> simp

/-- What is printed was read and written in range. -/
theorem accessesInRange_of_printMutant {manager : SourceManager files} {mutant : Mutant}
    {survived : Bool} {fresh : Nat → UInt8} {result : Bytes × SourceManager files}
    (h : printMutant manager mutant survived fresh = some result) :
    AccessesInRange manager mutant.sourceLocation := by
  simp only [printMutant] at h
  split at h
  · cases h
  · rcases Option.bind_eq_some_iff.mp h with ⟨⟨line, manager'⟩, hline, h⟩
    rcases Option.bind_eq_some_iff.mp hline with ⟨lineOffset, hoffset, hread⟩
    rcases Option.bind_eq_some_iff.mp hread with ⟨text, hread, -⟩
    simp only at h
    split at h
    · rcases Option.bind_eq_some_iff.mp h with ⟨caret, hcaret, -⟩
      rcases Option.bind_eq_some_iff.mp hcaret with ⟨blank, hblank, hstore⟩
      refine ⟨⟨lineOffset, hoffset, ?_⟩, ⟨blank, hblank, ?_⟩⟩
      · unfold LineOffset.readLine at hread
        split at hread
        · split at hread
          · rename_i hbegin hend
            simp [hbegin, hend]
          · cases hread
        · cases hread
      · unfold store at hstore
        split at hstore
        · rename_i hindex
          simpa using hindex
        · cases hstore
    · cases h

/-! ### The entries of a file's table -/

theorem LineOffset.entry_isSome_iff {lineOffset : LineOffset} {index : Int} :
    (lineOffset.entry index).isSome ↔ 0 ≤ index ∧ index < lineOffset.offsets.length := by
  unfold entry
  split
  · simp
    omega
  · simp
    omega

/-- The table of a file has the lines up to the first `EOF` byte. -/
theorem length_offsets_ofFile {before : Bytes} (tail : Bytes) (hbefore : eofByte ∉ before)
    (htail : ∀ b ∈ tail.head?, b = eofByte) :
    (LineOffset.ofFile (before ++ tail)).offsets.length = before.count newline + 2 := by
  rw [offsets_ofFile_mod tail hbefore htail]
  simp

/-- A line has an entry behind it if no line before it has an `EOF` byte. -/
theorem lt_length_offsets_iff {file : Bytes} {k : Nat} (hk : k < (lines newline file).length) :
    k + 1 < (LineOffset.ofFile file).offsets.length ↔
      ∀ i < k, ∀ text, (lines newline file)[i]? = some text → eofByte ∉ text := by
  by_cases heof : eofByte ∈ file
  · rcases List.eq_append_cons_of_mem heof with ⟨before, after, rfl, hbefore⟩
    rw [length_offsets_ofFile _ hbefore (by simp)]
    rcases exists_lines_eq_cons newline after with ⟨first, others, hafter⟩
    have hrest : lines newline (eofByte :: after) = (eofByte :: first) :: others := by
      rw [lines, if_neg (by decide), hafter]
      rfl
    have hlines := lines_append before hrest
    have hlength := length_lines newline before
    constructor
    · intro hlt i hi text htext hmem
      rw [hlines, List.getElem?_append_left (by rw [List.length_dropLast]; omega)] at htext
      have hline := List.dropLast_subset _ (List.mem_of_getElem? htext)
      exact hbefore ((mem_iff_mem_lines newline).mpr ⟨text, hline, hmem⟩)
    · intro hall
      by_contra hge
      have hline : (lines newline (before ++ eofByte :: after))[before.count newline]? =
          some ((lines newline before).getLast (lines_ne_nil _ _) ++ eofByte :: first) := by
        rw [hlines, List.getElem?_append_right (by rw [List.length_dropLast]; omega),
          List.length_dropLast, hlength, Nat.add_sub_cancel, Nat.sub_self]
        rfl
      exact hall _ (by omega) _ hline (by simp)
  · have hcount := length_offsets_ofFile [] heof (by simp)
    rw [List.append_nil] at hcount
    rw [length_lines] at hk
    refine iff_of_true (by omega) fun i hi text htext hmem => heof ?_
    exact (mem_iff_mem_lines newline).mpr ⟨text, List.mem_of_getElem? htext, hmem⟩

end Mull.Sources
