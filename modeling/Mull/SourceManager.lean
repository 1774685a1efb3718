import Mull.Lib.CString
import Mull.Lib.LineTable

/-!
# The lines of a source file

`getLineOffset` fills a table of the places where the lines of a file begin, and keeps it for
the next call.  `getLine` reads what stands between two entries of the table into a new buffer
and makes a string of it, up to the first zero byte.

The loop that fills the table compares a `char` with `EOF`, so that it ends at the first byte
`0xFF`.  If it gets to the end of the file, it counts one byte too many.  Then `getLine` takes
a byte for the last line that was never read, whatever the new buffer had there.
The lines are right for exactly the files without zero bytes where the loop ends behind the
last byte, or where the buffer has a zero byte in that place (`cuts_into_lines_iff`).
-/

namespace Mull.Sources

open CString LineTable

/-- `EOF`. -/
def eof : Int := -1

/-- The character `'\n'`. -/
def newline : UInt8 := 10

/-- The byte that is `EOF` as a `char`. -/
def eofByte : UInt8 := 255

/-- The conversion from what `fgetc` returns to a `char` of 8 bits with a sign. -/
def toChar (i : Int) : Int := Int.bmod i 256

/-- `++` on a `uint32_t`. -/
def increment (offset : Nat) : Nat := (offset + 1) % 4294967296

/-- `-` on `uint32_t`. -/
def subtract (a b : Nat) : Nat := (a + 4294967296 - b) % 4294967296

/-- What one round of the loop pushes. -/
def pushed (c : Int) (offset : Nat) : List Nat := if c = newline.toNat then [offset] else []

/-- The loop of `getLineOffset` at the character `c`, with the bytes behind it. -/
def scanOffsets (c : Int) (offset : Nat) : Bytes → List Nat
  | [] =>
    if c = eof then [offset]
    -- now `fgetc` returns `EOF`, and the offset is counted up with it
    else pushed c offset ++ [increment offset]
  | b :: rest =>
    if c = eof then [offset]
    else pushed c offset ++ scanOffsets (toChar b.toNat) (increment offset) rest

structure LineOffset where
  file : Bytes
  offsets : List Nat
deriving DecidableEq, Repr

/-- The table of a file that is opened. -/
def LineOffset.ofFile (file : Bytes) : LineOffset := ⟨file, scanOffsets newline.toNat 0 file⟩

/-- `offsets[index]`: an index below zero becomes a size that is behind every entry. -/
def LineOffset.entry (lineOffset : LineOffset) (index : Int) : Option Nat :=
  if index < 0 then none else lineOffset.offsets[index.toNat]?

/-- What is used of a `SourceLocation`. -/
structure SourceLocation where
  directory : Bytes
  filePath : Bytes
  line : Int
  column : Int
deriving DecidableEq, Repr

/-- The files that can be opened. -/
abbrev Files := Bytes → Option Bytes

/-- A `SourceManager` keeps the tables of files it has opened. -/
structure SourceManager (files : Files) where
  lineOffsets : List (Bytes × LineOffset)
  ofFiles : ∀ entry ∈ lineOffsets, (files entry.1).map LineOffset.ofFile = some entry.2

namespace SourceManager

variable {files : Files}

/-- A new `SourceManager`. -/
def empty (files : Files) : SourceManager files := ⟨[], by simp⟩

theorem ofFiles_cons {manager : SourceManager files} {path file : Bytes}
    (hfile : files path = some file) :
    ∀ entry ∈ (path, LineOffset.ofFile file) :: manager.lineOffsets,
      (files entry.1).map LineOffset.ofFile = some entry.2 := by
  intro entry hentry
  rcases List.mem_cons.mp hentry with rfl | hentry
  · simp [hfile]
  · exact manager.ofFiles entry hentry

/-- `getLineOffset`.  It has no result if the file cannot be opened: then `fgetc` gets a null
    pointer. -/
def getLineOffset (manager : SourceManager files) (location : SourceLocation) :
    Option (LineOffset × SourceManager files) :=
  match manager.lineOffsets.lookup location.filePath with
  | some lineOffset => some (lineOffset, manager)
  | none =>
    match hfile : files location.filePath with
    | none => none
    | some file =>
      some (LineOffset.ofFile file,
        ⟨(location.filePath, LineOffset.ofFile file) :: manager.lineOffsets, ofFiles_cons hfile⟩)

end SourceManager

/-- The buffer of `getLine`: what `fread` has stored, then what a new buffer has there, and the
    terminator. -/
def filledBuffer (read : Bytes) (fresh : Nat → UInt8) (lineLength : Nat) : Bytes :=
  read ++ (List.range' read.length (lineLength - read.length)).map fresh ++ [0]

/-- `getLine` behind the call of `getLineOffset`, with the bytes that the new buffer has. -/
def LineOffset.readLine (lineOffset : LineOffset) (line : Int) (fresh : Nat → UInt8) :
    Option Bytes :=
  if 0 ≤ line ∧ line < lineOffset.offsets.length then
    match lineOffset.entry (line - 1), lineOffset.entry line with
    | some lineBegin, some lineEnd =>
      let lineLength := subtract lineEnd lineBegin
      -- for the largest length `lineLength + 1` is zero, and nothing is allocated
      if lineLength < increment lineLength then
        some (cString (filledBuffer ((lineOffset.file.drop lineBegin).take lineLength) fresh
          lineLength))
      else none
    | _, _ => none
  else none

namespace SourceManager

variable {files : Files}

def getLine (manager : SourceManager files) (location : SourceLocation) (fresh : Nat → UInt8) :
    Option (Bytes × SourceManager files) := do
  let (lineOffset, manager) ← manager.getLineOffset location
  let line ← lineOffset.readLine location.line fresh
  some (line, manager)

def getNumberOfLines (manager : SourceManager files) (location : SourceLocation) :
    Option (Nat × SourceManager files) := do
  let (lineOffset, manager) ← manager.getLineOffset location
  if lineOffset.offsets.length > 0 then some (lineOffset.offsets.length - 1, manager) else none

/-- The tables that were kept change nothing. -/
theorem getLineOffset_fst (manager : SourceManager files) (location : SourceLocation) :
    (manager.getLineOffset location).map Prod.fst =
      (files location.filePath).map LineOffset.ofFile := by
  unfold getLineOffset
  split
  · rename_i lineOffset hlookup
    rcases List.lookup_eq_some_iff.mp hlookup with ⟨before, after, hlist, -⟩
    exact (manager.ofFiles (location.filePath, lineOffset) (by simp [hlist])).symm
  · split
    · rename_i hfile
      simp [hfile]
    · rename_i file hfile
      simp [hfile]

theorem exists_getLineOffset (manager : SourceManager files) {location : SourceLocation}
    {file : Bytes} (hfile : files location.filePath = some file) :
    ∃ manager', manager.getLineOffset location = some (LineOffset.ofFile file, manager') := by
  have hfst := manager.getLineOffset_fst location
  rw [hfile, Option.map_some, Option.map_eq_some_iff] at hfst
  rcases hfst with ⟨⟨lineOffset, manager'⟩, hresult, rfl⟩
  exact ⟨manager', hresult⟩

theorem getLine_fst (manager : SourceManager files) (location : SourceLocation) {file : Bytes}
    (hfile : files location.filePath = some file) (fresh : Nat → UInt8) :
    (manager.getLine location fresh).map Prod.fst =
      (LineOffset.ofFile file).readLine location.line fresh := by
  rcases manager.exists_getLineOffset hfile with ⟨manager', hresult⟩
  simp only [getLine, hresult, Option.bind_eq_bind, Option.bind_some]
  cases (LineOffset.ofFile file).readLine location.line fresh <;> rfl

end SourceManager

/-! ### What the loop finds -/

theorem toChar_eq_newline {b : UInt8} : toChar b.toNat = newline.toNat ↔ b = newline := by
  have hb := b.toNat_lt
  rw [← UInt8.toNat_inj]
  simp only [toChar, newline, Int.bmod_def, UInt8.reduceToNat]
  omega

theorem toChar_eq_eof {b : UInt8} : toChar b.toNat = eof ↔ b = eofByte := by
  have hb := b.toNat_lt
  rw [← UInt8.toNat_inj]
  simp only [toChar, eof, eofByte, Int.bmod_def, UInt8.reduceToNat]
  omega

theorem increment_mod (offset : Nat) :
    increment (offset % 4294967296) = (offset + 1) % 4294967296 := Nat.mod_add_mod offset _ 1

theorem pushed_mod (c : Int) (offset : Nat) :
    pushed c (offset % 4294967296) = (pushed c offset).map (· % 4294967296) := by
  unfold pushed
  split <;> rfl

theorem pushed_append_startsFrom (b : UInt8) (offset : Nat) (rest : Bytes) :
    pushed (toChar b.toNat) (offset + 1) ++ startsFrom newline (offset + 1) rest =
      startsFrom newline offset (b :: rest) := by
  simp only [pushed, toChar_eq_newline, startsFrom]
  split <;> rfl

/-- The loop goes on to the first byte that is `EOF`, or to the end of the file. -/
theorem scanOffsets_append {c : Int} {offset : Nat} {before tail : Bytes} (hc : c ≠ eof)
    (hbefore : eofByte ∉ before) (htail : ∀ b ∈ tail.head?, b = eofByte) :
    scanOffsets c (offset % 4294967296) (before ++ tail) =
      (pushed c offset ++ startsFrom newline offset before ++ [offset + before.length + 1]).map
        (· % 4294967296) := by
  induction before generalizing c offset with
  | nil =>
    cases tail with
    | nil => simp [scanOffsets, if_neg hc, increment_mod, pushed_mod, startsFrom]
    | cons b tail =>
      have hb : b = eofByte := htail b (by simp)
      have heof : ∀ position, scanOffsets eof position tail = [position] := by
        intro position
        cases tail <;> simp [scanOffsets]
      simp [scanOffsets, if_neg hc, increment_mod, pushed_mod, toChar_eq_eof.mpr hb, heof,
        startsFrom]
  | cons b before ih =>
    rcases not_or.mp (List.mem_cons.not.mp hbefore) with ⟨hb, hbefore⟩
    have hchar : toChar b.toNat ≠ eof := fun h => hb (toChar_eq_eof.mp h).symm
    have hlength : offset + (b :: before).length + 1 = offset + 1 + before.length + 1 := by
      rw [List.length_cons]
      omega
    rw [List.cons_append, scanOffsets, if_neg hc, increment_mod, ih hchar hbefore,
      pushed_append_startsFrom, pushed_mod, hlength, List.append_assoc, ← List.map_append]

/-- The table of a file whose bytes before the first `EOF` are known. -/
theorem offsets_ofFile_mod {before : Bytes} (tail : Bytes) (hbefore : eofByte ∉ before)
    (htail : ∀ b ∈ tail.head?, b = eofByte) :
    (LineOffset.ofFile (before ++ tail)).offsets =
      (starts newline before ++ [before.length + 1]).map (· % 4294967296) := by
  have hscan := @scanOffsets_append newline.toNat 0 before tail (by decide) hbefore htail
  rw [Nat.zero_mod, Nat.zero_add] at hscan
  exact hscan

theorem offsets_ofFile {before : Bytes} (tail : Bytes) (hbefore : eofByte ∉ before)
    (htail : ∀ b ∈ tail.head?, b = eofByte) (hlength : before.length + 1 < 4294967296) :
    (LineOffset.ofFile (before ++ tail)).offsets =
      starts newline before ++ [before.length + 1] := by
  rw [offsets_ofFile_mod tail hbefore htail]
  refine (List.map_congr_left fun offset hoffset => Nat.mod_eq_of_lt ?_).trans (List.map_id _)
  rcases List.mem_append.mp hoffset with hstart | hend
  · rcases List.mem_cons.mp hstart with rfl | hstart
    · omega
    · have hle := le_of_mem_startsFrom hstart
      omega
  · rw [List.mem_singleton.mp hend]
    exact hlength

/-! ### What is read for a line -/

theorem LineOffset.entry_natCast (lineOffset : LineOffset) (k : Nat) :
    lineOffset.entry k = lineOffset.offsets[k]? := by
  rw [entry, if_neg (by omega), Int.toNat_natCast]

/-- A line is read between two entries of the table. -/
theorem LineOffset.readLine_of_entries {lineOffset : LineOffset} {k start stop : Nat}
    (hstart : lineOffset.offsets[k]? = some start)
    (hstop : lineOffset.offsets[k + 1]? = some stop) (hle : start ≤ stop)
    (hlt : stop < 4294967296) (fresh : Nat → UInt8) :
    lineOffset.readLine (k + 1) fresh =
      if stop - start + 1 < 4294967296 then
        some (cString (filledBuffer ((lineOffset.file.drop start).take (stop - start)) fresh
          (stop - start)))
      else none := by
  have hindex : k + 1 < lineOffset.offsets.length := (List.getElem?_eq_some_iff.mp hstop).1
  have hbegin : lineOffset.entry ((k : Int) + 1 - 1) = some start := by
    rw [Int.add_sub_cancel, entry_natCast, hstart]
  have hend : lineOffset.entry ((k : Int) + 1) = some stop := by
    rw [← Int.natCast_succ, entry_natCast, hstop]
  have hlineLength : subtract stop start = stop - start := by
    unfold subtract
    omega
  have hassert : 0 ≤ (k : Int) + 1 ∧ (k : Int) + 1 < lineOffset.offsets.length := by omega
  have hallocated : stop - start < increment (stop - start) ↔ stop - start + 1 < 4294967296 := by
    unfold increment
    omega
  simp only [readLine, if_pos hassert, hbegin, hend, hlineLength, hallocated]

/-- The string of a buffer that was filled up to the terminator. -/
theorem cString_filledBuffer (text : Bytes) (fresh : Nat → UInt8) :
    cString (filledBuffer text fresh text.length) = cString text := by
  simp [filledBuffer, cString_append_zero]

/-- The string of a buffer with one byte that was not read. -/
theorem cString_filledBuffer_succ_eq_iff {text : Bytes} {fresh : Nat → UInt8} :
    cString (filledBuffer text fresh (text.length + 1)) = text ↔
      0 ∉ text ∧ fresh text.length = 0 := by
  have hbuffer : filledBuffer text fresh (text.length + 1) =
      text ++ [fresh text.length] ++ [0] := by
    simp [filledBuffer]
  rw [hbuffer, cString_append_zero]
  constructor
  · intro h
    have hzero : 0 ∉ text := h ▸ zero_notMem_cString _
    rw [cString_append_of_notMem hzero] at h
    by_cases hfresh : fresh text.length = 0
    · exact ⟨hzero, hfresh⟩
    · simp [cString, hfresh] at h
  · rintro ⟨hzero, hfresh⟩
    rw [cString_append_of_notMem hzero, hfresh]
    exact List.append_nil text

/-- With two entries of the table of a text, its line is read up to a zero byte. -/
theorem readLine_of_table {text : Bytes} (tail : Bytes) {offsets : List Nat} {k : Nat}
    (hk : k < (lines newline text).length) (hlength : text.length + 1 < 4294967296)
    (hstart : offsets[k]? = (table newline text)[k]?)
    (hstop : offsets[k + 1]? = (table newline text)[k + 1]?) (fresh : Nat → UInt8) :
    (LineOffset.mk (text ++ tail) offsets).readLine (k + 1) fresh =
      some (cString (lines newline text)[k]) := by
  rcases exists_table_slice hk with ⟨start, stop, htableStart, htableStop, hsum, hle, hslice⟩
  have hread : ((text ++ tail).drop start).take (stop - start) = (lines newline text)[k] := by
    rw [List.drop_append_of_le_length (by omega),
      List.take_append_of_le_length (by rw [List.length_drop]; omega), ← hslice]
    congr
    omega
  have hlineLength : stop - start = (lines newline text)[k].length := by omega
  rw [LineOffset.readLine_of_entries (hstart.trans htableStart) (hstop.trans htableStop)
    (by omega) (by omega), if_pos (by omega), hread, hlineLength, cString_filledBuffer]

/-- The last line of a file without `EOF` bytes: a byte behind the file belongs to it. -/
theorem readLine_last {file : Bytes} {k : Nat} (hk : k + 1 = (lines newline file).length)
    (hlength : file.length + 1 < 4294967296) (fresh : Nat → UInt8) :
    (LineOffset.mk file (starts newline file ++ [file.length + 1])).readLine (k + 1) fresh =
        some (lines newline file)[k] ↔
      0 ∉ (lines newline file)[k] ∧ fresh (lines newline file)[k].length = 0 ∧
        (lines newline file)[k].length + 2 < 4294967296 := by
  obtain ⟨start, stop, htableStart, htableStop, hsum, hle, hslice⟩ :=
    exists_table_slice (show k < (lines newline file).length by omega)
  have hstop : stop = file.length := by
    rw [hk, table, starts_append_getElem?_length] at htableStop
    exact (Option.some.inj htableStop).symm
  have hstart : (starts newline file ++ [file.length + 1])[k]? = some start := by
    rw [starts_append_getElem? (by omega), htableStart]
  have hlast : (starts newline file ++ [file.length + 1])[k + 1]? = some (file.length + 1) := by
    rw [hk, starts_append_getElem?_length]
  have hlineLength : file.length + 1 - start = (lines newline file)[k].length + 1 := by omega
  have hread : (file.drop start).take ((lines newline file)[k].length + 1) =
      (lines newline file)[k] := by
    have hrest : (file.drop start).length = (lines newline file)[k].length := by
      rw [List.length_drop]
      omega
    rw [List.take_of_length_le (by omega)] at hslice ⊢
    exact hslice
  rw [LineOffset.readLine_of_entries hstart hlast (by omega) (by omega), hlineLength, hread]
  split
  · rename_i hfits
    rw [Option.some.injEq, cString_filledBuffer_succ_eq_iff]
    constructor
    · rintro ⟨hzero, hfresh⟩
      exact ⟨hzero, hfresh, by omega⟩
    · rintro ⟨hzero, hfresh, -⟩
      exact ⟨hzero, hfresh⟩
  · rename_i hfits
    constructor
    · intro h
      cases h
    · rintro ⟨-, -, hfits'⟩
      omega

/-! ### The lines of a file -/

/-- What `getLine` returns for the line `k + 1`, if the new buffer has the bytes `fresh k`. -/
def SourceManager.lineText {files : Files} (manager : SourceManager files)
    (location : SourceLocation) (fresh : Nat → Nat → UInt8) (k : Nat) : Option Bytes :=
  (manager.getLine { location with line := (k : Int) + 1 } (fresh k)).map Prod.fst

/-- `getNumberOfLines` and `getLine` cut a file into its lines. -/
structure CutsIntoLines {files : Files} (manager : SourceManager files) (location : SourceLocation)
    (file : Bytes) (fresh : Nat → Nat → UInt8) : Prop where
  number : (manager.getNumberOfLines location).map Prod.fst = some (file.count newline + 1)
  line : ∀ k (hk : k < (lines newline file).length),
    manager.lineText location fresh k = some (lines newline file)[k]
  whole : ((List.range (file.count newline + 1)).map fun k =>
    (manager.lineText location fresh k).getD []).flatten = file

/-- The last line of a file: it has no newline. -/
def lastLine (file : Bytes) : Bytes := (lines newline file).getLast (lines_ne_nil newline file)

/-- No string ends too early, and the loop stops behind the last byte.  Either that is an `EOF`
    byte, or the byte that is read too much ends the string. -/
def Readable (file : Bytes) (fresh : Nat → Nat → UInt8) : Prop :=
  0 ∉ file ∧
    ((∃ before, file = before ++ [eofByte] ∧ eofByte ∉ before) ∨
      eofByte ∉ file ∧ fresh (file.count newline) (lastLine file).length = 0 ∧
        (lastLine file).length + 2 < 4294967296)

section CutsIntoLines

variable {files : Files} {manager : SourceManager files} {location : SourceLocation}
  {file : Bytes} {fresh : Nat → Nat → UInt8}

theorem cutsIntoLines_iff_table (hfile : files location.filePath = some file) :
    CutsIntoLines manager location file fresh ↔
      (LineOffset.ofFile file).offsets.length = file.count newline + 2 ∧
        ∀ k (hk : k < (lines newline file).length),
          (LineOffset.ofFile file).readLine (k + 1) (fresh k) = some (lines newline file)[k] := by
  have hnumber : (manager.getNumberOfLines location).map Prod.fst =
        some (file.count newline + 1) ↔
      (LineOffset.ofFile file).offsets.length = file.count newline + 2 := by
    rcases manager.exists_getLineOffset hfile with ⟨manager', hresult⟩
    simp only [SourceManager.getNumberOfLines, hresult, Option.bind_eq_bind, Option.bind_some]
    split
    · simp
    · rename_i hpos
      simp
      omega
  have hline (k : Nat) : manager.lineText location fresh k =
      (LineOffset.ofFile file).readLine (k + 1) (fresh k) :=
    manager.getLine_fst { location with line := (k : Int) + 1 } hfile (fresh k)
  constructor
  · rintro ⟨hcount, hlines, -⟩
    refine ⟨hnumber.mp hcount, ?_⟩
    intro k hk
    rw [← hline, hlines k hk]
  · rintro ⟨hcount, hlines⟩
    refine ⟨hnumber.mpr hcount, fun k hk => by rw [hline, hlines k hk], ?_⟩
    have hmap : ((List.range (file.count newline + 1)).map fun k =>
        (manager.lineText location fresh k).getD []) = lines newline file := by
      apply List.ext_getElem
      · simp [length_lines]
      · intro k hk hk'
        simp [hline, hlines k hk']
    rw [hmap, flatten_lines]

/-- A line with its two entries in the table is right if it has no zero byte. -/
theorem readLine_eq_line_iff {k : Nat} (hk : k < (lines newline file).length)
    (hlength : file.length + 1 < 4294967296)
    (hstart : (LineOffset.ofFile file).offsets[k]? = (table newline file)[k]?)
    (hstop : (LineOffset.ofFile file).offsets[k + 1]? = (table newline file)[k + 1]?)
    (fresh : Nat → UInt8) :
    (LineOffset.ofFile file).readLine (k + 1) fresh = some (lines newline file)[k] ↔
      0 ∉ (lines newline file)[k] := by
  have hread := readLine_of_table [] hk hlength hstart hstop fresh
  rw [List.append_nil] at hread
  exact (Eq.congr_left hread).trans (Option.some_inj.trans cString_eq_self_iff)

/-- Every line is read up to a zero byte if the table ends behind the last byte. -/
theorem cutsIntoLines_iff_of_table (hfile : files location.filePath = some file)
    (hlength : file.length + 1 < 4294967296)
    (htable : (LineOffset.ofFile file).offsets = table newline file) :
    CutsIntoLines manager location file fresh ↔ 0 ∉ file := by
  have hread (k : Nat) (hk : k < (lines newline file).length) :=
    readLine_eq_line_iff hk hlength (congrArg (·[k]?) htable) (congrArg (·[k + 1]?) htable)
      (fresh k)
  rw [cutsIntoLines_iff_table hfile, notMem_iff_lines newline]
  constructor
  · rintro ⟨-, hlines⟩ k hk
    exact (hread k hk).mp (hlines k hk)
  · intro hzero
    exact ⟨by simp [htable, table], fun k hk => (hread k hk).mpr (hzero k hk)⟩

/-- Without `EOF` bytes the last line needs a zero byte in the new buffer. -/
theorem cutsIntoLines_iff_of_noEof (hfile : files location.filePath = some file)
    (hlength : file.length + 1 < 4294967296) (heof : eofByte ∉ file) :
    CutsIntoLines manager location file fresh ↔
      0 ∉ file ∧ fresh (file.count newline) (lastLine file).length = 0 ∧
        (lastLine file).length + 2 < 4294967296 := by
  have hoffsets : LineOffset.ofFile file =
      ⟨file, starts newline file ++ [file.length + 1]⟩ := by
    have h := offsets_ofFile [] heof (by simp) hlength
    rw [List.append_nil] at h
    rw [← h]
    rfl
  have hlines := length_lines newline file
  have hlast : (lines newline file)[file.count newline] = lastLine file := by
    simp only [lastLine, List.getLast_eq_getElem, hlines, Nat.add_sub_cancel]
  have hlastRead := readLine_last hlines.symm hlength (fresh (file.count newline))
  have hentry (k : Nat) (hk : k < (lines newline file).length) :
      (LineOffset.ofFile file).offsets[k]? = (table newline file)[k]? := by
    rw [hoffsets, starts_append_getElem? hk]
  have hread (k : Nat) (hk : k + 1 < (lines newline file).length) :=
    readLine_eq_line_iff (Nat.lt_of_succ_lt hk) hlength (hentry k (Nat.lt_of_succ_lt hk))
      (hentry (k + 1) hk) (fresh k)
  rw [cutsIntoLines_iff_table hfile, notMem_iff_lines newline, ← hlast]
  rw [← hoffsets] at hlastRead
  constructor
  · rintro ⟨-, hall⟩
    rcases hlastRead.mp (hall _ (by omega)) with ⟨hzero, hfresh⟩
    refine ⟨?_, hfresh⟩
    intro k hk
    by_cases hbefore : k + 1 < (lines newline file).length
    · exact (hread k hbefore).mp (hall k hk)
    · obtain rfl : k = file.count newline := by omega
      exact hzero
  · rintro ⟨hzero, hfresh⟩
    refine ⟨by rw [hoffsets]; simp, ?_⟩
    intro k hk
    by_cases hbefore : k + 1 < (lines newline file).length
    · exact (hread k hbefore).mpr (hzero k hk)
    · obtain rfl : k = file.count newline := by omega
      exact hlastRead.mpr ⟨hzero _ hk, hfresh⟩

/-- A table that ends behind an `EOF` byte. -/
theorem table_ofFile {before : Bytes} (after : Bytes) (hbefore : eofByte ∉ before)
    (hlength : before.length + 1 < 4294967296) :
    (LineOffset.ofFile (before ++ eofByte :: after)).offsets =
      table newline (before ++ [eofByte]) := by
  have hstarts : ∀ position, startsFrom newline position (before ++ [eofByte]) =
      startsFrom newline position before := by
    clear hbefore hlength
    induction before with
    | nil => intro position; rfl
    | cons b before ih =>
      intro position
      rw [List.cons_append, startsFrom, startsFrom, ih]
  rw [offsets_ofFile _ hbefore (by simp) hlength, table, starts, starts, hstarts]
  simp

/-- Bytes behind the first `EOF` byte are not read. -/
theorem not_cutsIntoLines_of_eof {before after : Bytes}
    (hfile : files location.filePath = some (before ++ eofByte :: after))
    (hlength : (before ++ eofByte :: after).length + 1 < 4294967296)
    (hbefore : eofByte ∉ before) (hafter : after ≠ []) :
    ¬ CutsIntoLines manager location (before ++ eofByte :: after) fresh := by
  rw [cutsIntoLines_iff_table hfile]
  rw [List.length_append, List.length_cons] at hlength
  have htable := table_ofFile after hbefore (by omega)
  have hsplit : before ++ eofByte :: after = (before ++ [eofByte]) ++ after := by simp
  rintro ⟨hcount, hlines⟩
  rw [htable] at hcount
  have hnoNewline : newline ∉ after := by
    rw [table, List.length_append, length_starts, hsplit] at hcount
    simp only [List.count_append, List.length_singleton] at hcount
    rw [← List.count_eq_zero]
    omega
  have hlengthLines := length_lines newline (before ++ [eofByte])
  obtain ⟨k, hk⟩ : ∃ k, k + 1 = (lines newline (before ++ [eofByte])).length :=
    ⟨_, hlengthLines.symm⟩
  have hbound : k < (lines newline (before ++ [eofByte])).length := by omega
  have hlast : (lines newline (before ++ [eofByte]))[k] =
      (lines newline (before ++ [eofByte])).getLast (lines_ne_nil _ _) := by
    simp only [List.getLast_eq_getElem, ← hk, Nat.add_sub_cancel]
  -- the last line is longer than what the table knows of it
  have hlonger : (lines newline (before ++ eofByte :: after))[k]? =
      some ((lines newline (before ++ [eofByte]))[k] ++ after) := by
    rw [hsplit, lines_append _ (lines_of_not_mem hnoNewline),
      List.getElem?_append_right (by simp; omega), hlast]
    simp [← hk]
  rcases List.getElem?_eq_some_iff.mp hlonger with ⟨hk', hline⟩
  have hread := readLine_of_table after hbound (by simp; omega) (congrArg (·[k]?) htable)
    (congrArg (·[k + 1]?) htable) (fresh k)
  rw [← hsplit] at hread
  have hcut := Option.some.inj (hread.symm.trans (hlines k hk'))
  rw [hline] at hcut
  have hle := length_cString_le (lines newline (before ++ [eofByte]))[k]
  have hpos := List.length_pos_iff.mpr hafter
  rw [hcut, List.length_append] at hle
  omega

/-- The lines of a file are right for exactly the readable files. -/
theorem cuts_into_lines_iff (manager : SourceManager files) (location : SourceLocation)
    (file : Bytes) (fresh : Nat → Nat → UInt8) (hfile : files location.filePath = some file)
    (hlength : file.length < 4294967295) :
    CutsIntoLines manager location file fresh ↔ Readable file fresh := by
  by_cases heof : eofByte ∈ file
  · rcases List.eq_append_cons_of_mem heof with ⟨before, after, rfl, hbefore⟩
    by_cases hafter : after = []
    · subst hafter
      have hbytes : before.length + 1 < 4294967296 := by
        rw [List.length_append] at hlength
        omega
      rw [cutsIntoLines_iff_of_table hfile (by omega) (table_ofFile [] hbefore hbytes)]
      exact ⟨fun hzero => ⟨hzero, .inl ⟨before, rfl, hbefore⟩⟩, fun h => h.1⟩
    · refine iff_of_false (not_cutsIntoLines_of_eof hfile (by omega) hbefore hafter) ?_
      rintro ⟨-, ⟨before', hbytes, hbefore'⟩ | ⟨hnoEof, -⟩⟩
      · -- the first `EOF` byte is not the last byte
        have hdrop := congrArg List.dropLast hbytes
        rw [List.dropLast_append_of_ne_nil (by simp), List.dropLast_cons_of_ne_nil hafter,
          List.dropLast_concat] at hdrop
        exact hbefore' (hdrop ▸ by simp)
      · exact hnoEof heof
  · rw [cutsIntoLines_iff_of_noEof hfile (by omega) heof]
    constructor
    · rintro ⟨hzero, hlast⟩
      exact ⟨hzero, .inr ⟨heof, hlast⟩⟩
    · rintro ⟨hzero, ⟨before, rfl, -⟩ | ⟨-, hlast⟩⟩
      · exact absurd (by simp) heof
      · exact ⟨hzero, hlast⟩

/-- Every path leads to one file. -/
def oneFile (file : Bytes) : Files := fun _ => some file

theorem cuts_into_lines_twoLines :
    CutsIntoLines (.empty (oneFile [97, 98, 10, 99])) ⟨[], [102], 1, 1⟩ [97, 98, 10, 99]
      (fun _ _ => 0) :=
  (cuts_into_lines_iff (.empty (oneFile [97, 98, 10, 99])) ⟨[], [102], 1, 1⟩ [97, 98, 10, 99] _ rfl
    (by decide)).mpr ⟨by decide, .inr ⟨by decide, rfl, by decide⟩⟩

/-- A byte `0xFF` in the first of two lines: there seems to be one line. -/
theorem not_cuts_into_lines_eofByte :
    ¬ ∃ fresh, CutsIntoLines (.empty (oneFile [97, 255, 98, 10, 99])) ⟨[], [102], 1, 1⟩
      [97, 255, 98, 10, 99] fresh := by
  rintro ⟨fresh, h⟩
  exact absurd h.number (by decide)

end CutsIntoLines

end Mull.Sources
