import Mathlib.Data.List.Induction
import Mull.Lib.CString
import Mull.Lib.Words

/-!
# The dynamic libraries of an executable

Before the tests are run mull loads the libraries that the tested executable needs.  In an ELF
file they are named by entries of the dynamic section, which has words of 32 or 64 bits and
either byte order.  The entries end with one that has the tag `DT_NULL`; `librariesFromElf`
reads the section to its end instead.  So mull finds what the executable needs if and only if no
library behind that entry is there to be found (`finds_needed_iff`).
-/

namespace Mull.DynamicLibraries

open CString Words

/-! ### ELF files -/

/-- The instance of the template `ELFObjectFile`. -/
structure ElfType where
  is64 : Bool
  bigEndian : Bool
deriving DecidableEq, Repr

def ElfType.wordSize (t : ElfType) : Nat := if t.is64 then 8 else 4

structure Section where
  type : Nat
  name : Bytes
  content : Bytes
deriving DecidableEq, Repr

def SHT_STRTAB : Nat := 3
def SHT_DYNAMIC : Nat := 6
def DT_NULL : Nat := 0
def DT_NEEDED : Nat := 1

def dynstr : Bytes := ".dynstr".toUTF8.toList

/-- `Elf_Dyn_Base`. -/
structure DynamicEntry where
  tag : Nat
  val : Nat
deriving DecidableEq, Repr

/-- The size of an entry. -/
def ElfType.entrySize (t : ElfType) : Nat := 2 * t.wordSize

/-- An entry from a copy of its bytes. -/
def ElfType.readEntry (t : ElfType) (bytes : Bytes) : DynamicEntry where
  tag := decode t.bigEndian (bytes.take t.wordSize)
  val := decode t.bigEndian (bytes.drop t.wordSize)

/-- The string at an offset of a string table; `none` if it does not end there. -/
def stringAt (stringTable : Bytes) (offset : Nat) : Option Bytes :=
  if 0 ∈ stringTable.drop offset then some (cString (stringTable.drop offset)) else none

/-- The loop over the sections: of several that fit, the last one is taken. -/
def findSections (sections : List Section) : Option Section × Option Section :=
  sections.foldl (fun (stringTable, dynamicSection) elfSection =>
    (if elfSection.type = SHT_STRTAB ∧ elfSection.name = dynstr then some elfSection else stringTable,
      if elfSection.type = SHT_DYNAMIC then some elfSection else dynamicSection)) (none, none)

/-- One turn of the loop over the entries. -/
def readLibrary (stringTable : Bytes) (libraries : List Bytes) (dynamicEntry : DynamicEntry) :
    Option (List Bytes) :=
  if dynamicEntry.tag = DT_NEEDED then
    (stringAt stringTable dynamicEntry.val).map fun library => libraries ++ [library]
  else some libraries

/-- `none` where an assertion fails or something outside of the sections is read. -/
def librariesFromElf (t : ElfType) (sections : List Section) : Option (List Bytes) :=
  match findSections sections with
  | (some stringTable, some dynamicSection) =>
      if dynamicSection.content.length % t.entrySize = 0 then
        ((slices t.entrySize dynamicSection.content).map t.readEntry).foldlM
          (readLibrary stringTable.content) []
      else none
  | _ => none

/-! ### Search paths -/

/-- The paths at which there is a file. -/
abbrev FileSystem := Bytes → Bool

def slash : UInt8 := 47

def isAbsolute (path : Bytes) : Bool := path.head? = some slash

def resolveLibraryPath (existing : FileSystem) (librarySearchPaths : List Bytes) (library : Bytes) :
    Bytes :=
  if isAbsolute library then library
  else ((librarySearchPaths.map fun searchPath => searchPath ++ slash :: library).find? existing).getD
    library

/-- A library that is not found is left out, with a warning. -/
def resolveLibraries (existing : FileSystem) (librarySearchPaths : List Bytes)
    (libraries : List Bytes) : List Bytes :=
  (libraries.map (resolveLibraryPath existing librarySearchPaths)).filter existing

def findDynamicLibraries (existing : FileSystem) (librarySearchPaths : List Bytes) (t : ElfType)
    (sections : List Section) : Option (List Bytes) :=
  (librariesFromElf t sections).map (resolveLibraries existing librarySearchPaths)

/-! ### What an executable needs -/

/-- The bytes of an entry. -/
def ElfType.encodeEntry (t : ElfType) (entry : DynamicEntry) : Bytes :=
  encode t.bigEndian t.wordSize entry.tag ++ encode t.bigEndian t.wordSize entry.val

/-- The libraries named by entries. -/
def neededLibraries (stringTable : Bytes) (entries : List DynamicEntry) : List Bytes :=
  (entries.filter fun entry => entry.tag = DT_NEEDED).filterMap fun entry =>
    stringAt stringTable entry.val

/-- The entries that count. -/
def active (entries : List DynamicEntry) : List DynamicEntry :=
  entries.takeWhile fun entry => entry.tag ≠ DT_NULL

/-- What stands behind them. -/
def inactive (entries : List DynamicEntry) : List DynamicEntry :=
  entries.dropWhile fun entry => entry.tag ≠ DT_NULL

def IsDynstr (elfSection : Section) : Prop := elfSection.type = SHT_STRTAB ∧ elfSection.name = dynstr

instance (elfSection : Section) : Decidable (IsDynstr elfSection) :=
  inferInstanceAs (Decidable (_ ∧ _))

/-- An executable with one dynamic section, which has these entries, and one table of the names. -/
structure Executable (t : ElfType) (sections : List Section) (stringTable : Bytes)
    (entries : List DynamicEntry) : Prop where
  exists_stringTable : ∃ elfSection ∈ sections, IsDynstr elfSection
  names : ∀ elfSection ∈ sections, IsDynstr elfSection → elfSection.content = stringTable
  exists_dynamic : ∃ elfSection ∈ sections, elfSection.type = SHT_DYNAMIC
  dynamic : ∀ elfSection ∈ sections, elfSection.type = SHT_DYNAMIC →
    elfSection.content = (entries.map t.encodeEntry).flatten
  fits : ∀ entry ∈ entries, entry.tag < 256 ^ t.wordSize ∧ entry.val < 256 ^ t.wordSize
  named : ∀ entry ∈ entries, entry.tag = DT_NEEDED → (stringAt stringTable entry.val).isSome

theorem findSections_eq (sections : List Section) :
    findSections sections = ((sections.filter fun elfSection => IsDynstr elfSection).getLast?,
      (sections.filter fun elfSection => elfSection.type = SHT_DYNAMIC).getLast?) := by
  induction sections using List.reverseRecOn with
  | nil => rfl
  | append_singleton sections elfSection ih =>
      rw [findSections, List.foldl_concat, ← findSections, ih, List.filter_append, List.filter_append,
        List.filter_singleton, List.filter_singleton]
      refine Prod.ext ?_ ?_
      · by_cases h : IsDynstr elfSection
        · simp [h, show elfSection.type = SHT_STRTAB ∧ elfSection.name = dynstr from h]
        · simp [h, show ¬ (elfSection.type = SHT_STRTAB ∧ elfSection.name = dynstr) from h]
      · by_cases h : elfSection.type = SHT_DYNAMIC <;> simp [h]

theorem exists_getLast_filter {p : Section → Bool} {sections : List Section}
    (h : ∃ elfSection ∈ sections, p elfSection = true) :
    ∃ elfSection ∈ sections, (sections.filter p).getLast? = some elfSection ∧ p elfSection = true := by
  obtain ⟨found, hmem, hp⟩ := h
  have hne : sections.filter p ≠ [] := List.ne_nil_of_mem (List.mem_filter.mpr ⟨hmem, hp⟩)
  obtain ⟨hmem', hp'⟩ := List.mem_filter.mp (List.getLast_mem hne)
  exact ⟨_, hmem', List.getLast?_eq_some_getLast hne, hp'⟩

theorem length_encodeEntry (t : ElfType) (entry : DynamicEntry) :
    (t.encodeEntry entry).length = t.entrySize := by
  rw [ElfType.encodeEntry, List.length_append, length_encode, length_encode, ElfType.entrySize]
  omega

theorem entrySize_pos (t : ElfType) : 0 < t.entrySize := by
  unfold ElfType.entrySize ElfType.wordSize
  split <;> decide

/-- An entry is read as it was written, for both sizes of words and both byte orders. -/
theorem readEntry_encodeEntry {t : ElfType} {entry : DynamicEntry}
    (h : entry.tag < 256 ^ t.wordSize ∧ entry.val < 256 ^ t.wordSize) :
    t.readEntry (t.encodeEntry entry) = entry := by
  have hlength := length_encode t.bigEndian t.wordSize entry.tag
  rw [ElfType.readEntry, ElfType.encodeEntry, List.take_left' hlength, List.drop_left' hlength,
    decode_encode t.bigEndian h.1, decode_encode t.bigEndian h.2]

theorem foldlM_readLibrary {stringTable : Bytes} {entries : List DynamicEntry} (libraries : List Bytes)
    (h : ∀ entry ∈ entries, entry.tag = DT_NEEDED → (stringAt stringTable entry.val).isSome) :
    entries.foldlM (readLibrary stringTable) libraries =
      some (libraries ++ neededLibraries stringTable entries) := by
  induction entries generalizing libraries with
  | nil => simp [neededLibraries]
  | cons entry entries ih =>
      have hrest := fun libraries => ih libraries fun other hother =>
        h other (List.mem_cons_of_mem _ hother)
      rw [List.foldlM_cons, readLibrary]
      by_cases hneeded : entry.tag = DT_NEEDED
      · obtain ⟨library, hlibrary⟩ := Option.isSome_iff_exists.mp (h entry List.mem_cons_self hneeded)
        rw [if_pos hneeded, hlibrary]
        refine (hrest _).trans ?_
        simp [neededLibraries, hneeded, hlibrary]
      · rw [if_neg hneeded]
        refine (hrest _).trans ?_
        simp [neededLibraries, hneeded]

variable {t : ElfType} {sections : List Section} {stringTable : Bytes} {entries : List DynamicEntry}

/-- All entries are read. -/
theorem Executable.librariesFromElf_eq (h : Executable t sections stringTable entries) :
    librariesFromElf t sections = some (neededLibraries stringTable entries) := by
  obtain ⟨dynstrSection, hmem, hfound, hdynstr⟩ := exists_getLast_filter
    (p := fun elfSection => decide (IsDynstr elfSection)) (by simpa using h.exists_stringTable)
  obtain ⟨dynamicSection, hmem', hfound', hdynamic⟩ := exists_getLast_filter
    (p := fun elfSection => decide (elfSection.type = SHT_DYNAMIC)) (by simpa using h.exists_dynamic)
  have hcontent := h.dynamic dynamicSection hmem' (of_decide_eq_true hdynamic)
  have hlengths : ∀ bytes ∈ entries.map t.encodeEntry, bytes.length = t.entrySize := by
    intro bytes hbytes
    obtain ⟨entry, -, rfl⟩ := List.mem_map.mp hbytes
    exact length_encodeEntry t entry
  have hread : (slices t.entrySize dynamicSection.content).map t.readEntry = entries := by
    rw [hcontent, slices_flatten (entrySize_pos t) hlengths, List.map_map]
    refine (List.map_congr_left fun entry hentry => ?_).trans (List.map_id entries)
    exact readEntry_encodeEntry (h.fits entry hentry)
  have hsize : dynamicSection.content.length % t.entrySize = 0 := by
    rw [hcontent, length_flatten_of hlengths, Nat.mul_mod_left]
  rw [librariesFromElf, findSections_eq, hfound, hfound']
  simp only
  rw [if_pos hsize, hread, h.names dynstrSection hmem (of_decide_eq_true hdynstr),
    foldlM_readLibrary [] h.named, List.nil_append]

/-- **The libraries that are found are those the executable needs,** exactly if nothing is found
    of what is named behind the end of the entries. -/
theorem finds_needed_iff (h : Executable t sections stringTable entries) (existing : FileSystem)
    (librarySearchPaths : List Bytes) :
    findDynamicLibraries existing librarySearchPaths t sections =
        some (resolveLibraries existing librarySearchPaths
          (neededLibraries stringTable (active entries))) ↔
      ∀ library ∈ neededLibraries stringTable (inactive entries),
        existing (resolveLibraryPath existing librarySearchPaths library) = false := by
  have hsplit : neededLibraries stringTable entries =
      neededLibraries stringTable (active entries) ++
        neededLibraries stringTable (inactive entries) := by
    have hentries : entries = active entries ++ inactive entries :=
      List.takeWhile_append_dropWhile.symm
    conv_lhs => rw [hentries]
    rw [neededLibraries, List.filter_append, List.filterMap_append]
    rfl
  rw [findDynamicLibraries, h.librariesFromElf_eq, Option.map_some, Option.some_inj, hsplit,
    resolveLibraries, List.map_append, List.filter_append, ← resolveLibraries,
    List.append_right_eq_self, List.filter_eq_nil_iff, List.forall_mem_map]
  simp


/-- The names `libm` and `libc`. -/
def libraryNames : Bytes := [0, 108, 105, 98, 109, 0, 108, 105, 98, 99, 0]

/-- An executable of 32 bits that needs them, with the highest byte first. -/
def smallExecutable : List Section :=
  [⟨SHT_STRTAB, dynstr, libraryNames⟩,
    ⟨SHT_DYNAMIC, [], ([⟨1, 1⟩, ⟨1, 6⟩, ⟨0, 0⟩].map
      (ElfType.encodeEntry ⟨false, true⟩)).flatten⟩]

theorem executable_small :
    Executable ⟨false, true⟩ smallExecutable libraryNames [⟨1, 1⟩, ⟨1, 6⟩, ⟨0, 0⟩] := by
  constructor <;> decide +kernel

theorem finds_needed_small :
    findDynamicLibraries (fun path => path = slash :: [108, 105, 98, 109]) [[]] ⟨false, true⟩
        smallExecutable =
      some (resolveLibraries (fun path => path = slash :: [108, 105, 98, 109]) [[]]
        (neededLibraries libraryNames (active [⟨1, 1⟩, ⟨1, 6⟩, ⟨0, 0⟩]))) :=
  (finds_needed_iff executable_small _ _).mpr (by decide)


end Mull.DynamicLibraries
