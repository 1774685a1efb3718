import Mathlib.Data.List.Basic
import Mull.Lib.CString

/-!
# Capturing the output of a child

`Pipe::capture` reads the pipe in pieces of at most seven bytes into a buffer of eight, puts a
terminator behind what it has read, and appends the buffer as a C string, until a read returns
nothing.

A zero byte in a piece ends its string, so that the rest of the piece is lost.  A read that is
interrupted returns `-1`, and the terminator is written before the buffer.  Otherwise the
captured output is the written output (`capture_eq_written_iff`).
-/

namespace Mull.PipeCapture

open CString

/-- `char buffer[8]`. -/
structure Buffer where
  contents : Bytes
  length_contents : contents.length = 8
deriving DecidableEq, Repr

/-- What a read stores if it returns with data. -/
structure Piece where
  contents : Bytes
  pos : 0 < contents.length
  le : contents.length ≤ 7
deriving DecidableEq, Repr

/-- A call of `read` before the end of the data. -/
inductive Read where
  | data (piece : Piece)
  | interrupted
deriving DecidableEq, Repr

/-- What the call returns. -/
def Read.count : Read → Int
  | .data piece => piece.contents.length
  | .interrupted => -1

/-- What the call stores. -/
def Read.contents : Read → Bytes
  | .data piece => piece.contents
  | .interrupted => []

theorem Read.length_contents_le (read : Read) : read.contents.length ≤ 8 := by
  cases read with
  | data piece => exact Nat.le_succ_of_le piece.le
  | interrupted => exact Nat.zero_le 8

/-- The calls of `read` in which the written bytes come, one after another.  Behind them every
    call returns zero. -/
structure Reads (written : Bytes) where
  calls : List Read
  contents_calls : calls.flatMap Read.contents = written

theorem length_store {buffer : Buffer} {contents : Bytes} (h : contents.length ≤ 8) :
    (contents ++ buffer.contents.drop contents.length).length = 8 := by
  rw [List.length_append, List.length_drop, buffer.length_contents]
  omega

/-- `read` into the buffer. -/
def Buffer.store (buffer : Buffer) (read : Read) : Buffer :=
  ⟨read.contents ++ buffer.contents.drop read.contents.length,
    length_store read.length_contents_le⟩

theorem length_set {buffer : Buffer} {index : Nat} :
    (buffer.contents.set index 0).length = 8 := by
  rw [List.length_set, buffer.length_contents]

/-- `buffer[count] = '\0'`, if that is in the buffer. -/
def Buffer.terminate (buffer : Buffer) (count : Int) : Option Buffer :=
  if 0 ≤ count ∧ count < 8 then some ⟨buffer.contents.set count.toNat 0, length_set⟩ else none

/-- The loop of `capture`, from the next call of `read` on. -/
def captureFrom (output : Bytes) (buffer : Buffer) : List Read → Option Bytes
  | [] => do
    -- the count is zero, and the loop ends
    let _ ← buffer.terminate 0
    some output
  | read :: reads => do
    let buffer ← (buffer.store read).terminate read.count
    if read.count > 0 then captureFrom (output ++ cString buffer.contents) buffer reads
    else some output

/-- `capture`.  It has no result if it writes outside its buffer. -/
def capture (shouldCapture : Bool) (buffer : Buffer) (reads : List Read) : Option Bytes :=
  if shouldCapture then captureFrom [] buffer reads else some []

/-- A piece is appended up to its first zero byte. -/
theorem exists_terminate_store (buffer : Buffer) (piece : Piece) :
    ∃ buffer', (buffer.store (.data piece)).terminate (Read.data piece).count = some buffer' ∧
      cString buffer'.contents = cString piece.contents := by
  have hlength := buffer.length_contents
  have hle := piece.le
  have hindex : 0 ≤ (Read.data piece).count ∧ (Read.data piece).count < 8 := by
    simp only [Read.count]
    omega
  refine ⟨_, if_pos hindex, ?_⟩
  obtain ⟨b, rest, hrest⟩ : ∃ b rest, buffer.contents.drop piece.contents.length = b :: rest :=
    List.exists_cons_of_length_pos (by rw [List.length_drop]; omega)
  simp only [Buffer.store, Read.contents, Read.count, Int.toNat_natCast, hrest]
  rw [List.set_append_right _ _ (Nat.le_refl _), Nat.sub_self, List.set_cons_zero,
    cString_append_zero]

/-- An interrupted read writes before the buffer. -/
theorem captureFrom_interrupted {output : Bytes} {buffer : Buffer} {reads : List Read}
    (h : .interrupted ∈ reads) : captureFrom output buffer reads = none := by
  induction reads generalizing output buffer with
  | nil => cases h
  | cons read reads ih =>
    cases read with
    | data piece =>
      rcases exists_terminate_store buffer piece with ⟨buffer', hbuffer, -⟩
      have hrest : .interrupted ∈ reads := by simpa using h
      have hpos : (Read.data piece).count > 0 := Int.natCast_pos.mpr piece.pos
      rw [captureFrom, hbuffer, Option.bind_eq_bind, Option.bind_some, if_pos hpos, ih hrest]
    | interrupted => rfl

/-- Without interruptions the strings of the pieces are appended. -/
theorem captureFrom_data {output : Bytes} {buffer : Buffer} {reads : List Read}
    (h : .interrupted ∉ reads) :
    captureFrom output buffer reads =
      some (output ++ reads.flatMap fun read => cString read.contents) := by
  induction reads generalizing output buffer with
  | nil => exact congrArg some (List.append_nil output).symm
  | cons read reads ih =>
    rcases not_or.mp (List.mem_cons.not.mp h) with ⟨hread, hrest⟩
    cases read with
    | data piece =>
      rcases exists_terminate_store buffer piece with ⟨buffer', hbuffer, hcString⟩
      have hpos : (Read.data piece).count > 0 := Int.natCast_pos.mpr piece.pos
      rw [captureFrom, hbuffer, Option.bind_eq_bind, Option.bind_some, if_pos hpos, ih hrest,
        hcString, List.append_assoc]
      rfl
    | interrupted => exact absurd rfl hread

/-- The captured output is the written output if no read is interrupted and no byte is zero. -/
theorem capture_eq_written_iff (buffer : Buffer) (written : Bytes) (reads : Reads written) :
    capture true buffer reads.calls = some written ↔
      .interrupted ∉ reads.calls ∧ 0 ∉ written := by
  by_cases hinterrupted : .interrupted ∈ reads.calls
  · rw [capture, if_pos rfl, captureFrom_interrupted hinterrupted]
    exact iff_of_false (Option.some_ne_none written).symm fun h => h.1 hinterrupted
  · rw [capture, if_pos rfl, captureFrom_data hinterrupted, List.nil_append, Option.some.injEq]
    constructor
    · intro h
      refine ⟨hinterrupted, ?_⟩
      intro hzero
      rw [← h] at hzero
      rcases List.mem_flatMap.mp hzero with ⟨read, -, hzero⟩
      exact zero_notMem_cString _ hzero
    · rintro ⟨-, hzero⟩
      have hwhole : ∀ read ∈ reads.calls, cString read.contents = read.contents := by
        intro read hread
        rw [cString_eq_self_iff]
        intro hmem
        exact hzero (reads.contents_calls ▸ List.mem_flatMap.mpr ⟨read, hread, hmem⟩)
      exact (List.flatMap_congr hwhole).trans reads.contents_calls

/-- The bytes of the buffer before the first read. -/
def blank : Buffer := ⟨List.replicate 8 1, rfl⟩

/-- Three bytes, the second one zero, in one read, and one byte after an interrupted read. -/
theorem not_capture_eq_written_zeroByte :
    capture true blank (Reads.mk [.data ⟨[97, 0, 98], by decide, by decide⟩] rfl :
        Reads [97, 0, 98]).calls ≠ some [97, 0, 98] ∧
      capture true blank (Reads.mk [.interrupted, .data ⟨[97], by decide, by decide⟩] rfl :
        Reads [97]).calls = none := by
  decide

end Mull.PipeCapture
