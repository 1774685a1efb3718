import Mull.JunkDetector
import Mull.Lib.FirstWins

/-!
# The AST mutation storage

The storage is a map of maps: file, kind, and a number made of line and column.  A call of
`saveMutation` puts in an entry unless the number has one already; `mutationExists` and
`getMutation` look for the number of a line and column.

The number is computed in `int`, with a product that grows with the square of the line.
While it fits, different positions have different numbers and the storage is an exact map
(`exact_iff`); in longer files the computation overflows.
-/

namespace Mull.ASTMutationStorage

open ASTSearch JunkDetector MachineInt FirstWins

/-! ### Calls of `saveMutation` -/

/-- What an entry is about. -/
structure Position where
  sourceFile : String
  mutatorKind : MutatorKind
  line : Int
  column : Int
deriving DecidableEq, Repr

structure SaveCall where
  position : Position
  expression : Nat
deriving DecidableEq, Repr

def SaveCall.mutation (call : SaveCall) : ASTMutation :=
  ⟨call.position.mutatorKind, call.position.line, call.position.column, call.expression⟩

/-- A sequence of calls, on the empty storage. -/
def saveAll (isRegularFile : String → Bool) (calls : List SaveCall) : Option Storage :=
  calls.foldlM (fun storage call => saveMutation isRegularFile storage call.position.sourceFile
    call.position.mutatorKind call.expression call.position.line call.position.column)
    fun _ => none

/-- The keys of a position in the three maps; `none` if an assertion fails or the number
    overflows. -/
def Position.key (isRegularFile : String → Bool) (position : Position) :
    Option (String × MutatorKind × Int) :=
  if isRegularFile position.sourceFile || position.sourceFile = "input.cc" then
    (lineColumnHash position.line position.column).map fun hash =>
      (position.sourceFile, position.mutatorKind, hash)
  else none

/-- The three maps as one table. -/
def table (storage : Storage) (key : String × MutatorKind × Int) : Option ASTMutation :=
  entry storage key.1 key.2.1 key.2.2

section Storage

variable {isRegularFile : String → Bool}

theorem table_saveMutation (storage : Storage) (call : SaveCall) :
    (saveMutation isRegularFile storage call.position.sourceFile call.position.mutatorKind
        call.expression call.position.line call.position.column).map table =
      (call.position.key isRegularFile).map fun key => insert (table storage) key call.mutation := by
  cases hsave : saveMutation isRegularFile storage call.position.sourceFile
      call.position.mutatorKind call.expression call.position.line call.position.column with
  | none =>
      have hkey : call.position.key isRegularFile = none := by
        unfold saveMutation at hsave
        unfold Position.key
        split at hsave
        · rename_i hregular
          rw [if_pos hregular]
          cases hhash : lineColumnHash call.position.line call.position.column with
          | none => rfl
          | some hash => simp [hhash] at hsave
        · rename_i hregular
          rw [if_neg hregular]
      rw [hkey]
      rfl
  | some saved =>
      obtain ⟨hash, hhash, hregular, hentry⟩ := entry_saveMutation hsave
      have hkey : call.position.key isRegularFile =
          some (call.position.sourceFile, call.position.mutatorKind, hash) := by
        rw [Position.key, if_pos hregular, hhash, Option.map_some]
      rw [hkey]
      refine congrArg some ?_
      funext ⟨sourceFile, mutatorKind, hash'⟩
      simp only [insert_apply]
      rw [table, table, hentry]
      by_cases hsame : sourceFile = call.position.sourceFile ∧
          mutatorKind = call.position.mutatorKind ∧ hash' = hash
      · obtain ⟨rfl, rfl, rfl⟩ := hsame
        rw [if_pos ⟨rfl, rfl, rfl⟩, if_pos rfl]
        rfl
      · rw [if_neg hsame, if_neg, Option.or_none]
        intro heq
        cases heq
        exact hsame ⟨rfl, rfl, rfl⟩

/-- A sequence of calls fills the table. -/
theorem map_table_saveAll (calls : List SaveCall) :
    (saveAll isRegularFile calls).map table =
      fill (fun call => call.position.key isRegularFile) SaveCall.mutation (fun _ => none) calls := by
  have hrun : ∀ (calls : List SaveCall) (storage : Storage),
      (calls.foldlM (fun storage call => saveMutation isRegularFile storage
        call.position.sourceFile call.position.mutatorKind call.expression call.position.line
        call.position.column) storage).map table =
      fill (fun call => call.position.key isRegularFile) SaveCall.mutation (table storage) calls := by
    intro calls
    induction calls with
    | nil => exact fun _ => rfl
    | cons call calls ih =>
        intro storage
        have hstep := @table_saveMutation isRegularFile storage call
        rw [List.foldlM_cons, fill, List.foldlM_cons, ← hstep]
        cases saveMutation isRegularFile storage call.position.sourceFile
            call.position.mutatorKind call.expression call.position.line call.position.column with
        | none => rfl
        | some saved => exact ih saved
  exact hrun calls fun _ => none

theorem exists_saveAll_iff {calls : List SaveCall} :
    (∃ storage, saveAll isRegularFile calls = some storage) ↔
      ∀ call ∈ calls, (call.position.key isRegularFile).isSome := by
  rw [← fill_isSome_iff (fun _ => none) calls, ← map_table_saveAll, Option.isSome_map,
    Option.isSome_iff_exists]

/-- After the calls, every key has the mutation of its first call. -/
theorem table_saveAll {calls : List SaveCall} {storage : Storage}
    (h : saveAll isRegularFile calls = some storage) :
    table storage =
      first (fun call => call.position.key isRegularFile) SaveCall.mutation calls := by
  have hfill := @map_table_saveAll isRegularFile calls
  rw [h, Option.map_some, fill_eq _ (exists_saveAll_iff.mp ⟨storage, h⟩)] at hfill
  rw [Option.some.inj hfill]
  funext key
  exact Option.none_or

end Storage

/-! ### Questions -/

/-- `mutationExists`, for a file and a kind with an entry. -/
theorem mutationExists_eq {sources : Sources} {storage : Storage} {position : Position} {hash : Int}
    (h : (table storage (position.sourceFile, position.mutatorKind, hash)).isSome) :
    mutationExists sources storage position.sourceFile position.mutatorKind position.line
        position.column =
      (position.key sources.isRegularFile).map fun key => (table storage key).isSome := by
  unfold mutationExists Position.key table entry at *
  cases hunit : storage position.sourceFile with
  | none => simp [hunit] at h
  | some unit =>
      cases hbucket : unit position.mutatorKind with
      | none => simp [hunit, hbucket] at h
      | some bucket =>
          split
          · cases lineColumnHash position.line position.column with
            | none => simp
            | some number => simp [hunit, hbucket]
          · rfl

theorem getMutation_eq_table (isRegularFile : String → Bool) (storage : Storage)
    (position : Position) :
    getMutation isRegularFile storage position.sourceFile position.mutatorKind position.line
        position.column =
      (position.key isRegularFile).bind (table storage) := by
  rw [getMutation_eq, Position.key]
  split
  · cases lineColumnHash position.line position.column <;> rfl
  · rfl

/-- The line and the column are positive. -/
def Position.Positive (position : Position) : Prop := 0 < position.line ∧ 0 < position.column

/-- The file exists, and the product in `lineColumnHash` is in range. -/
structure Position.Fits (isRegularFile : String → Bool) (position : Position) : Prop where
  regular : (isRegularFile position.sourceFile || position.sourceFile = "input.cc") = true
  small : (position.line + position.column) * (position.line + position.column + 1) ≤ intMax

theorem Position.isSome_key_iff {isRegularFile : String → Bool} {position : Position}
    (hpositive : position.Positive) :
    (position.key isRegularFile).isSome ↔ position.Fits isRegularFile := by
  have hlines : 0 < position.line ∧ 0 < position.column := hpositive
  have hhash := @exists_lineColumnHash_iff position.line position.column
  rw [← Option.isSome_iff_exists, and_iff_right hlines] at hhash
  unfold Position.key
  split
  · rename_i hregular
    rw [Option.isSome_map, hhash]
    exact ⟨fun hsmall => ⟨hregular, hsmall⟩, Fits.small⟩
  · rename_i hregular
    constructor
    · intro h
      cases h
    · exact fun h => absurd h.regular hregular

/-- Different positions have different keys. -/
theorem Position.key_inj {isRegularFile : String → Bool} {position position' : Position}
    {key : String × MutatorKind × Int} (h : position.key isRegularFile = some key)
    (h' : position'.key isRegularFile = some key) : position = position' := by
  unfold Position.key at h h'
  split at h
  · split at h'
    · obtain ⟨hash, hhash, rfl⟩ := Option.map_eq_some_iff.mp h
      obtain ⟨hash', hhash', heq⟩ := Option.map_eq_some_iff.mp h'
      simp only [Prod.mk.injEq] at heq
      obtain ⟨hfile, hkind, rfl⟩ := heq
      obtain ⟨hline, hcolumn⟩ := lineColumnHash_inj hhash hhash'
      cases position
      cases position'
      simp_all
    · cases h'
  · cases h

/-- The storage answers for a position as a map from positions would, in which the first
    call for a position counts. -/
structure Exact (sources : Sources) (calls : List SaveCall) (position : Position)
    (storage : Storage) : Prop where
  mutationExists : mutationExists sources storage position.sourceFile position.mutatorKind
    position.line position.column = some (calls.any (·.position = position))
  getMutation : ∀ call, calls.find? (·.position = position) = some call →
    getMutation sources.isRegularFile storage position.sourceFile position.mutatorKind
      position.line position.column = some call.mutation

section Exact

variable {sources : Sources} {calls : List SaveCall} {position : Position} {storage : Storage}

/-- About a file and a kind for which something was saved, `mutationExists` answers if the
    position has a key. -/
theorem mutationExists_saveAll (h : saveAll sources.isRegularFile calls = some storage)
    (hsaved : ∃ call ∈ calls, call.position.sourceFile = position.sourceFile ∧
      call.position.mutatorKind = position.mutatorKind) :
    mutationExists sources storage position.sourceFile position.mutatorKind position.line
        position.column =
      (position.key sources.isRegularFile).map fun key => (table storage key).isSome := by
  obtain ⟨call, hcall, hfile, hkind⟩ := hsaved
  obtain ⟨key, hkey⟩ := Option.isSome_iff_exists.mp (exists_saveAll_iff.mp ⟨storage, h⟩ call hcall)
  have hkeys : ∃ hash, key = (position.sourceFile, position.mutatorKind, hash) := by
    unfold Position.key at hkey
    split at hkey
    · obtain ⟨hash, -, rfl⟩ := Option.map_eq_some_iff.mp hkey
      exact ⟨hash, by rw [hfile, hkind]⟩
    · cases hkey
  obtain ⟨hash, rfl⟩ := hkeys
  refine @mutationExists_eq sources storage position hash ?_
  rw [table_saveAll h]
  exact first_isSome hcall hkey

/-- The key of a position has the mutation of the first call for the position. -/
theorem table_key_eq (h : saveAll sources.isRegularFile calls = some storage)
    {key : String × MutatorKind × Int} (hkey : position.key sources.isRegularFile = some key) :
    table storage key =
      (calls.find? fun call => decide (call.position = position)).map SaveCall.mutation := by
  rw [table_saveAll h, first, find?_key_eq (i := position)]
  intro call _
  constructor
  · exact fun hcall => Position.key_inj hcall hkey
  · rintro rfl
    exact hkey

/-- A position that has a key is answered exactly. -/
theorem exact_of_key (h : saveAll sources.isRegularFile calls = some storage)
    (hsaved : ∃ call ∈ calls, call.position.sourceFile = position.sourceFile ∧
      call.position.mutatorKind = position.mutatorKind)
    (hkey : (position.key sources.isRegularFile).isSome) : Exact sources calls position storage := by
  obtain ⟨key, hkey⟩ := Option.isSome_iff_exists.mp hkey
  constructor
  · rw [mutationExists_saveAll h hsaved, hkey, Option.map_some, table_key_eq h hkey,
      Option.isSome_map]
    refine congrArg some ?_
    rw [Bool.eq_iff_iff, List.find?_isSome, List.any_eq_true]
  · intro call hcall
    rw [getMutation_eq_table, hkey, Option.bind_some, table_key_eq h hkey, hcall]
    rfl

end Exact

/-- **The calls return and the storage is an exact map if and only if all positions fit.** -/
theorem exact_iff {sources : Sources} {calls : List SaveCall} {position : Position}
    (hcalls : ∀ call ∈ calls, call.position.Positive) (hposition : position.Positive)
    (hsaved : ∃ call ∈ calls, call.position.sourceFile = position.sourceFile ∧
      call.position.mutatorKind = position.mutatorKind) :
    (∃ storage, saveAll sources.isRegularFile calls = some storage ∧
      Exact sources calls position storage) ↔
      (∀ call ∈ calls, call.position.Fits sources.isRegularFile) ∧
        position.Fits sources.isRegularFile := by
  have hfits : (∀ call ∈ calls, (call.position.key sources.isRegularFile).isSome) ↔
      ∀ call ∈ calls, call.position.Fits sources.isRegularFile :=
    forall₂_congr fun call hcall => Position.isSome_key_iff (hcalls call hcall)
  rw [← hfits, ← Position.isSome_key_iff hposition, ← exists_saveAll_iff]
  constructor
  · rintro ⟨storage, hsave, hexact⟩
    have hanswer := hexact.mutationExists
    rw [mutationExists_saveAll hsave hsaved, Option.map_eq_some_iff] at hanswer
    obtain ⟨key, hkey, -⟩ := hanswer
    exact ⟨⟨storage, hsave⟩, Option.isSome_of_eq_some hkey⟩
  · rintro ⟨⟨storage, hsave⟩, hkey⟩
    exact ⟨storage, hsave, exact_of_key hsave hsaved hkey⟩

/-- Two additions, of which the second is saved twice. -/
def savedAdditions : List SaveCall :=
  [⟨⟨"/p/a.cpp", .cxxAddToSub, 3, 12⟩, 0⟩, ⟨⟨"/p/a.cpp", .cxxAddToSub, 4, 7⟩, 1⟩,
    ⟨⟨"/p/a.cpp", .cxxAddToSub, 4, 7⟩, 2⟩]

/-- The first of the two calls counts. -/
theorem exact_savedAdditions : ∃ storage,
    saveAll twoAdditions.isRegularFile savedAdditions = some storage ∧
      Exact twoAdditions savedAdditions ⟨"/p/a.cpp", .cxxAddToSub, 4, 7⟩ storage := by
  have hfile : (twoAdditions.isRegularFile "/p/a.cpp" || "/p/a.cpp" = "input.cc") = true := by
    decide +kernel
  refine (exact_iff ?_ ?_ ?_).mpr ⟨?_, hfile, by decide⟩
  · simp [savedAdditions, Position.Positive]
  · exact ⟨by decide, by decide⟩
  · exact ⟨⟨⟨"/p/a.cpp", .cxxAddToSub, 3, 12⟩, 0⟩, by simp [savedAdditions], rfl, rfl⟩
  · intro call hcall
    simp only [savedAdditions, List.mem_cons, List.not_mem_nil, or_false] at hcall
    rcases hcall with rfl | rfl | rfl
    · exact ⟨hfile, by decide⟩
    · exact ⟨hfile, by decide⟩
    · exact ⟨hfile, by decide⟩

/-! ### Long files -/

/-- What `lineColumnHash` computes where `int` wraps around. -/
def wrappedHash (line column : Int) : Int :=
  wrap (Int.tdiv (wrap (wrap (line + column) * wrap (wrap (line + column) + 1))) 2 + line)

/-- Without an overflow it is the same. -/
theorem wrappedHash_eq {line column hash : Int} (h : lineColumnHash line column = some hash) :
    wrappedHash line column = hash := by
  unfold lineColumnHash at h
  split at h
  · rename_i hpositive
    simp only [Option.bind_eq_bind, Option.bind_eq_some_iff, checked_eq_some_iff] at h
    obtain ⟨sum, ⟨rfl, hsum⟩, next, ⟨rfl, hnext⟩, product, ⟨rfl, hproduct⟩, rfl, hhash⟩ := h
    have hpos : 0 ≤ (line + column) * (line + column + 1) :=
      Int.mul_nonneg (by omega) (by omega)
    unfold wrappedHash
    rw [wrap_of_mem hsum.1 hsum.2, wrap_of_mem hnext.1 hnext.2,
      wrap_of_mem hproduct.1 hproduct.2, Int.tdiv_eq_ediv_of_nonneg hpos,
      wrap_of_mem hhash.1 hhash.2]
  · cases h

/-- In line 65407, the question for an addition overflows; where `int` wraps around, its
    number is that of the addition in line 272. -/
theorem not_exact_longFile :
    (¬ ∃ storage, saveAll twoAdditions.isRegularFile
        [⟨⟨"/p/a.cpp", .cxxAddToSub, 272, 170⟩, 0⟩] = some storage ∧
      Exact twoAdditions [⟨⟨"/p/a.cpp", .cxxAddToSub, 272, 170⟩, 0⟩]
        ⟨"/p/a.cpp", .cxxAddToSub, 65407, 129⟩ storage) ∧
    wrappedHash 65407 129 = wrappedHash 272 170 := by
  refine ⟨?_, by decide +kernel⟩
  rintro ⟨storage, -, hexact⟩
  have hanswer := hexact.mutationExists
  have hoverflow : lineColumnHash 65407 129 = none := by decide +kernel
  unfold mutationExists at hanswer
  split at hanswer
  · simp [hoverflow] at hanswer
  · cases hanswer

end Mull.ASTMutationStorage
