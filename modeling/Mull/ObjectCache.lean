import Mathlib.Data.List.Sort
import Mathlib.Data.String.Basic
import Mull.Schemata

/-!
# The keys of the object cache

Compiled object files are kept on disk under keys that are made of the identifier of the
bitcode file.  The key of a mutated file also has the digest of all its mutants: their
identifiers are sorted, joined without a separator and hashed.

The joined text can be taken apart again, because an identifier starts with that of the
file, goes on with numbers and ends with the name of a mutator, which has no digits.  So
equal keys mean the same mutants, up to collisions of the digest.
-/

namespace Mull.ObjectCache

open Mutators MutatorsFactory MutationPoints Schemata

/-! ### Keys -/

/-- A digest of a text, printed as 32 hexadecimal digits. -/
structure Digest where
  hash : String → String
  length : ∀ text, (hash text).length = 32
  hexadecimal : ∀ text, ∀ c ∈ (hash text).toList, c ∈ "0123456789abcdef".toList

/-- The identifiers of all points, sorted. -/
def mutationPointsIds (mutationPoints : MutationPointsMap) : List String :=
  ((mutationPoints.flatMap Prod.snd).map (·.1.uniqueIdentifier)).mergeSort (· ≤ ·)

/-- What `hasher.update` has been given, one identifier after another. -/
def hashedText (mutationPoints : MutationPointsMap) : String :=
  String.join (mutationPointsIds mutationPoints)

def getInstrumentedUniqueIdentifier (uniqueIdentifier : String) : String :=
  uniqueIdentifier ++ "_instrumented"

def getMutatedUniqueIdentifier (md5 : Digest) (uniqueIdentifier : String)
    (mutationPoints : MutationPointsMap) : String :=
  if mutationPoints.isEmpty then uniqueIdentifier
  else uniqueIdentifier ++ "_" ++ md5.hash (hashedText mutationPoints) ++ "_mutated"

/-- The identifiers that the constructors of `Bitcode` make: none without a buffer, and else
    the stem of the file's name and the digest of its content, which is empty for a clone. -/
def IsBitcodeIdentifier (md5 : Digest) (uniqueIdentifier : String) : Prop :=
  uniqueIdentifier = "" ∨ ∃ stem digest, uniqueIdentifier = stem ++ "_" ++ digest ∧
    (digest = "" ∨ ∃ buffer, digest = md5.hash buffer)

/-- The points are points of a file with that identifier, made by registered mutators. -/
def PointsOf (bitcodeIdentifier : String) (pointers : List Pointer) : Prop :=
  ∀ pointer ∈ pointers, pointer.1.mutator ∈ registered ∧ pointer.1.uniqueIdentifier =
    uniqueIdentifier bitcodeIdentifier pointer.1.address pointer.1.mutator

/-! ### Taking the hashed text apart -/

/-- An identifier of a point of the file. -/
def IsPointIdentifier (bitcodeIdentifier id : String) : Prop :=
  ∃ address, ∃ mutator ∈ registered, id = uniqueIdentifier bitcodeIdentifier address mutator

theorem toList_uniqueIdentifier (bitcode : String) (address : MutationPointAddress)
    (mutator : Mutator) : (uniqueIdentifier bitcode address mutator).toList =
      bitcode.toList ++ '_' :: ((toString address.functionIndex).toList ++
        '_' :: ((toString address.basicBlockIndex).toList ++
          '_' :: ((toString address.instructionIndex).toList ++
            '_' :: mutator.uniqueIdentifier.toList))) := by
  simp [uniqueIdentifier, MutationPointAddress.toList_identifier]

/-- A text of identifiers has a digit right behind the first identifier of the file. -/
theorem exists_digit_of_cons {bitcode id : String} (h : IsPointIdentifier bitcode id)
    (ids : List String) : ∃ digit rest, digit.isDigit = true ∧
      (id :: ids).flatMap String.toList = (bitcode.toList ++ ['_']) ++ digit :: rest := by
  obtain ⟨address, mutator, -, rfl⟩ := h
  obtain ⟨digit, digits, hdigits⟩ : ∃ digit digits,
      (toString address.functionIndex).toList = digit :: digits := by
    refine List.exists_cons_of_ne_nil ?_
    rw [Naming.toString_toList]
    exact Nat.toDigits_ne_nil
  have hdigit : digit.isDigit = true :=
    Naming.isDigit_of_mem_toString (hdigits ▸ List.mem_cons_self)
  rw [List.flatMap_cons, toList_uniqueIdentifier, hdigits]
  simp only [List.append_assoc, List.cons_append, List.nil_append]
  exact ⟨digit, _, hdigit, rfl⟩

section

variable {bitcode : String} {ids ids' : List String}
  (hids : ∀ id ∈ ids, IsPointIdentifier bitcode id)
  (hids' : ∀ id ∈ ids', IsPointIdentifier bitcode id)

include hids hids'

/-- Between two texts of identifiers nothing fits that has no digits. -/
theorem eq_nil_of_append {gap : List Char} (hgap : ∀ c ∈ gap, c.isDigit = false)
    (h : ids.flatMap String.toList = gap ++ ids'.flatMap String.toList) : gap = [] := by
  cases ids with
  | nil => exact (List.append_eq_nil_iff.mp h.symm).1
  | cons id ids =>
      obtain ⟨digit, rest, hdigit, htext⟩ :=
        exists_digit_of_cons (hids id List.mem_cons_self) ids
      rw [htext] at h
      cases ids' with
      | nil =>
          rw [List.flatMap_nil, List.append_nil] at h
          have hmem : digit ∈ gap := h ▸ by simp
          rw [hgap digit hmem] at hdigit
          cases hdigit
      | cons id' ids' =>
          obtain ⟨digit', rest', hdigit', htext'⟩ :=
            exists_digit_of_cons (hids' id' List.mem_cons_self) ids'
          rw [htext'] at h
          exact @Naming.eq_nil_of_shift _ (fun c => !c.isDigit) _ _ _ _ _ _ (by simp [hdigit])
            (by simp [hdigit']) (fun c hc => by simp [hgap c hc]) h

/-- The name of a mutator ends where the next identifier starts. -/
theorem mutator_eq_of_append {mutator mutator' : Mutator} (hmutator : mutator ∈ registered)
    (hmutator' : mutator' ∈ registered)
    (h : mutator.uniqueIdentifier.toList ++ ids.flatMap String.toList =
      mutator'.uniqueIdentifier.toList ++ ids'.flatMap String.toList) :
    mutator = mutator' ∧ ids.flatMap String.toList = ids'.flatMap String.toList := by
  have hname : mutator.uniqueIdentifier.toList = mutator'.uniqueIdentifier.toList := by
    -- one name goes on where the other one ends, with something without digits
    rcases List.append_eq_append_iff.mp h with ⟨gap, hmore, hrest⟩ | ⟨gap, hmore, hrest⟩
    · have hgap := eq_nil_of_append hids hids' (fun c hc =>
        registered_no_digits mutator' hmutator' c (hmore ▸ List.mem_append_right _ hc)) hrest
      rw [hmore, hgap, List.append_nil]
    · have hgap := eq_nil_of_append hids' hids (fun c hc =>
        registered_no_digits mutator hmutator c (hmore ▸ List.mem_append_right _ hc)) hrest
      rw [hmore, hgap, List.append_nil]
  rw [hname] at h
  exact ⟨eq_of_uniqueIdentifier hmutator hmutator' (String.toList_inj.mp hname),
    List.append_cancel_left h⟩

end

/-- **The joined text determines the identifiers it was joined of.** -/
theorem join_inj {bitcode : String} {ids ids' : List String}
    (hids : ∀ id ∈ ids, IsPointIdentifier bitcode id)
    (hids' : ∀ id ∈ ids', IsPointIdentifier bitcode id)
    (h : String.join ids = String.join ids') : ids = ids' := by
  replace h : ids.flatMap String.toList = ids'.flatMap String.toList := by
    simpa using congrArg String.toList h
  induction ids generalizing ids' with
  | nil =>
      cases ids' with
      | nil => rfl
      | cons id' ids' =>
          obtain ⟨_, _, -, htext'⟩ := exists_digit_of_cons (hids' id' List.mem_cons_self) ids'
          rw [htext'] at h
          simp at h
  | cons id ids ih =>
      cases ids' with
      | nil =>
          obtain ⟨_, _, -, htext⟩ := exists_digit_of_cons (hids id List.mem_cons_self) ids
          rw [htext] at h
          simp at h
      | cons id' ids' =>
          rw [List.forall_mem_cons] at hids hids'
          obtain ⟨⟨address, mutator, hmutator, rfl⟩, hids⟩ := hids
          obtain ⟨⟨address', mutator', hmutator', rfl⟩, hids'⟩ := hids'
          rw [List.flatMap_cons, List.flatMap_cons, toList_uniqueIdentifier,
            toList_uniqueIdentifier] at h
          simp only [List.append_assoc, List.cons_append] at h
          -- the three numbers end at the next underscore
          have h := (List.cons.inj (List.append_cancel_left h)).2
          obtain ⟨hfunction, h⟩ := Naming.split_at_first_eq (underscore_not_mem_toString _)
            (underscore_not_mem_toString _) h
          obtain ⟨hblock, h⟩ := Naming.split_at_first_eq (underscore_not_mem_toString _)
            (underscore_not_mem_toString _) h
          obtain ⟨hinstruction, h⟩ := Naming.split_at_first_eq (underscore_not_mem_toString _)
            (underscore_not_mem_toString _) h
          obtain ⟨rfl, hrest⟩ := mutator_eq_of_append hids hids' hmutator hmutator' h
          have haddress := MutationPointAddress.eq_of_digits hfunction hblock hinstruction
          rw [haddress, ih hids hids' hrest]

/-! ### Equal keys -/

theorem mutationPointsIds_perm (addressOf : Nat → Nat) (pointers : List Pointer) :
    (mutationPointsIds (getMutationPointsMap addressOf pointers)).Perm
      (pointers.map (·.1.uniqueIdentifier)) :=
  (List.mergeSort_perm _ _).trans
    ((mapOf_getMutationPointsMap addressOf pointers).perm.map (·.1.uniqueIdentifier))

theorem mutationPointsIds_eq_iff {addressOf addressOf' : Nat → Nat}
    {pointers pointers' : List Pointer} :
    mutationPointsIds (getMutationPointsMap addressOf pointers) =
        mutationPointsIds (getMutationPointsMap addressOf' pointers') ↔
      (pointers.map (·.1.uniqueIdentifier)).Perm (pointers'.map (·.1.uniqueIdentifier)) := by
  have hperm := mutationPointsIds_perm addressOf pointers
  have hperm' := mutationPointsIds_perm addressOf' pointers'
  constructor
  · intro h
    exact hperm.symm.trans (h ▸ hperm')
  · intro h
    exact (hperm.trans (h.trans hperm'.symm)).eq_of_pairwise' (List.pairwise_mergeSort' _ _)
      (List.pairwise_mergeSort' _ _)

theorem isPointIdentifier_of_mem {bitcode : String} {pointers : List Pointer}
    (h : PointsOf bitcode pointers) {addressOf : Nat → Nat} {id : String}
    (hid : id ∈ mutationPointsIds (getMutationPointsMap addressOf pointers)) :
    IsPointIdentifier bitcode id := by
  rw [(mutationPointsIds_perm addressOf pointers).mem_iff, List.mem_map] at hid
  obtain ⟨pointer, hpointer, rfl⟩ := hid
  obtain ⟨hmutator, hidentifier⟩ := h pointer hpointer
  exact ⟨_, _, hmutator, hidentifier⟩

theorem isEmpty_getMutationPointsMap (addressOf : Nat → Nat) (pointers : List Pointer) :
    (getMutationPointsMap addressOf pointers).isEmpty = pointers.isEmpty := by
  cases pointers with
  | nil => rfl
  | cons pointer pointers =>
      have hperm := (mapOf_getMutationPointsMap addressOf (pointer :: pointers)).perm
      cases hmap : getMutationPointsMap addressOf (pointer :: pointers) with
      | nil =>
          rw [hmap] at hperm
          cases hperm.nil_eq
      | cons entry entries => rfl

/-- The key of a mutated file, in one of the two forms. -/
theorem getMutatedUniqueIdentifier_eq (md5 : Digest) (bitcode : String) (addressOf : Nat → Nat)
    (pointers : List Pointer) :
    getMutatedUniqueIdentifier md5 bitcode (getMutationPointsMap addressOf pointers) =
      if pointers = [] then bitcode
      else bitcode ++ "_" ++ md5.hash (hashedText (getMutationPointsMap addressOf pointers)) ++
        "_mutated" := by
  rw [getMutatedUniqueIdentifier, isEmpty_getMutationPointsMap]
  simp only [List.isEmpty_iff]

/-- The two texts are no collision of the digest. -/
def NoCollision (md5 : Digest) (text text' : String) : Prop :=
  md5.hash text = md5.hash text' → text = text'

theorem length_mutated (bitcode digest : String) :
    bitcode.length < (bitcode ++ "_" ++ digest ++ "_mutated").length := by
  simp only [String.length_append]
  have hlength : "_mutated".length = 8 := rfl
  omega

theorem mutated_key_eq_iff {md5 : Digest} {bitcode : String} {addressOf addressOf' : Nat → Nat}
    {pointers pointers' : List Pointer} (h : PointsOf bitcode pointers)
    (h' : PointsOf bitcode pointers')
    (hmd5 : NoCollision md5 (hashedText (getMutationPointsMap addressOf pointers))
      (hashedText (getMutationPointsMap addressOf' pointers'))) :
    getMutatedUniqueIdentifier md5 bitcode (getMutationPointsMap addressOf pointers) =
        getMutatedUniqueIdentifier md5 bitcode (getMutationPointsMap addressOf' pointers') ↔
      (pointers.map (·.1.uniqueIdentifier)).Perm (pointers'.map (·.1.uniqueIdentifier)) := by
  rw [getMutatedUniqueIdentifier_eq, getMutatedUniqueIdentifier_eq]
  split
  case isTrue hnil =>
    subst hnil
    split
    case isTrue hnil' => simp [hnil']
    case isFalse hnil' =>
      have hlength := length_mutated bitcode
        (md5.hash (hashedText (getMutationPointsMap addressOf' pointers')))
      constructor
      · intro hkey
        exact absurd (congrArg String.length hkey) hlength.ne
      · intro hperm
        exact absurd (List.map_eq_nil_iff.mp hperm.nil_eq.symm) hnil'
  case isFalse hnil =>
    split
    case isTrue hnil' =>
      subst hnil'
      have hlength := length_mutated bitcode
        (md5.hash (hashedText (getMutationPointsMap addressOf pointers)))
      constructor
      · intro hkey
        exact absurd (congrArg String.length hkey) hlength.ne'
      · intro hperm
        exact absurd (List.map_eq_nil_iff.mp hperm.eq_nil) hnil
    case isFalse hnil' =>
      rw [← @mutationPointsIds_eq_iff addressOf addressOf']
      constructor
      · intro hkey
        have hhash : md5.hash (hashedText (getMutationPointsMap addressOf pointers)) =
            md5.hash (hashedText (getMutationPointsMap addressOf' pointers')) :=
          String.toList_inj.mp (by simpa using congrArg String.toList hkey)
        exact join_inj (fun id hid => isPointIdentifier_of_mem h hid)
          (fun id hid => isPointIdentifier_of_mem h' hid) (hmd5 hhash)
      · intro hids
        rw [hashedText, hashedText, hids]

/-! ### Keys of different kinds -/

/-- An identifier of a file ends with hexadecimal digits or with an underscore. -/
theorem not_suffix_of_isBitcodeIdentifier {md5 : Digest} {bitcode : String}
    (h : IsBitcodeIdentifier md5 bitcode) : ¬ "ted".toList <:+ bitcode.toList := by
  intro hsuffix
  rcases h with rfl | ⟨stem, digest, rfl, rfl | ⟨buffer, rfl⟩⟩
  · revert hsuffix
    decide
  · rw [String.append_empty, String.toList_append] at hsuffix
    have hlast : ['_'] <:+ "ted".toList :=
      List.suffix_of_suffix_length_le (List.suffix_append _ _) hsuffix (by decide)
    revert hlast
    decide
  · rw [String.toList_append] at hsuffix
    have hlength : "ted".toList.length ≤ (md5.hash buffer).toList.length := by
      rw [String.length_toList, String.length_toList, md5.length]
      decide
    have hdigest := List.suffix_of_suffix_length_le hsuffix (List.suffix_append _ _) hlength
    have ht := md5.hexadecimal buffer 't' (hdigest.subset (by decide))
    revert ht
    decide

theorem suffix_instrumented (bitcode : String) :
    "_instrumented".toList <:+ (getInstrumentedUniqueIdentifier bitcode).toList := by
  rw [getInstrumentedUniqueIdentifier, String.toList_append]
  exact List.suffix_append _ _

theorem suffix_mutated {md5 : Digest} {bitcode : String} {addressOf : Nat → Nat}
    {pointers : List Pointer} (h : pointers ≠ []) : "_mutated".toList <:+
      (getMutatedUniqueIdentifier md5 bitcode (getMutationPointsMap addressOf pointers)).toList := by
  rw [getMutatedUniqueIdentifier_eq, if_neg h, String.toList_append]
  exact List.suffix_append _ _

theorem instrumented_key_ne {md5 : Digest} {bitcode bitcode' : String}
    (h' : IsBitcodeIdentifier md5 bitcode') :
    getInstrumentedUniqueIdentifier bitcode ≠ bitcode' := by
  rintro rfl
  have hend : "ted".toList <:+ "_instrumented".toList := by decide
  exact not_suffix_of_isBitcodeIdentifier h' (hend.trans (suffix_instrumented bitcode))

theorem instrumented_key_ne_mutated {md5 : Digest} {bitcode bitcode' : String}
    (h' : IsBitcodeIdentifier md5 bitcode') (addressOf : Nat → Nat) (pointers : List Pointer) :
    getInstrumentedUniqueIdentifier bitcode ≠
      getMutatedUniqueIdentifier md5 bitcode' (getMutationPointsMap addressOf pointers) := by
  intro hkey
  by_cases hnil : pointers = []
  · rw [getMutatedUniqueIdentifier_eq, if_pos hnil] at hkey
    exact instrumented_key_ne h' hkey
  · have hsuffix := @suffix_mutated md5 bitcode' addressOf _ hnil
    rw [← hkey] at hsuffix
    have hend : "_mutated".toList <:+ "_instrumented".toList :=
      List.suffix_of_suffix_length_le hsuffix (suffix_instrumented bitcode) (by decide)
    revert hend
    decide

/-- A mutated key is an original key only where there is nothing to mutate. -/
theorem mutated_key_eq_original_iff {md5 : Digest} {bitcode bitcode' : String}
    (h' : IsBitcodeIdentifier md5 bitcode') (addressOf : Nat → Nat) (pointers : List Pointer) :
    getMutatedUniqueIdentifier md5 bitcode (getMutationPointsMap addressOf pointers) = bitcode' ↔
      pointers = [] ∧ bitcode = bitcode' := by
  by_cases hnil : pointers = []
  · rw [getMutatedUniqueIdentifier_eq, if_pos hnil]
    simp [hnil]
  · simp only [hnil, false_and, iff_false]
    rintro rfl
    have hend : "ted".toList <:+ "_mutated".toList := by decide
    exact not_suffix_of_isBitcodeIdentifier h' (hend.trans (suffix_mutated hnil))

/-- **The keys of mutated files identify the mutants.**  Two keys of a file are equal if and
    only if the points have the same identifiers, each as often, whatever their order and
    the addresses of the functions.  Keys of different kinds differ, of all files, except
    that the mutated key of a file without points is its original key. -/
theorem keys_identify (md5 : Digest) (addressOf addressOf' : Nat → Nat) :
    (∀ bitcode pointers pointers', PointsOf bitcode pointers → PointsOf bitcode pointers' →
      NoCollision md5 (hashedText (getMutationPointsMap addressOf pointers))
        (hashedText (getMutationPointsMap addressOf' pointers')) →
      (getMutatedUniqueIdentifier md5 bitcode (getMutationPointsMap addressOf pointers) =
          getMutatedUniqueIdentifier md5 bitcode (getMutationPointsMap addressOf' pointers') ↔
        (pointers.map (·.1.uniqueIdentifier)).Perm (pointers'.map (·.1.uniqueIdentifier)))) ∧
    (∀ bitcode bitcode' pointers, IsBitcodeIdentifier md5 bitcode →
      IsBitcodeIdentifier md5 bitcode' →
      getInstrumentedUniqueIdentifier bitcode ≠ bitcode' ∧
      getInstrumentedUniqueIdentifier bitcode ≠
        getMutatedUniqueIdentifier md5 bitcode' (getMutationPointsMap addressOf pointers) ∧
      (getMutatedUniqueIdentifier md5 bitcode (getMutationPointsMap addressOf pointers) = bitcode' ↔
        pointers = [] ∧ bitcode = bitcode')) := by
  refine ⟨?_, ?_⟩
  · intro bitcode pointers pointers' h h' hmd5
    exact mutated_key_eq_iff h h' hmd5
  · intro bitcode bitcode' pointers _ h'
    exact ⟨instrumented_key_ne h', instrumented_key_ne_mutated h' addressOf pointers,
      mutated_key_eq_original_iff h' addressOf pointers⟩

/-- A file `sum` with nothing in it. -/
def sumIdentifier : String := "sum_d41d8cd98f00b204e9800998ecf8427e"

/-- The digests of the texts below. -/
def sumDigest : Digest where
  hash text :=
    if text = "sum_d41d8cd98f00b204e9800998ecf8427e_0_0_1_cxx_add_to_sub" then
      "50414e9bcda7def1e8646b795c41a894"
    else if text = "sum_d41d8cd98f00b204e9800998ecf8427e_1_0_2_cxx_sub_to_add" then
      "2cf3a308d919bab472342b8ea7dc54b2"
    else "d41d8cd98f00b204e9800998ecf8427e"
  length text := by
    split
    · rfl
    · split <;> rfl
  hexadecimal text := by
    have hexadecimal : ∀ cs : List Char, cs.all ("0123456789abcdef".toList.contains ·) = true →
        ∀ c ∈ cs, c ∈ "0123456789abcdef".toList := by
      simp [List.all_eq_true]
    refine hexadecimal _ ?_
    split
    · decide
    · split <;> decide

theorem isBitcodeIdentifier_sumIdentifier : IsBitcodeIdentifier sumDigest sumIdentifier :=
  Or.inr ⟨"sum", "d41d8cd98f00b204e9800998ecf8427e", rfl, Or.inr ⟨"", by decide +kernel⟩⟩

def sumPointer (mutator : Mutator) (opcode : IR.Opcode) (address : MutationPointAddress) :
    Pointer :=
  (.create mutator none address (.compute opcode [.argument 0, .argument 1] 0) 0
    ⟨⟨"sum", [], []⟩, sumIdentifier⟩, 0)

def addPointer : Pointer := sumPointer addToSub .add ⟨0, 0, 1⟩

def subPointer : Pointer := sumPointer subToAdd .sub ⟨1, 0, 2⟩

theorem pointsOf_sumIdentifier {pointers : List Pointer}
    (h : ∀ pointer ∈ pointers, pointer = addPointer ∨ pointer = subPointer) :
    PointsOf sumIdentifier pointers := by
  intro pointer hpointer
  rcases h pointer hpointer with rfl | rfl
  · exact ⟨by decide +kernel, rfl⟩
  · exact ⟨by decide +kernel, rfl⟩

/-- Two mutants give one key in both orders and for both orders of the functions, and each
    of them alone gives another key. -/
theorem keys_identify_sumIdentifier :
    getMutatedUniqueIdentifier sumDigest sumIdentifier
        (getMutationPointsMap id [addPointer, subPointer]) =
      getMutatedUniqueIdentifier sumDigest sumIdentifier
        (getMutationPointsMap (1 - ·) [subPointer, addPointer]) ∧
    getMutatedUniqueIdentifier sumDigest sumIdentifier (getMutationPointsMap id [addPointer]) ≠
      getMutatedUniqueIdentifier sumDigest sumIdentifier
        (getMutationPointsMap (1 - ·) [subPointer]) ∧
    getInstrumentedUniqueIdentifier sumIdentifier ≠ sumIdentifier := by
  obtain ⟨hsame, hkinds⟩ := keys_identify sumDigest id (1 - ·)
  refine ⟨?_, ?_, (hkinds sumIdentifier sumIdentifier [] isBitcodeIdentifier_sumIdentifier
    isBitcodeIdentifier_sumIdentifier).1⟩
  · have hperm := (List.Perm.swap subPointer addPointer []).map (·.1.uniqueIdentifier)
    refine (hsame _ _ _ (pointsOf_sumIdentifier (by simp)) (pointsOf_sumIdentifier (by simp))
      fun _ => ?_).mpr hperm
    rw [hashedText, hashedText, mutationPointsIds_eq_iff.mpr hperm]
  · have hdifferent : addPointer.1.uniqueIdentifier ≠ subPointer.1.uniqueIdentifier := by
      decide +kernel
    have hhash : sumDigest.hash addPointer.1.uniqueIdentifier ≠
        sumDigest.hash subPointer.1.uniqueIdentifier := by
      decide +kernel
    intro hkey
    have hperm := (hsame _ _ _ (pointsOf_sumIdentifier (by simp)) (pointsOf_sumIdentifier (by simp))
      fun hcollision => ?_).mp hkey
    · exact hdifferent (by simpa using hperm)
    · refine absurd ?_ hhash
      simpa [hashedText, mutationPointsIds, getMutationPointsMap, addMutation, String.join]
        using hcollision

/-- A file without mutants is kept under its original key. -/
theorem not_keys_differ_sumIdentifier :
    ¬ ∀ bitcode bitcode' pointers, IsBitcodeIdentifier sumDigest bitcode →
      IsBitcodeIdentifier sumDigest bitcode' →
      getMutatedUniqueIdentifier sumDigest bitcode (getMutationPointsMap id pointers) ≠
        bitcode' := by
  intro hall
  exact hall sumIdentifier sumIdentifier [] isBitcodeIdentifier_sumIdentifier
    isBitcodeIdentifier_sumIdentifier rfl

end Mull.ObjectCache
