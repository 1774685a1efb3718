import Mull.Schemata

/-!
# The module after all passes

The passes of `Schemata` one after another.  What they leave is described function by
function (`exists_layout`): where the originals, the clones and the copies stand, and
which names they have got.
-/

namespace Mull.Schemata

open IR Mutators MutationPoints

/-! ### What the passes leave -/

section Layout

variable (mutation : BodyMutation) (addressOf : Nat → Nat) (pointers : List Pointer)
  (bitcode : Bitcode)

/-- The passes before the mutations are applied. -/
def redirect : Prepared :=
  let mutationPoints := getMutationPointsMap addressOf pointers
  let cloned := cloneFunctions mutationPoints ⟨bitcode.module, fun _ => none⟩
  let deleted := deleteFunctions bitcode.uniqueIdentifier mutationPoints cloned.module
  { cloned with module := insertTrampolines bitcode.uniqueIdentifier mutationPoints deleted }

/-- The mutated functions. -/
def originals : List Nat := (getMutationPointsMap addressOf pointers).map Prod.fst

/-- The points, in the order in which their clones were made. -/
def clonedPointers : List Pointer := (getMutationPointsMap addressOf pointers).flatMap Prod.snd

/-- The clones stand after the functions of the module, and the copies of the originals
    after the clones. -/
def clonePosition (j : Nat) : Nat := bitcode.module.functions.length + j

def copyPosition (i : Nat) : Nat :=
  bitcode.module.functions.length + (clonedPointers addressOf pointers).length + i

/-- The names of the clones, of the copies and of the trampolines, as they were given. -/
structure Names where
  clone : Nat → String
  copy : Nat → String
  trampoline : Nat → String

/-- The prepared module, function by function. -/
structure Layout (names : Names) : Prop where
  length : (prepare mutation addressOf pointers bitcode).module.functions.length =
    copyPosition addressOf pointers bitcode (originals addressOf pointers).length
  original : ∀ k < bitcode.module.functions.length,
    (prepare mutation addressOf pointers bitcode).module.functions[k]? =
      bitcode.module.functions[k]?.map fun function =>
        if k ∈ originals addressOf pointers then
          { function with blocks := [trampolineBlock function (names.trampoline k)] }
        else function
  clone : ∀ j pointer, (clonedPointers addressOf pointers)[j]? = some pointer →
    (prepare mutation addressOf pointers bitcode).mutatedFunction pointer.2 =
      some (clonePosition bitcode j) ∧
    (prepare mutation addressOf pointers bitcode).module.functions[clonePosition bitcode j]? =
      bitcode.module.functions[pointer.1.originalFunction]?.map fun function =>
        { function with
          name := names.clone j
          blocks := mutation.apply pointer.1 function.blocks }
  copy : ∀ i k, (originals addressOf pointers)[i]? = some k →
    (prepare mutation addressOf pointers bitcode).module.functions[copyPosition addressOf
      pointers bitcode i]? =
      bitcode.module.functions[k]?.map fun function => { function with name := names.copy i }
  globals : ∀ x, x ∈ (prepare mutation addressOf pointers bitcode).module.globals ↔
    x ∈ bitcode.module.globals ∨ ∃ k ∈ originals addressOf pointers, x = names.trampoline k
  cloneName : ∀ j pointer, (clonedPointers addressOf pointers)[j]? = some pointer →
    ∃ taken, names.clone j = Module.uniqueName taken pointer.1.uniqueIdentifier ∧
      ∀ x ∈ bitcode.module.names, x ∈ taken
  copyName : ∀ i k, (originals addressOf pointers)[i]? = some k →
    ∃ taken, names.copy i = Module.uniqueName taken
      (getOriginalFunctionName (functionName bitcode.module k) bitcode.uniqueIdentifier)

/-- The identifiers of the points are distinct, and nothing is named by them yet. -/
structure FreshClones : Prop where
  nodup : (pointers.map (·.1.uniqueIdentifier)).Nodup
  fresh : ∀ pointer ∈ pointers, pointer.1.uniqueIdentifier ∉ bitcode.module.names

/-- None of the names that the passes give is taken. -/
structure Fresh : Prop extends FreshClones pointers bitcode where
  distinct : ∀ k ∈ originals addressOf pointers, ∀ k' ∈ originals addressOf pointers,
    functionName bitcode.module k = functionName bitcode.module k' → k = k'
  copy : ∀ k ∈ originals addressOf pointers,
    getOriginalFunctionName (functionName bitcode.module k) bitcode.uniqueIdentifier ∉
      bitcode.module.names ++ pointers.map (·.1.uniqueIdentifier)
  trampoline : ∀ k ∈ originals addressOf pointers,
    getTrampolineName (functionName bitcode.module k) bitcode.uniqueIdentifier ∉
      bitcode.module.names ++ pointers.map (·.1.uniqueIdentifier)

variable {mutation addressOf pointers bitcode}

theorem prepare_eq : prepare mutation addressOf pointers bitcode =
    { redirect addressOf pointers bitcode with
      module := pointers.foldl (applyMutation mutation
        (redirect addressOf pointers bitcode).mutatedFunction)
        (redirect addressOf pointers bitcode).module } := rfl

theorem mem_clonedPointers {pointer : Pointer} :
    pointer ∈ clonedPointers addressOf pointers ↔ pointer ∈ pointers :=
  (mapOf_getMutationPointsMap addressOf pointers).perm.mem_iff

theorem nodup_clonedPointers (h : (pointers.map Prod.snd).Nodup) :
    ((clonedPointers addressOf pointers).map Prod.snd).Nodup :=
  ((mapOf_getMutationPointsMap addressOf pointers).perm.map Prod.snd).nodup_iff.mpr h

theorem mem_originals {k : Nat} :
    k ∈ originals addressOf pointers ↔ ∃ pointer ∈ pointers, pointer.1.originalFunction = k := by
  have hmap := mapOf_getMutationPointsMap addressOf pointers
  constructor
  · intro hk
    obtain ⟨entry, hentry, rfl⟩ := List.mem_map.mp hk
    obtain ⟨pointer, hpointer⟩ := List.exists_mem_of_ne_nil _ (hmap.nonempty entry hentry)
    exact ⟨pointer, hmap.perm.mem_iff.mp (List.mem_flatMap.mpr ⟨entry, hentry, hpointer⟩),
      hmap.function entry hentry pointer hpointer⟩
  · rintro ⟨pointer, hpointer, rfl⟩
    obtain ⟨entry, hentry, hmem⟩ := List.mem_flatMap.mp (hmap.perm.mem_iff.mpr hpointer)
    rw [hmap.function entry hentry pointer hmem]
    exact List.mem_map_of_mem hentry

theorem originals_nodup : (originals addressOf pointers).Nodup :=
  (mapOf_getMutationPointsMap addressOf pointers).keys

/-- The position of a point among the cloned ones. -/
theorem cloneOf_eq {flat : List Pointer} (hnodup : (flat.map Prod.snd).Nodup) {n j : Nat}
    {pointer : Pointer} (hj : flat[j]? = some pointer) : cloneOf n flat pointer.2 = some (n + j) := by
  have hlt := (List.getElem?_eq_some_iff.mp hj).1
  have hindex : flat.findIdx? (·.2 = pointer.2) = some j := by
    rw [List.findIdx?_eq_some_iff_getElem]
    refine ⟨hlt, by simp [(List.getElem?_eq_some_iff.mp hj).2], fun i hi heq => ?_⟩
    have hsame : (flat.map Prod.snd)[i]? = (flat.map Prod.snd)[j]? := by
      rw [List.getElem?_map, List.getElem?_map, hj, List.getElem?_eq_getElem (by omega)]
      simpa using heq
    have := (List.getElem?_inj (by simpa using (by omega : i < flat.length)) hnodup).mp hsame
    omega
  rw [cloneOf, hindex]
  rfl

theorem functionName_congr {m m' : Module} {k : Nat}
    (h : m.functions[k]?.map Function.name = m'.functions[k]?.map Function.name) :
    functionName m k = functionName m' k := by
  rw [functionName, functionName, h]

theorem getOriginalFunctionName_inj {name name' bitcodeIdentifier : String}
    (h : getOriginalFunctionName name bitcodeIdentifier =
      getOriginalFunctionName name' bitcodeIdentifier) : name = name' := by
  simpa only [getOriginalFunctionName, String.append_left_inj] using h

theorem getTrampolineName_ne_original {name name' bitcodeIdentifier : String} :
    getTrampolineName name bitcodeIdentifier ≠ getOriginalFunctionName name' bitcodeIdentifier := by
  intro h
  have hlast := congrArg (fun s : String => s.toList.getLast?) h
  have htrampoline : "_trampoline".toList.getLast? = some 'e' := by decide
  have horiginal : "_original".toList.getLast? = some 'l' := by decide
  simp only [getTrampolineName, getOriginalFunctionName, String.toList_append,
    List.getLast?_append, htrampoline, horiginal, Option.some_or] at hlast
  revert hlast
  decide

/-- What the passes have added: the clones, the copies and the trampolines; the mutations
    are still to be applied. -/
structure Stages (addressOf : Nat → Nat) (pointers : List Pointer) (bitcode : Bitcode)
    (clones copies : List Function) (trampoline : Nat → String) (redirected : Module) : Prop where
  cloned : Appended bitcode.module (cloneRequests (clonedPointers addressOf pointers)) clones
  copied : Appended { bitcode.module with functions := bitcode.module.functions ++ clones }
    (originalRequests bitcode.uniqueIdentifier bitcode.module (originals addressOf pointers)) copies
  functions : ∀ k, redirected.functions[k]? =
    (bitcode.module.functions ++ clones ++ copies)[k]?.map fun function =>
      if k ∈ originals addressOf pointers then
        { function with blocks := [trampolineBlock function (trampoline k)] }
      else function
  globals : ∀ x, x ∈ redirected.globals ↔
    x ∈ bitcode.module.globals ∨ ∃ k ∈ originals addressOf pointers, x = trampoline k
  exact : (∀ k ∈ originals addressOf pointers,
      getTrampolineName (functionName bitcode.module k) bitcode.uniqueIdentifier ∉
        bitcode.module.names ++ (clones ++ copies).map Function.name) →
    (∀ k ∈ originals addressOf pointers, ∀ k' ∈ originals addressOf pointers,
      functionName bitcode.module k = functionName bitcode.module k' → k = k') →
    ∀ k ∈ originals addressOf pointers,
      trampoline k = getTrampolineName (functionName bitcode.module k) bitcode.uniqueIdentifier

theorem names_deleteBodies (m : Module) (originals : List Nat) :
    (deleteBodies m originals).functions.map Function.name = m.functions.map Function.name := by
  refine List.ext_getElem? fun k => ?_
  rw [List.getElem?_map, List.getElem?_map, deleteBodies_functions, Option.map_map]
  congr 1
  funext function
  simp only [Function.comp_apply]
  split <;> rfl

theorem functionName_deleteBodies (m : Module) (originals : List Nat) (k : Nat) :
    functionName (deleteBodies m originals) k = functionName m k := by
  refine functionName_congr ?_
  rw [← List.getElem?_map, names_deleteBodies, List.getElem?_map]

theorem functionName_append {m : Module} {k : Nat} (hk : k < m.functions.length)
    (extra : List Function) :
    functionName { m with functions := m.functions ++ extra } k = functionName m k := by
  refine functionName_congr ?_
  rw [List.getElem?_append_left hk]

/-- The functions that lose their bodies are there from the start. -/
theorem lt_of_mem_originals (hvalid : ∀ pointer ∈ pointers,
    pointer.1.originalFunction < bitcode.module.functions.length) :
    ∀ k ∈ originals addressOf pointers, k < bitcode.module.functions.length := by
  intro k hk
  obtain ⟨pointer, hpointer, rfl⟩ := mem_originals.mp hk
  exact hvalid pointer hpointer

/-- The passes one after another. -/
theorem redirect_eq (hpointers : (pointers.map Prod.snd).Nodup)
    (hvalid : ∀ pointer ∈ pointers,
      pointer.1.originalFunction < bitcode.module.functions.length)
    {clones copies : List Function}
    (hclones : Appended bitcode.module (cloneRequests (clonedPointers addressOf pointers)) clones)
    (hcopies : Appended { bitcode.module with functions := bitcode.module.functions ++ clones }
      (originalRequests bitcode.uniqueIdentifier bitcode.module (originals addressOf pointers))
      copies) :
    redirect addressOf pointers bitcode =
      ⟨(originals addressOf pointers).foldl (insertTrampoline bitcode.uniqueIdentifier)
          (deleteBodies { bitcode.module with
            functions := bitcode.module.functions ++ clones ++ copies }
            (originals addressOf pointers)),
        cloneOf bitcode.module.functions.length (clonedPointers addressOf pointers)⟩ := by
  have hmap := mapOf_getMutationPointsMap addressOf pointers
  have hkeys := @lt_of_mem_originals addressOf _ _ hvalid
  have hrequests : originalRequests bitcode.uniqueIdentifier
      { bitcode.module with functions := bitcode.module.functions ++ clones }
      (originals addressOf pointers) =
      originalRequests bitcode.uniqueIdentifier bitcode.module (originals addressOf pointers) :=
    List.map_congr_left fun k hk => by rw [functionName_append (hkeys k hk)]
  have hdelete : deleteFunctions bitcode.uniqueIdentifier
      (getMutationPointsMap addressOf pointers)
      { bitcode.module with functions := bitcode.module.functions ++ clones } =
      deleteBodies { bitcode.module with
        functions := bitcode.module.functions ++ clones ++ copies }
        (originals addressOf pointers) := by
    rw [deleteFunctions_eq hmap.keys, ← originals, hrequests, hcopies.eq]
    intro k hk
    have := hkeys k hk
    simp only [List.length_append]
    omega
  have hclone := hmap.cloneFunctions_eq hpointers hvalid
  rw [← clonedPointers, hclones.eq] at hclone
  simp only [redirect, hclone, hdelete, insertTrampolines, originals, List.foldl_map]

theorem exists_stages (hpointers : (pointers.map Prod.snd).Nodup)
    (hvalid : ∀ pointer ∈ pointers,
      pointer.1.originalFunction < bitcode.module.functions.length) :
    ∃ clones copies trampoline redirected,
      Stages addressOf pointers bitcode clones copies trampoline redirected ∧
      redirect addressOf pointers bitcode =
        ⟨redirected,
          cloneOf bitcode.module.functions.length (clonedPointers addressOf pointers)⟩ := by
  have hkeys := @lt_of_mem_originals addressOf _ _ hvalid
  obtain ⟨clones, hclones⟩ : ∃ clones, Appended bitcode.module
      (cloneRequests (clonedPointers addressOf pointers)) clones := by
    refine exists_appended fun request hrequest => ?_
    obtain ⟨pointer, hpointer, rfl⟩ := List.mem_map.mp hrequest
    exact hvalid pointer (mem_clonedPointers.mp hpointer)
  obtain ⟨copies, hcopies⟩ : ∃ copies, Appended
      { bitcode.module with functions := bitcode.module.functions ++ clones }
      (originalRequests bitcode.uniqueIdentifier bitcode.module (originals addressOf pointers))
      copies := by
    refine exists_appended fun request hrequest => ?_
    obtain ⟨k, hk, rfl⟩ := List.mem_map.mp hrequest
    have := hkeys k hk
    simp only [List.length_append]
    omega
  obtain ⟨trampoline, hredirected⟩ := @exists_redirected bitcode.uniqueIdentifier
    (deleteBodies { bitcode.module with functions := bitcode.module.functions ++ clones ++ copies }
      (originals addressOf pointers)) (originals addressOf pointers) originals_nodup
  -- neither the new functions nor deleting the bodies touches the names of the old ones
  have hname : ∀ k ∈ originals addressOf pointers,
      functionName (deleteBodies { bitcode.module with
        functions := bitcode.module.functions ++ clones ++ copies }
        (originals addressOf pointers)) k = functionName bitcode.module k := by
    intro k hk
    rw [functionName_deleteBodies, List.append_assoc, functionName_append (hkeys k hk)]
  refine ⟨clones, copies, trampoline, _, ⟨hclones, hcopies, ?_, ?_, ?_⟩,
    redirect_eq hpointers hvalid hclones hcopies⟩
  · intro k
    rw [hredirected.functions, deleteBodies_functions, Option.map_map]
    congr 1
    funext function
    by_cases hk : k ∈ originals addressOf pointers <;> simp [hk, trampolineBlock]
  · intro x
    rw [hredirected.globals, deleteBodies_globals]
  · intro hfresh hdistinct k hk
    rw [hredirected.exact ?_ ?_ k hk, hname k hk]
    · intro k hk
      rw [hname k hk, Module.names, names_deleteBodies, deleteBodies_globals]
      intro hmem
      apply hfresh k hk
      simp only [Module.names, List.map_append, List.mem_append] at hmem ⊢
      tauto
    · intro k hk k' hk' heq
      rw [hname k hk, hname k' hk'] at heq
      exact hdistinct k hk k' hk' heq

theorem cloneOf_eq_some_iff {flat : List Pointer} (hnodup : (flat.map Prod.snd).Nodup) {n p f : Nat} :
    cloneOf n flat p = some f ↔ ∃ j pointer, flat[j]? = some pointer ∧ pointer.2 = p ∧ f = n + j := by
  constructor
  · intro h
    obtain ⟨j, hj, rfl⟩ := Option.map_eq_some_iff.mp h
    obtain ⟨hlt, heq, -⟩ := List.findIdx?_eq_some_iff_getElem.mp hj
    exact ⟨j, flat[j], List.getElem?_eq_getElem hlt, by simpa using heq, rfl⟩
  · rintro ⟨j, pointer, hj, rfl, rfl⟩
    exact cloneOf_eq hnodup hj

theorem cloneOf_pairwise {flat : List Pointer} (hnodup : (flat.map Prod.snd).Nodup)
    (hpointers : (pointers.map Prod.snd).Nodup) (n : Nat) :
    pointers.Pairwise fun pointer pointer' =>
      ∀ f, cloneOf n flat pointer.2 = some f → cloneOf n flat pointer'.2 ≠ some f := by
  refine (List.pairwise_map.mp hpointers).imp ?_
  intro pointer pointer' hne f h h'
  obtain ⟨j, q, hj, hq, rfl⟩ := (cloneOf_eq_some_iff hnodup).mp h
  obtain ⟨j', q', hj', hq', heq⟩ := (cloneOf_eq_some_iff hnodup).mp h'
  obtain rfl : j = j' := by omega
  rw [hj] at hj'
  obtain rfl := Option.some.inj hj'
  exact hne (hq.symm.trans hq')

theorem length_eq_of_getElem? {α : Type} {xs ys : List α} {g : Nat → α → α}
    (h : ∀ k : Nat, xs[k]? = ys[k]?.map (g k)) : xs.length = ys.length := by
  refine Nat.le_antisymm ?_ ?_
  · have hnone := h ys.length
    rw [List.getElem?_eq_none (Nat.le_refl _), Option.map_none] at hnone
    exact List.getElem?_eq_none_iff.mp hnone
  · have hnone := h xs.length
    rw [List.getElem?_eq_none (Nat.le_refl _)] at hnone
    exact List.getElem?_eq_none_iff.mp (Option.map_eq_none_iff.mp hnone.symm)

theorem applyMutations_length {mutatedFunction : Nat → Option Nat} {m : Module} :
    (pointers.foldl (applyMutation mutation mutatedFunction) m).functions.length =
      m.functions.length := by
  induction pointers generalizing m with
  | nil => rfl
  | cons first rest ih =>
      rw [List.foldl_cons, ih]
      exact length_eq_of_getElem? fun k => applyMutation_functions mutation mutatedFunction m first k

theorem getElem?_cloneRequests {flat : List Pointer} {j : Nat} {pointer : Pointer}
    (h : flat[j]? = some pointer) : (cloneRequests flat)[j]? =
      some (pointer.1.originalFunction, pointer.1.uniqueIdentifier) := by
  rw [cloneRequests, List.getElem?_map, h, Option.map_some]

theorem getElem?_originalRequests {bitcodeIdentifier : String} {m : Module} {keys : List Nat}
    {i k : Nat} (h : keys[i]? = some k) : (originalRequests bitcodeIdentifier m keys)[i]? =
      some (k, getOriginalFunctionName (functionName m k) bitcodeIdentifier) := by
  rw [originalRequests, List.getElem?_map, h, Option.map_some]

section Stages

variable {clones copies : List Function} {trampoline : Nat → String} {redirected : Module}
  (h : Stages addressOf pointers bitcode clones copies trampoline redirected)
  (hvalid : ∀ pointer ∈ pointers,
    pointer.1.originalFunction < bitcode.module.functions.length)

include h

theorem Stages.length_clones : clones.length = (clonedPointers addressOf pointers).length := by
  rw [h.cloned.length, cloneRequests, List.length_map]

theorem Stages.length_copies : copies.length = (originals addressOf pointers).length := by
  rw [h.copied.length, originalRequests, List.length_map]

include hvalid

/-- The trampolines replace no clone. -/
theorem Stages.getElem?_clone {j : Nat} (hj : j < clones.length) :
    redirected.functions[clonePosition bitcode j]? = clones[j]? := by
  have hnot : clonePosition bitcode j ∉ originals addressOf pointers := fun hk => by
    have := lt_of_mem_originals hvalid _ hk
    simp only [clonePosition] at this
    omega
  rw [h.functions, List.append_assoc, clonePosition, List.getElem?_append_right (by omega),
    Nat.add_sub_cancel_left, List.getElem?_append_left hj]
  simp only [clonePosition] at hnot
  simp [hnot]

/-- And no copy. -/
theorem Stages.getElem?_copy (i : Nat) :
    redirected.functions[copyPosition addressOf pointers bitcode i]? = copies[i]? := by
  have hnot : copyPosition addressOf pointers bitcode i ∉ originals addressOf pointers :=
    fun hk => by
      have := lt_of_mem_originals hvalid _ hk
      simp only [copyPosition] at this
      omega
  have hget : (bitcode.module.functions ++ clones ++ copies)[copyPosition addressOf pointers
      bitcode i]? = copies[i]? := by
    rw [copyPosition, ← h.length_clones, ← List.length_append,
      List.getElem?_append_right (by omega), Nat.add_sub_cancel_left]
  rw [h.functions, hget]
  simp [hnot]

end Stages

theorem Stages.layout {clones copies : List Function} {trampoline : Nat → String}
    {redirected : Module}
    (h : Stages addressOf pointers bitcode clones copies trampoline redirected)
    (hredirect : redirect addressOf pointers bitcode =
        ⟨redirected,
          cloneOf bitcode.module.functions.length (clonedPointers addressOf pointers)⟩)
    (hpointers : (pointers.map Prod.snd).Nodup)
    (hvalid : ∀ pointer ∈ pointers,
      pointer.1.originalFunction < bitcode.module.functions.length) :
    Layout mutation addressOf pointers bitcode
      ⟨fun j => (clones[j]?.map Function.name).getD "",
        fun i => (copies[i]?.map Function.name).getD "", trampoline⟩ := by
  have hflat := @nodup_clonedPointers addressOf _ hpointers
  have hclones := h.length_clones
  have hprepare := @prepare_eq mutation addressOf pointers bitcode
  rw [hredirect] at hprepare
  -- a function that is not among the clones is not mutated
  have happly := fun k => @applyMutations_functions mutation
    (cloneOf bitcode.module.functions.length (clonedPointers addressOf pointers)) redirected
    pointers (cloneOf_pairwise hflat hpointers _) k
  have hunmutated : ∀ k, (k < bitcode.module.functions.length ∨
      bitcode.module.functions.length + clones.length ≤ k) →
      (prepare mutation addressOf pointers bitcode).module.functions[k]? =
        redirected.functions[k]? := by
    intro k hk
    rw [hprepare]
    refine (happly k).2 fun pointer hpointer hclone => ?_
    obtain ⟨j, q, hj, -, rfl⟩ := (cloneOf_eq_some_iff hflat).mp hclone
    have := (List.getElem?_eq_some_iff.mp hj).1
    omega
  constructor
  · rw [hprepare, applyMutations_length, length_eq_of_getElem? h.functions]
    simp only [List.length_append, copyPosition, hclones, h.length_copies]
  · intro k hk
    rw [hunmutated k (.inl hk), h.functions, List.append_assoc, List.getElem?_append_left hk]
  · intro j pointer hj
    have hlt : j < clones.length := hclones ▸ (List.getElem?_eq_some_iff.mp hj).1
    have hclone := @cloneOf_eq _ hflat bitcode.module.functions.length j pointer hj
    have hmem : pointer ∈ pointers := mem_clonedPointers.mp (List.mem_of_getElem? hj)
    obtain ⟨function, taken, hfunction, hcopy, -⟩ := h.cloned.copy j _ _ (getElem?_cloneRequests hj)
    rw [hprepare]
    refine ⟨hclone, ((happly (clonePosition bitcode j)).1 pointer hmem hclone).trans ?_⟩
    rw [h.getElem?_clone hvalid hlt, hcopy, hfunction]
    simp only [Option.map_some, hcopy, Option.getD_some]
  · intro i k hi
    obtain ⟨function, taken, hfunction, hcopy, -⟩ := h.copied.copy i _ _ (getElem?_originalRequests hi)
    have hk := lt_of_mem_originals hvalid k (List.mem_of_getElem? hi)
    rw [List.getElem?_append_left hk] at hfunction
    rw [hunmutated _ (.inr (by simp only [copyPosition, hclones]; omega)), h.getElem?_copy hvalid,
      hcopy, hfunction]
    simp only [Option.map_some, hcopy, Option.getD_some]
  · intro x
    rw [hprepare, applyMutations_globals, h.globals]
  · intro j pointer hj
    obtain ⟨function, taken, -, hcopy, htaken, -⟩ := h.cloned.copy j _ _ (getElem?_cloneRequests hj)
    exact ⟨taken, by simp [hcopy], htaken⟩
  · intro i k hi
    obtain ⟨function, taken, -, hcopy, -⟩ := h.copied.copy i _ _ (getElem?_originalRequests hi)
    exact ⟨taken, by simp [hcopy]⟩

/-- Every function is an original, a clone or a copy. -/
theorem Layout.position_cases {names : Names}
    (h : Layout mutation addressOf pointers bitcode names) {g : Nat}
    (hg : g < (prepare mutation addressOf pointers bitcode).module.functions.length) :
    g < bitcode.module.functions.length ∨
    (∃ j pointer, (clonedPointers addressOf pointers)[j]? = some pointer ∧
      g = clonePosition bitcode j) ∨
    ∃ i k, (originals addressOf pointers)[i]? = some k ∧
      g = copyPosition addressOf pointers bitcode i := by
  rw [h.length] at hg
  simp only [clonePosition, copyPosition] at hg ⊢
  by_cases horiginal : g < bitcode.module.functions.length
  · exact .inl horiginal
  · by_cases hclone : g < bitcode.module.functions.length + (clonedPointers addressOf pointers).length
    · refine .inr (.inl ⟨g - bitcode.module.functions.length, _, List.getElem?_eq_getElem ?_, ?_⟩)
      · omega
      · omega
    · refine .inr (.inr ⟨g - (bitcode.module.functions.length +
        (clonedPointers addressOf pointers).length), _, List.getElem?_eq_getElem ?_, ?_⟩)
      · omega
      · omega

theorem Stages.cloneName_exact {clones copies : List Function} {trampoline : Nat → String}
    {redirected : Module}
    (h : Stages addressOf pointers bitcode clones copies trampoline redirected)
    (hfresh : FreshClones pointers bitcode) {j : Nat} {pointer : Pointer}
    (hj : (clonedPointers addressOf pointers)[j]? = some pointer) :
    clones[j]?.map Function.name = some pointer.1.uniqueIdentifier := by
  have hperm := (mapOf_getMutationPointsMap addressOf pointers).perm
  have hnodup : ((cloneRequests (clonedPointers addressOf pointers)).map Prod.snd).Nodup := by
    rw [cloneRequests, List.map_map]
    exact ((hperm.map fun pointer => pointer.1.uniqueIdentifier).nodup_iff).mpr hfresh.nodup
  have hnew : ∀ request ∈ cloneRequests (clonedPointers addressOf pointers),
      request.2 ∉ bitcode.module.names := by
    intro request hrequest
    obtain ⟨pointer, hpointer, rfl⟩ := List.mem_map.mp hrequest
    exact hfresh.fresh pointer (mem_clonedPointers.mp hpointer)
  obtain ⟨function, -, hget⟩ := h.cloned.exact hnodup hnew (getElem?_cloneRequests hj)
  rw [hget]
  rfl

/-- With names that are not taken, the clones are named by the identifiers. -/
theorem Stages.cloneNames_eq {clones copies : List Function} {trampoline : Nat → String}
    {redirected : Module}
    (h : Stages addressOf pointers bitcode clones copies trampoline redirected)
    (hfresh : FreshClones pointers bitcode) {name : String}
    (hname : name ∈ clones.map Function.name) :
    name ∈ pointers.map (·.1.uniqueIdentifier) := by
  obtain ⟨j, hj⟩ := List.getElem?_of_mem hname
  rw [List.getElem?_map] at hj
  have hlt : j < (clonedPointers addressOf pointers).length := by
    obtain ⟨clone, hclone, -⟩ := Option.map_eq_some_iff.mp hj
    have hlt := (List.getElem?_eq_some_iff.mp hclone).1
    rwa [h.cloned.length, cloneRequests, List.length_map] at hlt
  have hget := List.getElem?_eq_getElem hlt
  rw [h.cloneName_exact hfresh hget] at hj
  obtain rfl := Option.some.inj hj
  exact List.mem_map_of_mem (mem_clonedPointers.mp (List.mem_of_getElem? hget))

/-- The copies get the names they ask for, if neither the module nor a clone has them. -/
theorem Stages.copyName_of_new {clones copies : List Function} {trampoline : Nat → String}
    {redirected : Module}
    (h : Stages addressOf pointers bitcode clones copies trampoline redirected)
    (hdistinct : ∀ k ∈ originals addressOf pointers, ∀ k' ∈ originals addressOf pointers,
      functionName bitcode.module k = functionName bitcode.module k' → k = k')
    (hnew : ∀ k ∈ originals addressOf pointers,
      getOriginalFunctionName (functionName bitcode.module k) bitcode.uniqueIdentifier ∉
        bitcode.module.names ++ clones.map Function.name) {i k : Nat}
    (hi : (originals addressOf pointers)[i]? = some k) :
    copies[i]?.map Function.name =
      some (getOriginalFunctionName (functionName bitcode.module k) bitcode.uniqueIdentifier) := by
  have hnodup : ((originalRequests bitcode.uniqueIdentifier bitcode.module
      (originals addressOf pointers)).map Prod.snd).Nodup := by
    rw [originalRequests, List.map_map]
    refine originals_nodup.map_on fun k hk k' hk' heq => ?_
    exact hdistinct k hk k' hk' (getOriginalFunctionName_inj heq)
  have hfree : ∀ request ∈ originalRequests bitcode.uniqueIdentifier bitcode.module
      (originals addressOf pointers), request.2 ∉ Module.names
        { bitcode.module with functions := bitcode.module.functions ++ clones } := by
    intro request hrequest hmem
    obtain ⟨k, hk, rfl⟩ := List.mem_map.mp hrequest
    apply hnew k hk
    simp only [Module.names, List.map_append, List.mem_append] at hmem ⊢
    rcases hmem with (hold | hclone) | hglobal
    · exact .inl (.inl hold)
    · exact .inr hclone
    · exact .inl (.inr hglobal)
  obtain ⟨function, -, hget⟩ := h.copied.exact hnodup hfree (getElem?_originalRequests hi)
  rw [hget]
  rfl

theorem Stages.copyName_exact {clones copies : List Function} {trampoline : Nat → String}
    {redirected : Module}
    (h : Stages addressOf pointers bitcode clones copies trampoline redirected)
    (hfresh : Fresh addressOf pointers bitcode) {i k : Nat}
    (hi : (originals addressOf pointers)[i]? = some k) :
    copies[i]?.map Function.name =
      some (getOriginalFunctionName (functionName bitcode.module k) bitcode.uniqueIdentifier) := by
  refine h.copyName_of_new hfresh.distinct (fun k hk hmem => ?_) hi
  rcases List.mem_append.mp hmem with hold | hclone
  · exact hfresh.copy k hk (List.mem_append_left _ hold)
  · exact hfresh.copy k hk (List.mem_append_right _ (h.cloneNames_eq hfresh.toFreshClones hclone))

theorem Stages.trampoline_exact {clones copies : List Function} {trampoline : Nat → String}
    {redirected : Module}
    (h : Stages addressOf pointers bitcode clones copies trampoline redirected)
    (hfresh : Fresh addressOf pointers bitcode) :
    ∀ k ∈ originals addressOf pointers, trampoline k =
      getTrampolineName (functionName bitcode.module k) bitcode.uniqueIdentifier := by
  refine h.exact (fun k hk hmem => ?_) hfresh.distinct
  rw [List.map_append, List.mem_append, List.mem_append] at hmem
  rcases hmem with hold | hclone | hcopy
  · exact hfresh.trampoline k hk (List.mem_append_left _ hold)
  · exact hfresh.trampoline k hk
      (List.mem_append_right _ (h.cloneNames_eq hfresh.toFreshClones hclone))
  · -- a trampoline is not named like a copy
    obtain ⟨i, hi⟩ := List.getElem?_of_mem hcopy
    rw [List.getElem?_map] at hi
    have hlt : i < (originals addressOf pointers).length := by
      obtain ⟨copy, hget, -⟩ := Option.map_eq_some_iff.mp hi
      have hlt := (List.getElem?_eq_some_iff.mp hget).1
      rwa [h.copied.length, originalRequests, List.length_map] at hlt
    rw [h.copyName_exact hfresh (List.getElem?_eq_getElem hlt)] at hi
    exact getTrampolineName_ne_original (Option.some.inj hi).symm

/-- **The passes leave the originals, the clones and the copies as described,** under the
    names they ask for if those are not taken. -/
theorem exists_layout (mutation : BodyMutation) (hpointers : (pointers.map Prod.snd).Nodup)
    (hvalid : ∀ pointer ∈ pointers,
      pointer.1.originalFunction < bitcode.module.functions.length) :
    ∃ names, Layout mutation addressOf pointers bitcode names ∧
      (FreshClones pointers bitcode → ∀ j pointer,
        (clonedPointers addressOf pointers)[j]? = some pointer →
          names.clone j = pointer.1.uniqueIdentifier) ∧
      (Fresh addressOf pointers bitcode →
        (∀ i k, (originals addressOf pointers)[i]? = some k → names.copy i =
          getOriginalFunctionName (functionName bitcode.module k) bitcode.uniqueIdentifier) ∧
        ∀ k ∈ originals addressOf pointers, names.trampoline k =
          getTrampolineName (functionName bitcode.module k) bitcode.uniqueIdentifier) := by
  obtain ⟨clones, copies, trampoline, redirected, hstages, hredirect⟩ :=
    @exists_stages addressOf pointers bitcode hpointers hvalid
  refine ⟨_, hstages.layout hredirect hpointers hvalid, ?_, fun hfresh => ⟨?_, ?_⟩⟩
  · intro hfresh j pointer hj
    exact congrArg (Option.getD · "") (hstages.cloneName_exact hfresh hj)
  · intro i k hi
    exact congrArg (Option.getD · "") (hstages.copyName_exact hfresh hi)
  · exact hstages.trampoline_exact hfresh

end Layout

end Mull.Schemata
