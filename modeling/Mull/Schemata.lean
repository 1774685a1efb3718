import Mull.MutationPoint

/-!
# Mutant schemata

All mutants of a program live in one executable.  For every mutation point its function
is cloned, and the mutation is applied to the clone; the original body moves to a copy,
and the original function becomes a trampoline: it loads the address of a function from
a global variable and calls it.

Here are the four passes, and what each of them does to a module: copies are appended at
its end, under names that are changed if they are taken, and bodies are replaced in place.
-/

namespace Mull.Schemata

open IR Mutators MutationPoints

/-! ### The points of a file -/

/-- A `MutationPoint *`: a point, and where it stands in the list of points. -/
abbrev Pointer := MutationPoint × Nat

/-- The map from functions to their points, in the order of the functions' addresses. -/
abbrev MutationPointsMap := List (Nat × List Pointer)

/-- `Bitcode::addMutation`; `addressOf` is where the functions lie in memory. -/
def addMutation (addressOf : Nat → Nat) (mutationPoints : MutationPointsMap) (pointer : Pointer) :
    MutationPointsMap :=
  let function := pointer.1.originalFunction
  if function ∈ mutationPoints.map Prod.fst then
    mutationPoints.map fun entry =>
      if entry.1 = function then (entry.1, entry.2 ++ [pointer]) else entry
  else
    mutationPoints.takeWhile (fun entry => addressOf entry.1 < addressOf function) ++
      (function, [pointer]) ::
      mutationPoints.dropWhile fun entry => addressOf entry.1 < addressOf function

/-- The points of file `b`. -/
def pointersOf (points : List MutationPoint) (b : Nat) : List Pointer :=
  points.zipIdx.filter (·.1.bitcode = b)

def getMutationPointsMap (addressOf : Nat → Nat) (pointers : List Pointer) : MutationPointsMap :=
  pointers.foldl (addMutation addressOf) []

/-- What the map is after the points in `pointers` have been added. -/
structure MapOf (pointers : List Pointer) (mutationPoints : MutationPointsMap) : Prop where
  keys : (mutationPoints.map Prod.fst).Nodup
  nonempty : ∀ entry ∈ mutationPoints, entry.2 ≠ []
  function : ∀ entry ∈ mutationPoints, ∀ pointer ∈ entry.2,
    pointer.1.originalFunction = entry.1
  perm : (mutationPoints.flatMap Prod.snd).Perm pointers

theorem MapOf.insert {pointers : List Pointer} {before after : MutationPointsMap}
    (h : MapOf pointers (before ++ after)) {pointer : Pointer}
    (hnew : pointer.1.originalFunction ∉ (before ++ after).map Prod.fst) :
    MapOf (pointers ++ [pointer])
      (before ++ (pointer.1.originalFunction, [pointer]) :: after) := by
  have hmem : ∀ entry, entry ∈ before ++ (pointer.1.originalFunction, [pointer]) :: after ↔
      entry = (pointer.1.originalFunction, [pointer]) ∨ entry ∈ before ++ after :=
    fun entry => List.perm_middle.mem_iff.trans List.mem_cons
  refine ⟨?_, ?_, ?_, ?_⟩
  · exact ((List.perm_middle.map Prod.fst).nodup_iff).mpr (List.nodup_cons.mpr ⟨hnew, h.keys⟩)
  · intro entry hentry
    rcases (hmem entry).mp hentry with rfl | hold
    · exact List.cons_ne_nil _ _
    · exact h.nonempty entry hold
  · intro entry hentry q hq
    rcases (hmem entry).mp hentry with rfl | hold
    · rw [List.mem_singleton.mp hq]
    · exact h.function entry hold q hq
  · have hflat := h.perm
    rw [List.flatMap_append] at hflat ⊢
    exact (List.perm_middle.trans (hflat.cons pointer)).trans
      (List.perm_append_singleton pointer pointers).symm

/-- Adding a point to the entry of its function. -/
theorem flatMap_update_perm {mutationPoints : MutationPointsMap} {function : Nat}
    (hkeys : (mutationPoints.map Prod.fst).Nodup) (hmem : function ∈ mutationPoints.map Prod.fst)
    (pointer : Pointer) :
    ((mutationPoints.map fun entry =>
        if entry.1 = function then (entry.1, entry.2 ++ [pointer]) else entry).flatMap
      Prod.snd).Perm (mutationPoints.flatMap Prod.snd ++ [pointer]) := by
  induction mutationPoints with
  | nil => cases hmem
  | cons entry rest ih =>
      obtain ⟨hnot, hrest⟩ := List.nodup_cons.mp hkeys
      by_cases heq : entry.1 = function
      · -- the other entries have other functions
        have hsame : (rest.map fun entry =>
            if entry.1 = function then (entry.1, entry.2 ++ [pointer]) else entry) = rest := by
          refine (List.map_congr_left fun other hother => if_neg ?_).trans (List.map_id rest)
          rintro rfl
          exact hnot (heq ▸ List.mem_map_of_mem hother)
        simp only [List.map_cons, heq, if_true, hsame, List.flatMap_cons, List.append_assoc]
        exact (List.perm_append_comm).append_left _
      · have hmem' : function ∈ rest.map Prod.fst := by
          rcases List.mem_cons.mp hmem with h | h
          · exact absurd h.symm heq
          · exact h
        simp only [List.map_cons, heq, if_false, List.flatMap_cons, List.append_assoc]
        exact (ih hrest hmem').append_left _

theorem MapOf.add {addressOf : Nat → Nat} {pointers : List Pointer}
    {mutationPoints : MutationPointsMap} (h : MapOf pointers mutationPoints) (pointer : Pointer) :
    MapOf (pointers ++ [pointer]) (addMutation addressOf mutationPoints pointer) := by
  unfold addMutation
  by_cases hmem : pointer.1.originalFunction ∈ mutationPoints.map Prod.fst
  · simp only [hmem, if_true]
    refine ⟨?_, ?_, ?_, (flatMap_update_perm h.keys hmem pointer).trans (h.perm.append_right _)⟩
    · have hkeys : (mutationPoints.map fun entry =>
          if entry.1 = pointer.1.originalFunction then (entry.1, entry.2 ++ [pointer])
          else entry).map Prod.fst = mutationPoints.map Prod.fst := by
        rw [List.map_map]
        refine List.map_congr_left fun entry _ => ?_
        simp only [Function.comp_apply]
        split <;> rfl
      rw [hkeys]
      exact h.keys
    · intro entry hentry
      obtain ⟨old, hold, rfl⟩ := List.mem_map.mp hentry
      split
      · simp
      · exact h.nonempty old hold
    · intro entry hentry q hq
      obtain ⟨old, hold, rfl⟩ := List.mem_map.mp hentry
      by_cases heq : old.1 = pointer.1.originalFunction
      · simp only [heq, if_true, List.mem_append, List.mem_singleton] at hq ⊢
        rcases hq with hq | rfl
        · rw [h.function old hold q hq, heq]
        · rfl
      · simp only [heq, if_false] at hq ⊢
        exact h.function old hold q hq
  · simp only [hmem, if_false]
    refine MapOf.insert ?_ ?_
    · rw [List.takeWhile_append_dropWhile]
      exact h
    · rw [List.takeWhile_append_dropWhile]
      exact hmem

theorem mapOf_getMutationPointsMap (addressOf : Nat → Nat) (pointers : List Pointer) :
    MapOf pointers (getMutationPointsMap addressOf pointers) := by
  have hloop : ∀ (rest before : List Pointer) (mutationPoints : MutationPointsMap),
      MapOf before mutationPoints →
      MapOf (before ++ rest) (rest.foldl (addMutation addressOf) mutationPoints) := by
    intro rest
    induction rest with
    | nil =>
        intro before mutationPoints h
        simpa using h
    | cons pointer rest ih =>
        intro before mutationPoints h
        rw [← List.singleton_append, ← List.append_assoc]
        exact ih _ _ (h.add pointer)
  exact hloop pointers [] [] ⟨by simp, by simp, by simp, by simp⟩

/-! ### The passes -/

/-- A module on its way, and the clones of the points. -/
structure Prepared where
  module : Module
  mutatedFunction : Nat → Option Nat

def functionName (m : Module) (f : Nat) : String :=
  (m.functions[f]?.map Function.name).getD ""

/-- `CloneFunction` and `setName`. -/
def appendCopy (m : Module) (f : Nat) (name : String) : Module :=
  (m.cloneFunction f).1.setName (m.cloneFunction f).2 name

/-- `setMutatedFunction`, with a clone of the original function. -/
def cloneFunction (original : Nat) (prepared : Prepared) (pointer : Pointer) : Prepared where
  module := appendCopy prepared.module original pointer.1.uniqueIdentifier
  mutatedFunction := Function.update prepared.mutatedFunction pointer.2
    (some (prepared.module.cloneFunction original).2)

def cloneFunctions (mutationPoints : MutationPointsMap) (prepared : Prepared) : Prepared :=
  mutationPoints.foldl (fun prepared entry => entry.2.foldl (cloneFunction entry.1) prepared)
    prepared

/-- The names that `cloneFunctions` puts into its output. -/
def trampolineNames (bitcodeIdentifier : String) (m : Module) (mutationPoints : MutationPointsMap) :
    List String :=
  mutationPoints.map fun entry => getTrampolineName (functionName m entry.1) bitcodeIdentifier

def deleteFunctions (bitcodeIdentifier : String) (mutationPoints : MutationPointsMap) (m : Module) :
    Module :=
  mutationPoints.foldl (fun m entry =>
    (appendCopy m entry.1
      (getOriginalFunctionName (functionName m entry.1) bitcodeIdentifier)).deleteBody entry.1) m

/-- Load the trampoline, call it with all arguments and return the result. -/
def trampolineBlock (function : Function) (trampoline : String) : Block :=
  [.load (.global trampoline) 0,
    .call (.register 0) ((List.range function.type.params.length).map .argument) 1,
    .ret (some (.register 1))]

def insertTrampoline (bitcodeIdentifier : String) (m : Module) (original : Nat) : Module :=
  let (m, trampoline) :=
    m.getOrInsertGlobal (getTrampolineName (functionName m original) bitcodeIdentifier)
  match m.functions[original]? with
  | none => m
  | some function =>
      m.setFunction original
        { function with blocks := function.blocks ++ [trampolineBlock function trampoline] }

def insertTrampolines (bitcodeIdentifier : String) (mutationPoints : MutationPointsMap)
    (m : Module) : Module :=
  mutationPoints.foldl (fun m entry => insertTrampoline bitcodeIdentifier m entry.1) m

/-- What the mutators do to a body; a body stays a body. -/
structure BodyMutation where
  apply : MutationPoint → List Block → List Block
  nonempty : ∀ point blocks, blocks ≠ [] → apply point blocks ≠ []

/-- `applyMutation`, to the clone. -/
def applyMutation (mutation : BodyMutation) (mutatedFunction : Nat → Option Nat) (m : Module)
    (pointer : Pointer) : Module :=
  match mutatedFunction pointer.2 with
  | none => m
  | some f =>
      match m.functions[f]? with
      | none => m
      | some function =>
          m.setFunction f { function with blocks := mutation.apply pointer.1 function.blocks }

/-- The module of a file after all passes, with the clones of its points. -/
def prepare (mutation : BodyMutation) (addressOf : Nat → Nat) (pointers : List Pointer)
    (bitcode : Bitcode) : Prepared :=
  let mutationPoints := getMutationPointsMap addressOf pointers
  let cloned := cloneFunctions mutationPoints ⟨bitcode.module, fun _ => none⟩
  let deleted := deleteFunctions bitcode.uniqueIdentifier mutationPoints cloned.module
  let redirected := insertTrampolines bitcode.uniqueIdentifier mutationPoints deleted
  { cloned with
    module := pointers.foldl (applyMutation mutation cloned.mutatedFunction) redirected }

/-! ### Copies at the end of a module -/

theorem appendCopy_eq {m : Module} {f : Nat} {function : Function}
    (h : m.functions[f]? = some function) (name : String) :
    appendCopy m f name = { m with
      functions := m.functions ++ [{ function with name := Module.uniqueName m.names name }] } := by
  simp only [appendCopy, Module.cloneFunction, h, Module.setName, List.getElem?_concat_length]
  simp [Module.setFunction, Module.names, List.eraseIdx_append_of_length_le]

/-- One copy for every function in the list, under the name it asks for. -/
def appendCopies (m : Module) (requests : List (Nat × String)) : Module :=
  requests.foldl (fun m request => appendCopy m request.1 request.2) m

theorem appendCopies_concat (m : Module) (requests : List (Nat × String)) (request : Nat × String) :
    appendCopies m (requests ++ [request]) =
      appendCopy (appendCopies m requests) request.1 request.2 := by
  rw [appendCopies, List.foldl_append]
  rfl

/-- What `appendCopies` has appended. -/
structure Appended (m : Module) (requests : List (Nat × String)) (new : List Function) :
    Prop where
  eq : appendCopies m requests = { m with functions := m.functions ++ new }
  length : new.length = requests.length
  copy : ∀ j f name, requests[j]? = some (f, name) → ∃ (function : Function) (taken : List String),
    m.functions[f]? = some function ∧
    new[j]? = some { function with name := Module.uniqueName taken name } ∧
    (∀ x ∈ m.names, x ∈ taken) ∧
    ∀ x ∈ taken, x ∈ m.names ∨
      ∃ (i : Nat) (copy : Function), i < j ∧ new[i]? = some copy ∧ copy.name = x

theorem exists_appended {m : Module} {requests : List (Nat × String)}
    (hvalid : ∀ request ∈ requests, request.1 < m.functions.length) :
    ∃ new, Appended m requests new := by
  induction requests using List.reverseRecOn with
  | nil => exact ⟨[], by simp [appendCopies], rfl, by simp⟩
  | append_singleton requests request ih =>
      obtain ⟨new, hnew⟩ := ih fun request hrequest => hvalid request (List.mem_append_left _ hrequest)
      have hlt := hvalid request (by simp)
      obtain ⟨function, hfunction⟩ : ∃ function, m.functions[request.1]? = some function :=
        ⟨_, List.getElem?_eq_getElem hlt⟩
      have hget : (appendCopies m requests).functions[request.1]? = some function := by
        rw [hnew.eq]
        exact (List.getElem?_append_left hlt).trans hfunction
      refine ⟨new ++ [{ function with
        name := Module.uniqueName (appendCopies m requests).names request.2 }], ?_, ?_, ?_⟩
      · rw [appendCopies_concat, appendCopy_eq hget, hnew.eq]
        simp
      · simp [hnew.length]
      · intro j f name hj
        have hnames : ∀ x, x ∈ (appendCopies m requests).names ↔
            x ∈ m.names ∨ ∃ copy ∈ new, copy.name = x := by
          intro x
          rw [hnew.eq]
          simp only [Module.names, List.map_append, List.mem_append, List.mem_map]
          exact or_right_comm
        rcases Nat.lt_or_ge j requests.length |>.symm with hlast | hbefore
        · -- the new copy
          obtain rfl : j = requests.length := by
            have hbound := (List.getElem?_eq_some_iff.mp hj).1
            simp only [List.length_append, List.length_singleton] at hbound
            omega
          rw [List.getElem?_concat_length] at hj
          obtain rfl : request = (f, name) := Option.some.inj hj
          refine ⟨function, (appendCopies m requests).names, hfunction, ?_, ?_, ?_⟩
          · rw [← hnew.length, List.getElem?_concat_length]
          · exact fun x hx => (hnames x).mpr (.inl hx)
          · intro x hx
            rcases (hnames x).mp hx with hold | ⟨copy, hcopy, rfl⟩
            · exact .inl hold
            · obtain ⟨i, hi⟩ := List.getElem?_of_mem hcopy
              have hlt' := (List.getElem?_eq_some_iff.mp hi).1
              refine .inr ⟨i, copy, hnew.length ▸ hlt', ?_, rfl⟩
              rw [List.getElem?_append_left hlt', hi]
        · rw [List.getElem?_append_left hbefore] at hj
          obtain ⟨function', taken, hfunction', hcopy, hsub, htaken⟩ := hnew.copy j f name hj
          refine ⟨function', taken, hfunction', ?_, hsub, ?_⟩
          · rw [List.getElem?_append_left (hnew.length ▸ hbefore), hcopy]
          · intro x hx
            rcases htaken x hx with hold | ⟨i, copy, hi, hget, hname⟩
            · exact .inl hold
            · refine .inr ⟨i, copy, hi, ?_, hname⟩
              rw [List.getElem?_append_left (List.getElem?_eq_some_iff.mp hget).1, hget]

/-- Names that are new and distinct are given as they are asked for. -/
theorem Appended.exact {m : Module} {requests : List (Nat × String)} {new : List Function}
    (h : Appended m requests new) (hnodup : (requests.map Prod.snd).Nodup)
    (hfresh : ∀ request ∈ requests, request.2 ∉ m.names) {j f : Nat} {name : String}
    (hj : requests[j]? = some (f, name)) :
    ∃ function : Function,
      m.functions[f]? = some function ∧ new[j]? = some { function with name := name } := by
  induction j using Nat.strongRecOn generalizing f name with
  | ind j ih =>
      obtain ⟨function, taken, hfunction, hcopy, -, htaken⟩ := h.copy j f name hj
      refine ⟨function, hfunction, ?_⟩
      rw [hcopy, Module.uniqueName_of_not_mem]
      intro hmem
      rcases htaken name hmem with hold | ⟨i, copy, hi, hget, hname⟩
      · exact hfresh _ (List.mem_of_getElem? hj) hold
      · -- an earlier copy has got the name that it asked for
        have hlt : i < requests.length := Nat.lt_trans hi (List.getElem?_eq_some_iff.mp hj).1
        have hi' : requests[i]? = some (requests[i].1, requests[i].2) :=
          List.getElem?_eq_getElem hlt
        obtain ⟨function', -, hget'⟩ := ih i hi hi'
        obtain rfl := Option.some.inj (hget.symm.trans hget')
        have heq : (requests.map Prod.snd)[i]? = (requests.map Prod.snd)[j]? := by
          rw [List.getElem?_map, List.getElem?_map, hi', hj, Option.map_some, Option.map_some]
          exact congrArg some hname
        have := (List.getElem?_inj (by simpa using hlt) hnodup).mp heq
        omega

/-! ### The first two passes -/

/-- The clones that the points ask for. -/
def cloneRequests (pointers : List Pointer) : List (Nat × String) :=
  pointers.map fun pointer => (pointer.1.originalFunction, pointer.1.uniqueIdentifier)

/-- Where the clones stand: one after another, after the `n` functions of the module. -/
def cloneOf (n : Nat) (pointers : List Pointer) (p : Nat) : Option Nat :=
  (pointers.findIdx? (·.2 = p)).map (n + ·)

theorem appendCopies_length {m : Module} {requests : List (Nat × String)}
    (hvalid : ∀ request ∈ requests, request.1 < m.functions.length) :
    (appendCopies m requests).functions.length = m.functions.length + requests.length := by
  obtain ⟨new, hnew⟩ := exists_appended hvalid
  rw [hnew.eq, List.length_append, hnew.length]

theorem cloneLoop {m : Module} {pointers : List Pointer} (hpointers : (pointers.map Prod.snd).Nodup)
    (hvalid : ∀ pointer ∈ pointers, pointer.1.originalFunction < m.functions.length) :
    pointers.foldl (fun prepared pointer =>
        cloneFunction pointer.1.originalFunction prepared pointer) ⟨m, fun _ => none⟩ =
      ⟨appendCopies m (cloneRequests pointers), cloneOf m.functions.length pointers⟩ := by
  induction pointers using List.reverseRecOn with
  | nil => rfl
  | append_singleton pointers pointer ih =>
      rw [List.map_append, List.nodup_append] at hpointers
      have hbefore : ∀ pointer ∈ pointers,
          pointer.1.originalFunction < m.functions.length :=
        fun pointer hpointer => hvalid pointer (List.mem_append_left _ hpointer)
      rw [List.foldl_append, ih hpointers.1 hbefore]
      simp only [List.foldl_cons, List.foldl_nil, cloneFunction, Prepared.mk.injEq]
      constructor
      · have hconcat : cloneRequests (pointers ++ [pointer]) = cloneRequests pointers ++
            [(pointer.1.originalFunction, pointer.1.uniqueIdentifier)] := List.map_append
        rw [hconcat, appendCopies_concat]
      · -- the copy is the last function, and its point is a new one
        have hrequests : ∀ request ∈ cloneRequests pointers, request.1 < m.functions.length := by
          intro request hrequest
          obtain ⟨pointer, hpointer, rfl⟩ := List.mem_map.mp hrequest
          exact hbefore pointer hpointer
        have hlength := appendCopies_length hrequests
        have hlt : pointer.1.originalFunction <
            (appendCopies m (cloneRequests pointers)).functions.length := by
          have := hvalid pointer (by simp)
          omega
        have hcopy : ((appendCopies m (cloneRequests pointers)).cloneFunction
            pointer.1.originalFunction).2 = m.functions.length + pointers.length := by
          simp only [Module.cloneFunction, List.getElem?_eq_getElem hlt]
          rw [hlength, cloneRequests, List.length_map]
        have hnew : pointers.findIdx? (·.2 = pointer.2) = none := by
          rw [List.findIdx?_eq_none_iff]
          intro other hother
          have := hpointers.2.2 _ (List.mem_map_of_mem hother) pointer.2 (by simp)
          simpa using this
        rw [hcopy]
        funext p
        unfold cloneOf
        rw [List.findIdx?_append]
        by_cases hp : p = pointer.2
        · rw [hp, Function.update_self, hnew]
          simp
        · rw [Function.update_of_ne hp]
          simp [List.findIdx?_cons, Ne.symm hp]

theorem MapOf.cloneFunctions_eq {pointers : List Pointer} {mutationPoints : MutationPointsMap}
    (h : MapOf pointers mutationPoints) (hpointers : (pointers.map Prod.snd).Nodup)
    {m : Module} (hvalid : ∀ pointer ∈ pointers, pointer.1.originalFunction < m.functions.length) :
    cloneFunctions mutationPoints ⟨m, fun _ => none⟩ =
      ⟨appendCopies m (cloneRequests (mutationPoints.flatMap Prod.snd)),
        cloneOf m.functions.length (mutationPoints.flatMap Prod.snd)⟩ := by
  have hflat : cloneFunctions mutationPoints ⟨m, fun _ => none⟩ =
      (mutationPoints.flatMap Prod.snd).foldl (fun prepared pointer =>
        cloneFunction pointer.1.originalFunction prepared pointer) ⟨m, fun _ => none⟩ := by
    rw [cloneFunctions, List.foldl_flatMap]
    refine List.foldl_ext _ _ _ fun prepared entry hentry => ?_
    refine List.foldl_ext _ _ _ fun prepared pointer hpointer => ?_
    rw [h.function entry hentry pointer hpointer]
  rw [hflat]
  refine cloneLoop ?_ fun pointer hpointer => hvalid pointer (h.perm.mem_iff.mp hpointer)
  exact ((h.perm.map Prod.snd).nodup_iff).mpr hpointers

/-- The copies that the originals ask for. -/
def originalRequests (bitcodeIdentifier : String) (m : Module) (originals : List Nat) :
    List (Nat × String) :=
  originals.map fun f => (f, getOriginalFunctionName (functionName m f) bitcodeIdentifier)

def deleteBodies (m : Module) (originals : List Nat) : Module :=
  originals.foldl Module.deleteBody m

theorem names_deleteBody (m : Module) (f : Nat) : (m.deleteBody f).names = m.names := by
  unfold Module.deleteBody
  cases hget : m.functions[f]? with
  | none => rfl
  | some function => exact Module.names_setFunction hget rfl

theorem deleteBody_functions (m : Module) (f k : Nat) :
    (m.deleteBody f).functions[k]? = m.functions[k]?.map fun function =>
      if k = f then { function with blocks := [] } else function := by
  unfold Module.deleteBody
  cases hget : m.functions[f]? with
  | none =>
      by_cases hk : k = f
      · simp [hk, hget]
      · simp [hk]
  | some function =>
      simp only [Module.setFunction, List.getElem?_set]
      by_cases hk : k = f
      · rw [hk, hget]
        simp [(List.getElem?_eq_some_iff.mp hget).1]
      · simp [hk, Ne.symm hk]

theorem deleteBodies_functions (m : Module) (originals : List Nat) (k : Nat) :
    (deleteBodies m originals).functions[k]? = m.functions[k]?.map fun function =>
      if k ∈ originals then { function with blocks := [] } else function := by
  induction originals generalizing m with
  | nil => simp [deleteBodies]
  | cons f originals ih =>
      change (deleteBodies (m.deleteBody f) originals).functions[k]? = _
      rw [ih, deleteBody_functions, Option.map_map]
      congr 1
      funext function
      simp only [Function.comp_apply, List.mem_cons]
      by_cases hf : k = f <;> by_cases hmem : k ∈ originals <;> simp [hf, hmem]

theorem deleteBodies_globals (m : Module) (originals : List Nat) :
    (deleteBodies m originals).globals = m.globals := by
  induction originals generalizing m with
  | nil => rfl
  | cons f originals ih =>
      refine (ih (m.deleteBody f)).trans ?_
      unfold Module.deleteBody
      split <;> rfl

/-- Deleting one body and copying another function can be exchanged. -/
theorem appendCopy_deleteBody {m : Module} {f k : Nat} (hne : f ≠ k) (hf : f < m.functions.length)
    (hk : k < m.functions.length) (name : String) :
    appendCopy (m.deleteBody k) f name = (appendCopy m f name).deleteBody k := by
  have hget := List.getElem?_eq_getElem hf
  have hget' : (m.deleteBody k).functions[f]? = some m.functions[f] := by
    rw [deleteBody_functions, hget]
    simp [hne]
  rw [appendCopy_eq hget', appendCopy_eq hget, names_deleteBody]
  simp only [Module.deleteBody, List.getElem?_eq_getElem hk, List.getElem?_append_left hk,
    Module.setFunction, List.set_append_left _ _ hk]

theorem appendCopies_deleteBody {m : Module} {requests : List (Nat × String)} {k : Nat}
    (hvalid : ∀ request ∈ requests, request.1 < m.functions.length ∧ request.1 ≠ k)
    (hk : k < m.functions.length) :
    appendCopies (m.deleteBody k) requests = (appendCopies m requests).deleteBody k := by
  induction requests using List.reverseRecOn with
  | nil => rfl
  | append_singleton requests request ih =>
      have hbefore := fun other hother => hvalid other (List.mem_append_left [request] hother)
      have hlength := appendCopies_length fun other hother => (hbefore other hother).1
      obtain ⟨hlt, hne⟩ := hvalid request (by simp)
      rw [appendCopies_concat, appendCopies_concat, ih hbefore,
        appendCopy_deleteBody hne (by omega) (by omega)]

/-- The bodies are deleted one by one, each after its copy was made; as no function is
    copied again, all copies can be made first. -/
theorem deleteFunctions_eq {bitcodeIdentifier : String} {mutationPoints : MutationPointsMap}
    {m : Module} (hkeys : (mutationPoints.map Prod.fst).Nodup)
    (hvalid : ∀ f ∈ mutationPoints.map Prod.fst, f < m.functions.length) :
    deleteFunctions bitcodeIdentifier mutationPoints m =
      deleteBodies (appendCopies m (originalRequests bitcodeIdentifier m
        (mutationPoints.map Prod.fst))) (mutationPoints.map Prod.fst) := by
  induction mutationPoints generalizing m with
  | nil => rfl
  | cons entry rest ih =>
      obtain ⟨hnot, hrest⟩ := List.nodup_cons.mp hkeys
      have hlt := hvalid entry.1 (by simp)
      have hget := List.getElem?_eq_getElem hlt
      have hcopy := appendCopy_eq hget
        (getOriginalFunctionName (functionName m entry.1) bitcodeIdentifier)
      have hlength : (appendCopy m entry.1 (getOriginalFunctionName (functionName m entry.1)
          bitcodeIdentifier)).functions.length = m.functions.length + 1 := by
        rw [hcopy, List.length_append, List.length_singleton]
      have hothers : ∀ f ∈ rest.map Prod.fst, f < m.functions.length ∧ f ≠ entry.1 :=
        fun f hf => ⟨hvalid f (List.mem_cons_of_mem _ hf), fun heq => hnot (heq ▸ hf)⟩
      change deleteFunctions bitcodeIdentifier rest ((appendCopy m entry.1 (getOriginalFunctionName
        (functionName m entry.1) bitcodeIdentifier)).deleteBody entry.1) = _
      rw [ih hrest ?_]
      · -- the names are those of the functions at the start
        have hnames : originalRequests bitcodeIdentifier ((appendCopy m entry.1
            (getOriginalFunctionName (functionName m entry.1) bitcodeIdentifier)).deleteBody entry.1)
            (rest.map Prod.fst) = originalRequests bitcodeIdentifier m (rest.map Prod.fst) := by
          refine List.map_congr_left fun f hf => ?_
          have hsame : functionName ((appendCopy m entry.1 (getOriginalFunctionName
              (functionName m entry.1) bitcodeIdentifier)).deleteBody entry.1) f =
              functionName m f := by
            rw [functionName, deleteBody_functions, hcopy, List.getElem?_append_left (hothers f hf).1]
            simp [functionName, (hothers f hf).2]
          rw [hsame]
        rw [hnames, appendCopies_deleteBody ?_ (by omega)]
        · rfl
        · intro request hrequest
          obtain ⟨f, hf, rfl⟩ := List.mem_map.mp hrequest
          obtain ⟨hlt', hne⟩ := hothers f hf
          exact ⟨by omega, hne⟩
      · intro f hf
        have hsame : ((appendCopy m entry.1 (getOriginalFunctionName (functionName m entry.1)
            bitcodeIdentifier)).deleteBody entry.1).functions.length =
            m.functions.length + 1 := by
          rw [← hlength]
          unfold Module.deleteBody
          split
          · rfl
          · exact List.length_set
        have := (hothers f hf).1
        omega

/-! ### Trampolines -/

/-- The trampolines as they are named in the end. -/
structure Redirected (bitcodeIdentifier : String) (m : Module) (originals : List Nat)
    (trampoline : Nat → String) (m' : Module) : Prop where
  functions : ∀ k, m'.functions[k]? = m.functions[k]?.map fun function =>
    if k ∈ originals then
      { function with blocks := function.blocks ++ [trampolineBlock function (trampoline k)] }
    else function
  globals : ∀ x, x ∈ m'.globals ↔ x ∈ m.globals ∨ ∃ k ∈ originals, x = trampoline k
  exact : (∀ k ∈ originals, getTrampolineName (functionName m k) bitcodeIdentifier ∉ m.names) →
    (∀ k ∈ originals, ∀ k' ∈ originals, functionName m k = functionName m k' → k = k') →
    ∀ k ∈ originals, trampoline k = getTrampolineName (functionName m k) bitcodeIdentifier

theorem getTrampolineName_inj {name name' bitcodeIdentifier : String}
    (h : getTrampolineName name bitcodeIdentifier = getTrampolineName name' bitcodeIdentifier) :
    name = name' := by
  simpa only [getTrampolineName, String.append_left_inj] using h

theorem Redirected.names {bitcodeIdentifier : String} {m m' : Module} {originals : List Nat}
    {trampoline : Nat → String} (h : Redirected bitcodeIdentifier m originals trampoline m') :
    m'.functions.map Function.name = m.functions.map Function.name := by
  refine List.ext_getElem? fun k => ?_
  rw [List.getElem?_map, List.getElem?_map, h.functions, Option.map_map]
  congr 1
  funext function
  simp only [Function.comp_apply]
  split <;> rfl

theorem insertTrampoline_functions (bitcodeIdentifier : String) (m : Module) (f k : Nat) :
    (insertTrampoline bitcodeIdentifier m f).functions[k]? = m.functions[k]?.map fun function =>
      if k = f then
        { function with blocks := function.blocks ++ [trampolineBlock function
          (m.getOrInsertGlobal (getTrampolineName (functionName m f) bitcodeIdentifier)).2] }
      else function := by
  obtain ⟨hfunctions, -⟩ :=
    m.getOrInsertGlobal_functions (getTrampolineName (functionName m f) bitcodeIdentifier)
  simp only [insertTrampoline, hfunctions]
  cases hget : m.functions[f]? with
  | none =>
      by_cases hk : k = f
      · simp [hk, hfunctions, hget]
      · simp [hk, hfunctions]
  | some function =>
      simp only [Module.setFunction, hfunctions, List.getElem?_set]
      by_cases hk : k = f
      · rw [hk, hget]
        simp [(List.getElem?_eq_some_iff.mp hget).1]
      · simp [hk, Ne.symm hk]

theorem insertTrampoline_globals (bitcodeIdentifier : String) (m : Module) (f : Nat) :
    (insertTrampoline bitcodeIdentifier m f).globals = (m.getOrInsertGlobal
      (getTrampolineName (functionName m f) bitcodeIdentifier)).1.globals := by
  unfold insertTrampoline
  simp only
  split <;> rfl

theorem exists_redirected (bitcodeIdentifier : String) {m : Module} {originals : List Nat}
    (hnodup : originals.Nodup) :
    ∃ trampoline, Redirected bitcodeIdentifier m originals trampoline
      (originals.foldl (insertTrampoline bitcodeIdentifier) m) := by
  induction originals using List.reverseRecOn with
  | nil => exact ⟨fun _ => "", by simp, by simp, by simp⟩
  | append_singleton originals f ih =>
      rw [List.nodup_append] at hnodup
      have hnew : ∀ k ∈ originals, k ≠ f := fun k hk => hnodup.2.2 k hk f (by simp)
      obtain ⟨trampoline, h⟩ := ih hnodup.1
      rw [List.foldl_append]
      generalize originals.foldl (insertTrampoline bitcodeIdentifier) m = m' at h
      simp only [List.foldl_cons, List.foldl_nil]
      have hname : functionName m' f = functionName m f := by
        have hget : (m'.functions.map Function.name)[f]? = (m.functions.map Function.name)[f]? := by
          rw [h.names]
        simp only [functionName, List.getElem?_map] at hget ⊢
        rw [hget]
      refine ⟨Function.update trampoline f (m'.getOrInsertGlobal
        (getTrampolineName (functionName m' f) bitcodeIdentifier)).2, ?_, ?_, ?_⟩
      · intro k
        rw [insertTrampoline_functions, h.functions, Option.map_map]
        congr 1
        funext function
        by_cases hk : k = f
        · have hnot : f ∉ originals := fun hmem => hnew f hmem rfl
          simp [hk, hnot]
        · simp [hk]
      · intro x
        rw [insertTrampoline_globals, Module.mem_globals_getOrInsertGlobal, h.globals, or_assoc]
        refine or_congr_right ?_
        constructor
        · rintro (⟨k, hk, rfl⟩ | rfl)
          · exact ⟨k, List.mem_append_left _ hk, by rw [Function.update_of_ne (hnew k hk)]⟩
          · exact ⟨f, by simp, by rw [Function.update_self]⟩
        · rintro ⟨k, hk, rfl⟩
          rcases List.mem_append.mp hk with hk | hk
          · exact .inl ⟨k, hk, by rw [Function.update_of_ne (hnew k hk)]⟩
          · rw [List.mem_singleton.mp hk, Function.update_self]
            exact .inr rfl
      · intro hfresh hinj k hk
        have hexact := h.exact (fun k hk => hfresh k (List.mem_append_left _ hk))
          fun k hk k' hk' => hinj k (List.mem_append_left _ hk) k' (List.mem_append_left _ hk')
        rcases List.mem_append.mp hk with hk | hk
        · rw [Function.update_of_ne (hnew k hk), hexact k hk]
        · -- the name is new, and differs from those of the other trampolines
          rw [List.mem_singleton.mp hk, Function.update_self, hname]
          refine Module.getOrInsertGlobal_of_not_mem fun hmem => ?_
          rw [Module.names, h.names, List.mem_append, h.globals, ← or_assoc] at hmem
          rcases hmem with hold | ⟨k', hk', heq⟩
          · exact hfresh f (by simp) (List.mem_append.mpr hold)
          · rw [hexact k' hk'] at heq
            exact hnew k' hk' (hinj f (by simp) k' (List.mem_append_left _ hk')
              (getTrampolineName_inj heq)).symm

/-! ### Mutations -/

theorem applyMutation_functions (mutation : BodyMutation) (mutatedFunction : Nat → Option Nat)
    (m : Module) (pointer : Pointer) (k : Nat) :
    (applyMutation mutation mutatedFunction m pointer).functions[k]? =
      m.functions[k]?.map fun function =>
        if mutatedFunction pointer.2 = some k then
          { function with blocks := mutation.apply pointer.1 function.blocks }
        else function := by
  unfold applyMutation
  cases hclone : mutatedFunction pointer.2 with
  | none => simp
  | some f =>
      simp only [Option.some.injEq]
      cases hget : m.functions[f]? with
      | none =>
          by_cases hk : f = k
          · simp [← hk, hget]
          · simp [hk]
      | some function =>
          simp only [Module.setFunction, List.getElem?_set]
          by_cases hk : f = k
          · rw [← hk, hget]
            simp [(List.getElem?_eq_some_iff.mp hget).1]
          · simp [hk]

theorem applyMutation_globals (mutation : BodyMutation) (mutatedFunction : Nat → Option Nat)
    (m : Module) (pointer : Pointer) :
    (applyMutation mutation mutatedFunction m pointer).globals = m.globals := by
  unfold applyMutation
  split
  · rfl
  · split <;> rfl

/-- A function that is no clone of the points is left alone. -/
theorem applyMutations_functions_of_ne {mutation : BodyMutation}
    {mutatedFunction : Nat → Option Nat} {m : Module} {pointers : List Pointer} {k : Nat}
    (hnone : ∀ pointer ∈ pointers, mutatedFunction pointer.2 ≠ some k) :
    (pointers.foldl (applyMutation mutation mutatedFunction) m).functions[k]? = m.functions[k]? := by
  induction pointers generalizing m with
  | nil => rfl
  | cons first rest ih =>
      rw [List.foldl_cons, ih fun pointer hpointer => hnone pointer (List.mem_cons_of_mem _ hpointer),
        applyMutation_functions]
      simp [hnone first (by simp)]

/-- A function that is no clone is left alone, and the clone of a point gets the
    mutation of that point only. -/
theorem applyMutations_functions {mutation : BodyMutation} {mutatedFunction : Nat → Option Nat}
    {m : Module} {pointers : List Pointer}
    (hclones : pointers.Pairwise fun pointer pointer' =>
      ∀ f, mutatedFunction pointer.2 = some f → mutatedFunction pointer'.2 ≠ some f) (k : Nat) :
    (∀ pointer ∈ pointers, mutatedFunction pointer.2 = some k →
      (pointers.foldl (applyMutation mutation mutatedFunction) m).functions[k]? =
        m.functions[k]?.map fun function =>
          { function with blocks := mutation.apply pointer.1 function.blocks }) ∧
    ((∀ pointer ∈ pointers, mutatedFunction pointer.2 ≠ some k) →
      (pointers.foldl (applyMutation mutation mutatedFunction) m).functions[k]? =
        m.functions[k]?) := by
  refine ⟨?_, applyMutations_functions_of_ne⟩
  induction pointers generalizing m with
  | nil => simp
  | cons first rest ih =>
      obtain ⟨hfirst, hrest⟩ := List.pairwise_cons.mp hclones
      intro pointer hpointer hk
      rw [List.foldl_cons]
      rcases List.mem_cons.mp hpointer with rfl | hpointer
      · rw [applyMutations_functions_of_ne fun pointer' hpointer' => hfirst pointer' hpointer' k hk,
          applyMutation_functions]
        simp [hk]
      · have hne : mutatedFunction first.2 ≠ some k :=
          fun heq => hfirst pointer hpointer k heq hk
        rw [ih hrest pointer hpointer hk, applyMutation_functions]
        simp [hne]

theorem applyMutations_globals {mutation : BodyMutation} {mutatedFunction : Nat → Option Nat}
    {m : Module} {pointers : List Pointer} :
    (pointers.foldl (applyMutation mutation mutatedFunction) m).globals = m.globals := by
  induction pointers generalizing m with
  | nil => rfl
  | cons first rest ih => rw [List.foldl_cons, ih, applyMutation_globals]

end Mull.Schemata
