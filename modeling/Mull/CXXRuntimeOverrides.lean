import Mathlib.Data.List.Basic
import Mull.ProcessSandbox

/-!
# Static destructors

The tested program registers its static destructors by `CXAAtExitOverride`, which appends them
to a vector.  `runDestructors` calls what is in the vector from the beginning to the end, and
then clears it.

C++ wants the destructors to run in the opposite order of their registration, the ones that
are registered by a running destructor before the older ones (`Unwinds`).  The vector is walked
in the order of registration, and what is appended during the walk is not reached, or moves
the vector away from under the walk.  So the destructors run as required if and only if the
registrations read the same in both directions and no destructor registers another one
(`destructors_unwind_iff`).
-/

namespace Mull.CXXRuntimeOverrides

/-- A destructor with its argument. -/
abbrev CXXDestructorDataPair (D A : Type) := D × A

/-- A `std::vector` of pairs: it has room for some more elements than it has. -/
structure CXXDestructorDataPairList (D A : Type) where
  elements : List (CXXDestructorDataPair D A)
  capacity : Nat
  length_le : elements.length ≤ capacity

/-- What a call of some code of the tested program does: it changes the state of the program,
    and registers destructors. -/
abbrev Effect (D A W : Type) := W → W × List (CXXDestructorDataPair D A)

variable {D A W : Type}

namespace CXXDestructorDataPairList

def empty : CXXDestructorDataPairList D A := ⟨[], 0, Nat.le_refl 0⟩

theorem length_emplaceBack_le (list : CXXDestructorDataPairList D A)
    (pair : CXXDestructorDataPair D A) :
    (list.elements ++ [pair]).length ≤
      if list.elements.length < list.capacity then list.capacity
      else max 1 (2 * list.capacity) := by
  have hle := list.length_le
  rw [List.length_append, List.length_singleton]
  split <;> omega

/-- `emplace_back`: the elements of a full vector move to a place of twice the size. -/
def emplaceBack (list : CXXDestructorDataPairList D A) (pair : CXXDestructorDataPair D A) :
    CXXDestructorDataPairList D A :=
  ⟨list.elements ++ [pair],
    if list.elements.length < list.capacity then list.capacity else max 1 (2 * list.capacity),
    list.length_emplaceBack_le pair⟩

def clear (list : CXXDestructorDataPairList D A) : CXXDestructorDataPairList D A :=
  ⟨[], list.capacity, Nat.zero_le _⟩

end CXXDestructorDataPairList

open CXXDestructorDataPairList

/-- `CXAAtExitOverride`, with the list that the handle points to.  It returns zero. -/
def CXAAtExitOverride (destructor : D) (arg : A) (dsoHandle : CXXDestructorDataPairList D A) :
    Int × CXXDestructorDataPairList D A :=
  (0, dsoHandle.emplaceBack (destructor, arg))

/-- The registrations that some code makes, one after another. -/
def register (list : CXXDestructorDataPairList D A) (pairs : List (CXXDestructorDataPair D A)) :
    CXXDestructorDataPairList D A :=
  pairs.foldl (fun list pair => (CXAAtExitOverride pair.1 pair.2 list).2) list

/-- The loop of `runDestructors` from an iterator on, as far as the end was when the loop began.
    It gives the calls that are made.  After the vector has moved the iterator is not valid any
    more, and the loop has no result. -/
def walk (call : D → A → Effect D A W) (list : CXXDestructorDataPairList D A) (world : W)
    (iterator : Nat) :
    Nat → Option (List (CXXDestructorDataPair D A) × W × CXXDestructorDataPairList D A)
  | 0 => some ([], world, list)
  | distance + 1 => do
    let pair ← list.elements[iterator]?
    let (world, registered) := call pair.1 pair.2 world
    let list' := register list registered
    if list'.capacity ≠ list.capacity then none
    else do
      let (calls, result) ← walk call list' world (iterator + 1) distance
      some (pair :: calls, result)

def runDestructors (call : D → A → Effect D A W) (list : CXXDestructorDataPairList D A)
    (world : W) :
    Option (List (CXXDestructorDataPair D A) × W × CXXDestructorDataPairList D A) :=
  (walk call list world 0 list.elements.length).map fun (calls, world, list) =>
    (calls, world, list.clear)

/-- `runStaticConstructor` for all static constructors. -/
def runStaticConstructors (constructors : List (Effect D A W))
    (list : CXXDestructorDataPairList D A) (world : W) : CXXDestructorDataPairList D A × W :=
  constructors.foldl (fun (list, world) constructor =>
    let (world, registered) := constructor world
    (register list registered, world)) (list, world)

/-- `runTest`, with the exit status of the driver function, and the calls of destructors. -/
def runTest (call : D → A → Effect D A W) (constructors : List (Effect D A W))
    (main : W → Int × W × List (CXXDestructorDataPair D A))
    (list : CXXDestructorDataPairList D A) (world : W) :
    Option (ExecutionStatus × List (CXXDestructorDataPair D A) × W ×
      CXXDestructorDataPairList D A) := do
  let (list, world) := runStaticConstructors constructors list world
  let (exitStatus, world, registered) := main world
  let (calls, world, list) ← runDestructors call (register list registered) world
  some (if exitStatus = 0 then .passed else .failed, calls, world, list)

/-! ### What C++ requires -/

/-- The registered destructors that are not called yet, the latest one first, are called in
    this order; what a destructor registers is called before the others. -/
inductive Unwinds (call : D → A → Effect D A W) :
    List (CXXDestructorDataPair D A) → W → List (CXXDestructorDataPair D A) → W → Prop where
  | done (world : W) : Unwinds call [] world [] world
  | call (pair : CXXDestructorDataPair D A) (pending : List (CXXDestructorDataPair D A))
      (world : W) (calls : List (CXXDestructorDataPair D A)) (final : W)
      (rest : Unwinds call ((call pair.1 pair.2 world).2.reverse ++ pending)
        (call pair.1 pair.2 world).1 calls final) :
      Unwinds call (pair :: pending) world (pair :: calls) final

/-- `runDestructors` calls the destructors as required, and leaves the list empty. -/
def DestructorsUnwind (call : D → A → Effect D A W) (list : CXXDestructorDataPairList D A)
    (world : W) : Prop :=
  ∃ calls final list', runDestructors call list world = some (calls, final, list') ∧
    Unwinds call list.elements.reverse world calls final ∧ list'.elements = []

/-- No destructor registers another one if they are called in this order. -/
def NoRegistration (call : D → A → Effect D A W) :
    List (CXXDestructorDataPair D A) → W → Prop
  | [], _ => True
  | pair :: pairs, world =>
    (call pair.1 pair.2 world).2 = [] ∧ NoRegistration call pairs (call pair.1 pair.2 world).1

/-- The state after the calls of some destructors. -/
def runAll (call : D → A → Effect D A W) (pairs : List (CXXDestructorDataPair D A)) (world : W) :
    W :=
  pairs.foldl (fun world pair => (call pair.1 pair.2 world).1) world

section Unwind

variable {call : D → A → Effect D A W} {list : CXXDestructorDataPairList D A} {world : W}

theorem elements_register (pairs : List (CXXDestructorDataPair D A)) :
    (register list pairs).elements = list.elements ++ pairs := by
  unfold register
  induction pairs generalizing list with
  | nil => simp
  | cons pair pairs ih =>
    rw [List.foldl_cons, ih]
    simp [CXAAtExitOverride, emplaceBack]

/-- Every destructor that is registered is called. -/
theorem Unwinds.length_le {pending calls : List (CXXDestructorDataPair D A)} {final : W}
    (h : Unwinds call pending world calls final) : pending.length ≤ calls.length := by
  induction h with
  | done world => exact Nat.le_refl 0
  | call pair pending world calls final rest ih =>
    rw [List.length_append] at ih
    simp only [List.length_cons]
    omega

/-- If there are no more calls than destructors at the beginning, none is registered later. -/
theorem Unwinds.eq_of_length_eq {pending calls : List (CXXDestructorDataPair D A)} {final : W}
    (h : Unwinds call pending world calls final) (hlength : calls.length = pending.length) :
    calls = pending ∧ NoRegistration call pending world := by
  induction h with
  | done world => exact ⟨rfl, trivial⟩
  | call pair pending world calls final rest ih =>
    have hle := rest.length_le
    rw [List.length_append, List.length_reverse] at hle
    rw [List.length_cons, List.length_cons] at hlength
    have hnone : (call pair.1 pair.2 world).2 = [] := List.length_eq_zero_iff.mp (by omega)
    rw [hnone, List.reverse_nil, List.nil_append] at ih
    rcases ih (by omega) with ⟨hcalls, hrest⟩
    exact ⟨by rw [hcalls], hnone, hrest⟩

theorem unwinds_of_noRegistration {pending : List (CXXDestructorDataPair D A)}
    (h : NoRegistration call pending world) :
    Unwinds call pending world pending (runAll call pending world) := by
  induction pending generalizing world with
  | nil => exact .done world
  | cons pair pending ih =>
    rcases h with ⟨hnone, hrest⟩
    refine .call pair pending world pending _ ?_
    rw [hnone]
    exact ih hrest

/-- The loop calls what was in the list when it began, in the order of the list. -/
theorem calls_of_walk {before rest after : List (CXXDestructorDataPair D A)}
    (helements : list.elements = before ++ rest ++ after)
    {calls : List (CXXDestructorDataPair D A)} {final : W}
    {list' : CXXDestructorDataPairList D A}
    (h : walk call list world before.length rest.length = some (calls, final, list')) :
    calls = rest := by
  induction rest generalizing list world before after calls with
  | nil => exact (Prod.mk.inj (Option.some.inj h)).1.symm
  | cons pair rest ih =>
    have hpair : list.elements[before.length]? = some pair := by simp [helements]
    rw [List.length_cons, walk, hpair, Option.bind_eq_bind, Option.bind_some] at h
    simp only at h
    split at h
    · cases h
    · rcases Option.bind_eq_some_iff.mp h with ⟨⟨calls', result⟩, hwalk, h⟩
      rcases Prod.mk.inj (Option.some.inj h) with ⟨rfl, rfl⟩
      have hafter : (register list (call pair.1 pair.2 world).2).elements =
          (before ++ [pair]) ++ rest ++ (after ++ (call pair.1 pair.2 world).2) := by
        rw [elements_register, helements]
        simp
      have hrest : calls' = rest := ih hafter (by rw [List.length_append]; exact hwalk)
      rw [hrest]

/-- Without registrations the list does not change during the loop. -/
theorem walk_of_noRegistration {before rest : List (CXXDestructorDataPair D A)}
    (helements : list.elements = before ++ rest) (h : NoRegistration call rest world) :
    walk call list world before.length rest.length = some (rest, runAll call rest world, list) := by
  induction rest generalizing world before with
  | nil => rfl
  | cons pair rest ih =>
    rcases h with ⟨hnone, hrest⟩
    have hpair : list.elements[before.length]? = some pair := by simp [helements]
    have hwalk := @ih _ (before ++ [pair]) (by simp [helements]) hrest
    rw [List.length_append, List.length_singleton] at hwalk
    rw [List.length_cons, walk, hpair, Option.bind_eq_bind, Option.bind_some]
    simp [hnone, register, hwalk, runAll]

/-- What static constructors register. -/
def registrationsOf : List (Effect D A W) → W → List (CXXDestructorDataPair D A)
  | [], _ => []
  | constructor :: constructors, world =>
    (constructor world).2 ++ registrationsOf constructors (constructor world).1

theorem elements_runStaticConstructors (constructors : List (Effect D A W)) :
    (runStaticConstructors constructors list world).1.elements =
      list.elements ++ registrationsOf constructors world := by
  unfold runStaticConstructors
  induction constructors generalizing list world with
  | nil => simp [registrationsOf]
  | cons constructor constructors ih =>
    rw [List.foldl_cons, ih, elements_register, registrationsOf, List.append_assoc]

/-- A test that returns has called what was registered in the order of registration, the
    constructors' destructors before those of the driver function. -/
theorem calls_of_runTest {constructors : List (Effect D A W)}
    {main : W → Int × W × List (CXXDestructorDataPair D A)} {status : ExecutionStatus}
    {calls : List (CXXDestructorDataPair D A)} {final : W}
    {list' : CXXDestructorDataPairList D A}
    (h : runTest call constructors main list world = some (status, calls, final, list')) :
    calls = list.elements ++ registrationsOf constructors world ++
        (main (runStaticConstructors constructors list world).2).2.2 ∧ list'.elements = [] := by
  rcases Option.bind_eq_some_iff.mp h with ⟨⟨calls', final', list''⟩, hrun, h⟩
  rcases Option.map_eq_some_iff.mp hrun with ⟨⟨calls'', final'', list₀⟩, hwalk, heq⟩
  rcases Prod.mk.inj heq with ⟨rfl, hcleared⟩
  rcases Prod.mk.inj hcleared with ⟨-, rfl⟩
  rcases Prod.mk.inj (Option.some.inj h) with ⟨-, hresult⟩
  rcases Prod.mk.inj hresult with ⟨rfl, hrest⟩
  rcases Prod.mk.inj hrest with ⟨-, rfl⟩
  refine ⟨?_, rfl⟩
  have hcalls := @calls_of_walk _ _ _ _ _ _ [] _ [] (by simp) _ _ _ hwalk
  have hregistered : (register (runStaticConstructors constructors list world).1
      (main (runStaticConstructors constructors list world).2).2.2).elements =
      list.elements ++ registrationsOf constructors world ++
        (main (runStaticConstructors constructors list world).2).2.2 := by
    rw [elements_register, elements_runStaticConstructors]
  exact hcalls.trans hregistered

/-- The destructors run as required for exactly the registrations that read the same in both
    directions and register nothing. -/
theorem destructors_unwind_iff (call : D → A → Effect D A W)
    (list : CXXDestructorDataPairList D A) (world : W) :
    DestructorsUnwind call list world ↔
      list.elements.reverse = list.elements ∧ NoRegistration call list.elements world := by
  constructor
  · rintro ⟨calls, final, list', hrun, hunwinds, -⟩
    rcases Option.map_eq_some_iff.mp hrun with ⟨⟨calls', final', list''⟩, hwalk, heq⟩
    rcases Prod.mk.inj heq with ⟨rfl, heq⟩
    have hcalls := @calls_of_walk _ _ _ _ _ _ [] list.elements [] (by simp) _ _ _ hwalk
    rcases hunwinds.eq_of_length_eq (by rw [hcalls, List.length_reverse]) with ⟨hreverse, hnone⟩
    rw [hcalls] at hreverse
    exact ⟨hreverse.symm, hreverse ▸ hnone⟩
  · rintro ⟨hreverse, hnone⟩
    have hwalk : walk call list world 0 list.elements.length = some (list.elements, _, list) :=
      @walk_of_noRegistration _ _ _ _ _ _ [] list.elements rfl hnone
    refine ⟨list.elements, runAll call list.elements world, list.clear, ?_, ?_, rfl⟩
    · rw [runDestructors, hwalk]
      rfl
    · rw [hreverse]
      exact unwinds_of_noRegistration hnone

/-- Two destructors are called in the order in which they are registered. -/
theorem not_destructors_unwind_twoGlobals :
    ¬ DestructorsUnwind (fun _ _ world => (world, [])) (register empty [(1, 10), (2, 20)]) () := by
  rintro ⟨calls, final, list', hrun, hunwinds, -⟩
  obtain rfl : [(1, 10), (2, 20)] = calls := (Prod.mk.inj (Option.some.inj hrun)).1
  cases hunwinds

end Unwind

end Mull.CXXRuntimeOverrides
