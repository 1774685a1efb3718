import Mull.CallRecorder
import Mull.Lib.PageMap

/-!
# The memory of call tree mappings

Every test gets an array for its call tree mapping, in memory that the child process shares.
`setupInstrumentationInfo` maps four bytes for each function, `cleanupInstrumentationInfo` unmaps
one byte for each.  Both round to whole pages, so that all memory is given back only if the array
fits in one page (`memory_given_back_iff`); otherwise every test leaves the same number of pages
behind, whatever the order in which the workers set up and clean up their tests
(`Paired.mapped_eq_empty_iff`).
-/

namespace Mull.Instrumentation

open PageMap

/-! ### The process -/

/-- The pages that are mapped for call tree mappings, and the `uint32_t` at every address. -/
structure Memory where
  mapped : Finset Nat
  contents : Nat → Nat

/-- The `InstrumentationInfo` of a test.  The pointer is the number of the page at which the
    mapping begins, or null. -/
structure InstrumentationInfo where
  callTreeMapping : Option Nat
  callstack : List Nat
deriving DecidableEq, Repr

def InstrumentationInfo.initial : InstrumentationInfo := ⟨none, []⟩

/-- The parent process, with the infos of its tests. -/
structure Process where
  memory : Memory
  tests : Nat → InstrumentationInfo

/-- Before the first test. -/
def Process.initial (contents : Nat → Nat) : Process :=
  ⟨⟨∅, contents⟩, fun _ => InstrumentationInfo.initial⟩

/-- `sizeof(mapping[0])`. -/
def sizeofEntry : Nat := 4

section Process

variable (page : PageSize)

/-- `memset(mapping, 0, length)`; `none` is a write to a page that is not mapped. -/
def memset (memory : Memory) (first length : Nat) : Option Memory :=
  if region page first length ⊆ memory.mapped then
    some { memory with contents := fun address =>
      if first * page.bytes ≤ address ∧ address < first * page.bytes + length then 0
      else memory.contents address }
  else none

variable (functions : Nat)

/-- `setupInstrumentationInfo`, for `functions` entries in the table of functions.  The kernel
    places the mapping; without a place `mmap` returns an address that is not mapped, which is
    not checked.  `none` is a failed assertion or a fault. -/
def setupInstrumentationInfo (placed : Option Nat) (memory : Memory) (info : InstrumentationInfo) :
    Option (Memory × InstrumentationInfo) :=
  if info.callTreeMapping = none ∧ 1 < functions then do
    let mappingSize := sizeofEntry * functions
    let first ← placed
    let mapped ← mmap page memory.mapped first mappingSize
    let memory ← memset page { memory with mapped := mapped } first mappingSize
    some (memory, { info with callTreeMapping := some first })
  else none

/-- `cleanupInstrumentationInfo`.  The pointer stays.  There is no mapping at a null pointer. -/
def cleanupInstrumentationInfo (memory : Memory) (info : InstrumentationInfo) :
    Memory × InstrumentationInfo :=
  let info := { info with callstack := [] }
  match info.callTreeMapping with
  | none => (memory, info)
  | some first =>
      ({ memory with mapped := munmap page memory.mapped first functions }, info)

/-! ### Steps of the workers -/

/-- What the workers do with the memory: a test is set up, with the place that the kernel has
    chosen; the children write to the shared memory; a test is cleaned up. -/
inductive Event where
  | setup (test : Nat) (placed : Option Nat)
  | written (contents : Nat → Nat)
  | cleanup (test : Nat)

def step (process : Process) : Event → Option Process
  | .setup test placed => do
      let (memory, info) ←
        setupInstrumentationInfo page functions placed process.memory (process.tests test)
      some ⟨memory, Function.update process.tests test info⟩
  | .written contents =>
      some { process with memory := { process.memory with contents := contents } }
  | .cleanup test =>
      let (memory, info) :=
        cleanupInstrumentationInfo page functions process.memory (process.tests test)
      some ⟨memory, Function.update process.tests test info⟩

def run (process : Process) (events : List Event) : Option Process :=
  events.foldlM (step page functions) process

/-! ### One worker -/

/-- A test in `OriginalTestExecutionTask::operator()`: the place of its mapping, and the memory
    that the test leaves. -/
structure TestExecution where
  test : Nat
  placed : Option Nat
  written : Nat → Nat

def TestExecution.events (execution : TestExecution) : List Event :=
  [.setup execution.test execution.placed, .written execution.written, .cleanup execution.test]

/-- The tests one after another, with the process after each of them. -/
def executeTests (process : Process) : List TestExecution → Option (List Process)
  | [] => some []
  | execution :: executions => do
      let process ← run page functions process execution.events
      let processes ← executeTests process executions
      some (process :: processes)

end Process

section Runs

variable {page : PageSize} {functions : Nat} {process process' : Process} {opened : Finset Nat}
  {closed : Nat}

/-! ### One call -/

/-- What a call of `setupInstrumentationInfo` has done when it returns. -/
theorem setup_eq_some {placed : Option Nat} {memory memory' : Memory}
    {info info' : InstrumentationInfo}
    (h : setupInstrumentationInfo page functions placed memory info = some (memory', info')) :
    ∃ first, info.callTreeMapping = none ∧ 1 < functions ∧
      mmap page memory.mapped first (sizeofEntry * functions) = some memory'.mapped ∧
      (∀ index < functions, memory'.contents (first * page.bytes + sizeofEntry * index) = 0) ∧
      info' = ⟨some first, info.callstack⟩ := by
  unfold setupInstrumentationInfo at h
  split at h
  · rename_i hasserted
    simp only [Option.bind_eq_bind, Option.bind_eq_some_iff, Option.some.injEq,
      Prod.mk.injEq] at h
    rcases h with ⟨first, -, mapped, hmapped, memory, hmemset, rfl, rfl⟩
    unfold memset at hmemset
    split at hmemset
    · rcases Option.some.inj hmemset with rfl
      refine ⟨first, hasserted.1, hasserted.2, hmapped, ?_, rfl⟩
      intro index hindex
      exact if_pos ⟨by omega, by unfold sizeofEntry; omega⟩
    · cases hmemset
  · cases h

/-- What the callbacks of a test find in memory. -/
def recorded (page : PageSize) (functions : Nat) (memory : Memory) (info : InstrumentationInfo) :
    DynamicCallTree.InstrumentationInfo where
  callTreeMapping index :=
    match info.callTreeMapping with
    | none => 0
    | some first =>
        if index < functions then memory.contents (first * page.bytes + sizeofEntry * index) else 0
  callstack := info.callstack

/-- A test starts with a zeroed mapping and an empty call stack, wherever its mapping is and
    whatever earlier tests have left there. -/
theorem recorded_setup {placed : Option Nat} {memory memory' : Memory} {info : InstrumentationInfo}
    (h : setupInstrumentationInfo page functions placed memory .initial = some (memory', info)) :
    recorded page functions memory' info = DynamicCallTree.InstrumentationInfo.initial := by
  rcases setup_eq_some h with ⟨first, -, -, -, hzeroed, rfl⟩
  unfold recorded DynamicCallTree.InstrumentationInfo.initial
  congr 1
  funext index
  by_cases hindex : index < functions
  · simp [hindex, hzeroed index hindex]
  · simp [hindex]

/-- The pages of a test's mapping. -/
def mappingOf (page : PageSize) (functions : Nat) (info : InstrumentationInfo) : Finset Nat :=
  match info.callTreeMapping with
  | none => ∅
  | some first => region page first (sizeofEntry * functions)

/-- The number of pages that a test leaves mapped. -/
def leftover (page : PageSize) (functions : Nat) : Nat :=
  page.pages (sizeofEntry * functions) - page.pages functions

theorem leftover_add (page : PageSize) (functions : Nat) :
    leftover page functions + page.pages functions = page.pages (sizeofEntry * functions) := by
  have hmono : page.pages functions ≤ page.pages (sizeofEntry * functions) :=
    pages_mono page (by unfold sizeofEntry; omega)
  unfold leftover
  omega

/-- A free place is enough for the set-up. -/
theorem exists_setup {memory : Memory} {info : InstrumentationInfo} {first : Nat}
    (hnull : info.callTreeMapping = none) (hfunctions : 1 < functions)
    (hfree : Disjoint memory.mapped (region page first (sizeofEntry * functions))) :
    ∃ memory', setupInstrumentationInfo page functions (some first) memory info =
      some (memory', ⟨some first, info.callstack⟩) := by
  have hmmap := mmap_eq_some_iff.mpr ⟨hfree, rfl⟩
  simp [setupInstrumentationInfo, hnull, hfunctions, hmmap, memset]

/-! ### What the workers keep -/

/-- The tests in `opened` are set up and not cleaned up, and `closed` calls have cleaned up.  The
    mappings of the open tests are mapped and apart from each other; each cleaned up test has left
    the same number of pages. -/
structure Inv (page : PageSize) (functions : Nat) (opened : Finset Nat) (closed : Nat)
    (process : Process) : Prop where
  pointer : ∀ test ∈ opened, (process.tests test).callTreeMapping ≠ none
  mapped : ∀ test ∈ opened,
    mappingOf page functions (process.tests test) ⊆ process.memory.mapped
  apart : ∀ test ∈ opened, ∀ other ∈ opened, test ≠ other →
    Disjoint (mappingOf page functions (process.tests test))
      (mappingOf page functions (process.tests other))
  card : process.memory.mapped.card =
    opened.card * page.pages (sizeofEntry * functions) + closed * leftover page functions

theorem Inv.initial (contents : Nat → Nat) :
    Inv page functions ∅ 0 (Process.initial contents) := by
  constructor <;> simp [Process.initial]

theorem Inv.setup (h : Inv page functions opened closed process) {test : Nat}
    {placed : Option Nat} (hstep : step page functions process (.setup test placed) = some process') :
    test ∉ opened ∧ Inv page functions (insert test opened) closed process' := by
  simp only [step, Option.bind_eq_bind, Option.bind_eq_some_iff, Option.some.injEq] at hstep
  rcases hstep with ⟨⟨memory', info'⟩, hsetup, rfl⟩
  rcases setup_eq_some hsetup with ⟨first, hnull, -, hmmap, -, rfl⟩
  rcases mmap_eq_some_iff.mp hmmap with ⟨hfree, hmapped⟩
  have htest : test ∉ opened := fun hmem => h.pointer test hmem hnull
  have hne : ∀ other ∈ opened, other ≠ test := fun other hmem heq => htest (heq ▸ hmem)
  -- the pages of the new mapping were free, and those of an open test are mapped
  have hapart : ∀ other ∈ opened, Disjoint (mappingOf page functions (process.tests other))
      (region page first (sizeofEntry * functions)) :=
    fun other hmem => hfree.mono_left (h.mapped other hmem)
  refine ⟨htest, ?_, ?_, ?_, ?_⟩
  · intro other hmem
    rcases Finset.mem_insert.mp hmem with rfl | hmem
    · simp
    · simpa [hne other hmem] using h.pointer other hmem
  · intro other hmem
    rcases Finset.mem_insert.mp hmem with rfl | hmem
    · simp [mappingOf, hmapped]
    · simpa [hne other hmem, hmapped] using
        (h.mapped other hmem).trans Finset.subset_union_left
  · intro other hother another hanother hdistinct
    rcases Finset.mem_insert.mp hother with rfl | hmem
    · rcases Finset.mem_insert.mp hanother with rfl | hmem'
      · exact absurd rfl hdistinct
      · simpa [hne another hmem', mappingOf] using (hapart another hmem').symm
    · rcases Finset.mem_insert.mp hanother with rfl | hmem'
      · simpa [hne other hmem, mappingOf] using hapart other hmem
      · simpa [hne other hmem, hne another hmem'] using h.apart other hmem another hmem' hdistinct
  · simp only [hmapped, Finset.card_union_of_disjoint hfree, card_region, h.card,
      Finset.card_insert_of_notMem htest, Nat.succ_mul]
    omega

theorem Inv.written (h : Inv page functions opened closed process) {contents : Nat → Nat}
    (hstep : step page functions process (.written contents) = some process') :
    Inv page functions opened closed process' := by
  rcases Option.some.inj hstep with rfl
  exact ⟨h.pointer, h.mapped, h.apart, h.card⟩

theorem Inv.cleanup (h : Inv page functions opened closed process) {test : Nat}
    (htest : test ∈ opened)
    (hstep : step page functions process (.cleanup test) = some process') :
    Inv page functions (opened.erase test) (closed + 1) process' := by
  rcases Option.ne_none_iff_exists'.mp (h.pointer test htest) with ⟨first, hfirst⟩
  simp only [step, cleanupInstrumentationInfo, hfirst, Option.some.injEq] at hstep
  rcases hstep with rfl
  have hmapping : mappingOf page functions (process.tests test) =
      region page first (sizeofEntry * functions) := by
    rw [mappingOf, hfirst]
  have hshort : region page first functions ⊆ region page first (sizeofEntry * functions) :=
    region_subset (by unfold sizeofEntry; omega)
  have hsubset : region page first functions ⊆ process.memory.mapped :=
    hshort.trans (hmapping ▸ h.mapped test htest)
  refine ⟨?_, ?_, ?_, ?_⟩
  · intro other hmem
    rcases Finset.mem_erase.mp hmem with ⟨hne, hmem⟩
    simpa [hne] using h.pointer other hmem
  · intro other hmem
    rcases Finset.mem_erase.mp hmem with ⟨hne, hmem⟩
    -- the unmapped pages belong to the mapping of `test`
    have hapart : Disjoint (mappingOf page functions (process.tests other))
        (region page first functions) :=
      (hmapping ▸ h.apart other hmem test htest hne).mono_right hshort
    simpa [hne, munmap, Finset.subset_sdiff] using ⟨h.mapped other hmem, hapart⟩
  · intro other hmem another hmem' hdistinct
    rcases Finset.mem_erase.mp hmem with ⟨hne, hmem⟩
    rcases Finset.mem_erase.mp hmem' with ⟨hne', hmem'⟩
    simpa [hne, hne'] using h.apart other hmem another hmem' hdistinct
  · have hcard := Finset.card_le_card hsubset
    have hopened : opened.card = (opened.erase test).card + 1 :=
      (Finset.card_erase_add_one htest).symm
    have hleft := leftover_add page functions
    rw [card_region, h.card, hopened, Nat.succ_mul] at hcard
    simp only [munmap, Finset.card_sdiff_of_subset hsubset, card_region, h.card, hopened,
      Nat.succ_mul]
    omega

/-- Every test that is cleaned up is one that is set up and not cleaned up yet, when the tests in
    `opened` are at first. -/
def Paired : Finset Nat → List Event → Prop
  | _, [] => True
  | opened, .setup test _ :: events => Paired (insert test opened) events
  | opened, .written _ :: events => Paired opened events
  | opened, .cleanup test :: events => test ∈ opened ∧ Paired (opened.erase test) events

/-- The tests that are set up and not cleaned up. -/
def stillOpen : Finset Nat → List Event → Finset Nat
  | opened, [] => opened
  | opened, .setup test _ :: events => stillOpen (insert test opened) events
  | opened, .written _ :: events => stillOpen opened events
  | opened, .cleanup test :: events => stillOpen (opened.erase test) events

/-- How many tests are cleaned up. -/
def cleanups (events : List Event) : Nat :=
  events.countP fun event => match event with
    | .cleanup _ => true
    | _ => false

/-- Any run. -/
theorem Inv.run (h : Inv page functions opened closed process) {events : List Event}
    (hpaired : Paired opened events) (hrun : run page functions process events = some process') :
    Inv page functions (stillOpen opened events) (closed + cleanups events) process' := by
  induction events generalizing process opened closed with
  | nil =>
      rcases Option.some.inj hrun with rfl
      exact h
  | cons event events ih =>
      rw [Instrumentation.run, List.foldlM_cons] at hrun
      rcases Option.bind_eq_some_iff.mp hrun with ⟨next, hnext, hrest⟩
      cases event with
      | setup test placed => exact ih (h.setup hnext).2 hpaired hrest
      | written contents => exact ih (h.written hnext) hpaired hrest
      | cleanup test =>
          have hfinal := ih (h.cleanup hpaired.1 hnext) hpaired.2 hrest
          rw [Nat.add_assoc, Nat.add_comm 1] at hfinal
          simpa [cleanups, stillOpen] using hfinal

/-- Nothing stays mapped of a test whose array fits in one page, and of no other. -/
theorem leftover_eq_zero_iff (hfunctions : 0 < functions) :
    leftover page functions = 0 ↔ sizeofEntry * functions ≤ page.bytes := by
  have hleft := leftover_add page functions
  rw [← pages_mul_eq_iff (by decide) hfunctions]
  omega

theorem Inv.mapped_eq_empty_iff (h : Inv page functions ∅ closed process)
    (hfunctions : 0 < functions) :
    process.memory.mapped = ∅ ↔ closed = 0 ∨ sizeofEntry * functions ≤ page.bytes := by
  rw [← Finset.card_eq_zero, h.card, Finset.card_empty, Nat.zero_mul, Nat.zero_add,
    Nat.mul_eq_zero, leftover_eq_zero_iff hfunctions]

/-- With any number of workers: when no test is between set-up and clean-up, nothing is mapped
    exactly if no test has been cleaned up or the array fits in one page. -/
theorem Paired.mapped_eq_empty_iff {contents : Nat → Nat} {events : List Event}
    (hpaired : Paired ∅ events) (hfunctions : 0 < functions)
    (hrun : Instrumentation.run page functions (Process.initial contents) events = some process)
    (hclosed : stillOpen ∅ events = ∅) :
    process.memory.mapped = ∅ ↔
      cleanups events = 0 ∨ sizeofEntry * functions ≤ page.bytes := by
  have h := (Inv.initial contents).run hpaired hrun
  rw [hclosed, Nat.zero_add] at h
  exact h.mapped_eq_empty_iff hfunctions

/-! ### One test after another -/

/-- A whole test sets up and cleans up. -/
theorem Inv.execute (h : Inv page functions ∅ closed process) {execution : TestExecution}
    (hrun : Instrumentation.run page functions process execution.events = some process') :
    Inv page functions ∅ (closed + 1) process' := by
  have hpaired : Paired ∅ execution.events := by simp [TestExecution.events, Paired]
  simpa [TestExecution.events, stillOpen, cleanups] using h.run hpaired hrun

/-- A run that sets up a test has recorded functions. -/
theorem functions_pos_of_execute {execution : TestExecution}
    (hrun : Instrumentation.run page functions process execution.events = some process') :
    1 < functions := by
  simp only [Instrumentation.run, TestExecution.events, List.foldlM_cons, Option.bind_eq_bind,
    Option.bind_eq_some_iff, step, Option.some.injEq] at hrun
  rcases hrun with ⟨next, ⟨⟨memory, info⟩, hsetup, hnext⟩, hrest⟩
  rcases setup_eq_some hsetup with ⟨first, hnull, hfunctions, hmmap, hzeroed, hinfo⟩
  exact hfunctions

/-- The process after each test. -/
theorem Inv.executeTests (h : Inv page functions ∅ closed process) {executions : List TestExecution}
    {processes : List Process}
    (hrun : executeTests page functions process executions = some processes) :
    ∀ process' ∈ processes, ∃ closed', closed < closed' ∧
      Inv page functions ∅ closed' process' := by
  induction executions generalizing process processes closed with
  | nil =>
      rcases Option.some.inj hrun with rfl
      simp
  | cons execution executions ih =>
      simp only [Instrumentation.executeTests, Option.bind_eq_bind, Option.bind_eq_some_iff,
        Option.some.injEq] at hrun
      rcases hrun with ⟨next, hnext, rest, hrest, rfl⟩
      have hinv := h.execute hnext
      intro process' hmem
      rcases List.mem_cons.mp hmem with rfl | hmem
      · exact ⟨closed + 1, by omega, hinv⟩
      · rcases ih hinv hrest process' hmem with ⟨closed', hlt, hinv'⟩
        exact ⟨closed', by omega, hinv'⟩

/-- A test that has not been set up can be executed wherever there is a free place. -/
theorem exists_execute (process : Process) (execution : TestExecution) {first : Nat}
    (hfunctions : 1 < functions)
    (hnull : (process.tests execution.test).callTreeMapping = none)
    (hplaced : execution.placed = some first)
    (hfree : Disjoint process.memory.mapped (region page first (sizeofEntry * functions))) :
    ∃ process', Instrumentation.run page functions process execution.events = some process' ∧
      ∀ other ≠ execution.test, process'.tests other = process.tests other := by
  rcases exists_setup hnull hfunctions hfree with ⟨memory, hsetup⟩
  refine ⟨_, by simp [Instrumentation.run, TestExecution.events, step, hplaced, hsetup,
    cleanupInstrumentationInfo]; rfl, ?_⟩
  intro other hne
  simp [hne]

/-- Whatever is mapped, tests that have not been set up can be executed. -/
theorem exists_executeTests (hfunctions : 1 < functions) {tests : List Nat} (hnodup : tests.Nodup)
    (hnull : ∀ test ∈ tests, (process.tests test).callTreeMapping = none) :
    ∃ executions processes, executions.map TestExecution.test = tests ∧
      executeTests page functions process executions = some processes := by
  induction tests generalizing process with
  | nil => exact ⟨[], [], rfl, rfl⟩
  | cons test tests ih =>
      rcases List.nodup_cons.mp hnodup with ⟨hnotMem, hnodup⟩
      rcases exists_free page process.memory.mapped (sizeofEntry * functions) with ⟨first, hfree⟩
      rcases exists_execute process ⟨test, some first, fun _ => 0⟩ hfunctions (hnull test
        List.mem_cons_self) rfl hfree with ⟨next, hnext, hothers⟩
      have hnull' : ∀ other ∈ tests, (next.tests other).callTreeMapping = none := by
        intro other hmem
        rw [hothers other fun heq : other = test => hnotMem (heq ▸ hmem)]
        exact hnull other (List.mem_cons_of_mem _ hmem)
      rcases ih hnodup hnull' with ⟨executions, processes, hmap, hrest⟩
      refine ⟨⟨test, some first, fun _ => 0⟩ :: executions, next :: processes, by simp [hmap], ?_⟩
      simp [Instrumentation.executeTests, hnext, hrest]

/-- **All memory of the call tree mappings is given back exactly if an array fits in one page.** -/
theorem memory_given_back_iff (page : PageSize) {functions : Nat} (contents : Nat → Nat)
    {executions : List TestExecution} {processes : List Process}
    (hrun : executeTests page functions (Process.initial contents) executions = some processes) :
    (∀ process ∈ processes, process.memory.mapped = ∅) ↔
      executions = [] ∨ sizeofEntry * functions ≤ page.bytes := by
  cases executions with
  | nil =>
      rcases Option.some.inj hrun with rfl
      simp
  | cons execution executions =>
      have hafter := (Inv.initial contents).executeTests hrun
      simp only [Instrumentation.executeTests, Option.bind_eq_bind, Option.bind_eq_some_iff,
        Option.some.injEq] at hrun
      rcases hrun with ⟨next, hnext, rest, -, rfl⟩
      have hfunctions := functions_pos_of_execute hnext
      have hempty : ∀ process ∈ next :: rest,
          (process.memory.mapped = ∅ ↔ sizeofEntry * functions ≤ page.bytes) := by
        intro process hmem
        rcases hafter process hmem with ⟨closed, hclosed, hinv⟩
        rw [hinv.mapped_eq_empty_iff (by omega), or_iff_right (by omega)]
      rw [or_iff_right (List.cons_ne_nil _ _)]
      constructor
      · intro h
        exact (hempty next List.mem_cons_self).mp (h next List.mem_cons_self)
      · intro hfits process hmem
        exact (hempty process hmem).mpr hfits

/-- Pages of 4096 bytes. -/
def page4096 : PageSize := ⟨4096, by decide⟩

/-- A test that gets its mapping at page 16. -/
def oneTest : TestExecution := ⟨0, some 16, fun _ => 0⟩

theorem exists_executeTests_oneTest (page : PageSize) {functions : Nat}
    (hfunctions : 1 < functions) :
    ∃ process,
      executeTests page functions (Process.initial fun _ => 0) [oneTest] = some [process] := by
  have hfree : Disjoint ∅ (region page 16 (sizeofEntry * functions)) :=
    Finset.disjoint_empty_left _
  rcases exists_execute (Process.initial fun _ => 0) oneTest hfunctions rfl rfl hfree with
    ⟨process, hrun, -⟩
  exact ⟨process, by simp [Instrumentation.executeTests, hrun]⟩

/-- Two recorded functions. -/
theorem memory_given_back_twoFunctions : ∃ processes,
    executeTests page4096 2 (Process.initial fun _ => 0) [oneTest] = some processes ∧
      ∀ process ∈ processes, process.memory.mapped = ∅ := by
  rcases exists_executeTests_oneTest page4096 (by decide : 1 < 2) with ⟨process, hrun⟩
  exact ⟨[process], hrun, (memory_given_back_iff page4096 _ hrun).mpr (.inr (by decide))⟩

/-- 1025 recorded functions take two pages, and one is given back. -/
theorem not_memory_given_back_1025 : ∃ processes,
    executeTests page4096 1025 (Process.initial fun _ => 0) [oneTest] = some processes ∧
      ¬ ∀ process ∈ processes, process.memory.mapped = ∅ := by
  rcases exists_executeTests_oneTest page4096 (by decide : 1 < 1025) with ⟨process, hrun⟩
  refine ⟨[process], hrun, ?_⟩
  intro hempty
  rcases (Inv.initial _).executeTests hrun process List.mem_cons_self with ⟨closed, hclosed, hinv⟩
  have hmapped := (hinv.mapped_eq_empty_iff (by decide)).mp (hempty process List.mem_cons_self)
  have hlarge : ¬ sizeofEntry * 1025 ≤ page4096.bytes := by decide
  omega

end Runs

end Mull.Instrumentation
