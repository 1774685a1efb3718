import Mathlib.Data.Set.Function
import Mull.FunctionNumbering
import Mull.Lib.SharedStore
import Mull.ObjectCache

/-!
# Runs that share a cache

The compiled files of a run are kept in a directory, where later runs and runs at the same
time find them.  The compilation tasks look for a file first and compile only what is not
there; nothing orders the tasks of different workers or processes.

A task never gets a file of another kind, of other contents or of other mutants
(`objects_belong`).  But the key of a file has only the stem of its name, whereas the
instrumented code refers to its offset by the whole name.  So a program that was moved or
built anew elsewhere gets code that asks for the offset of a module it does not have
(`numbers_survive_iff`).
-/

namespace Mull.CacheRuns

open IR Callbacks FunctionNumbering MutationPoints ObjectCache Schemata SharedStore

/-! ### Compilation tasks -/

/-- A bitcode file with the name it was loaded under. -/
structure BitcodeFile where
  identifier : String
  contents : String
deriving DecidableEq, Repr

/-- A run of the tool, with the files of its program in their order. -/
structure Process where
  files : List BitcodeFile
  useOnDiskCache : Bool

/-- What is compiled: the instrumented module, or the module after the mutations were
    added. -/
inductive Kind where
  | instrumented
  | original (addressOf : Nat → Nat) (pointers : List Pointer)

/-- One iteration of `InstrumentedCompilationTask` or `OriginalCompilationTask`. -/
structure Job where
  process : Process
  position : Nat
  file : BitcodeFile
  kind : Kind
  mem : process.files[position]? = some file

/-- A thread of a process, with its share of the files. -/
structure Worker where
  process : Process
  jobs : List Job
  own : ∀ job ∈ jobs, job.process = process

/-- An object file, given by what it was compiled from. -/
inductive ObjectFile where
  | instrumented (module : Option Module)
  | original (file : BitcodeFile) (pointers : List Pointer)

section Model

-- the digest, `llvm::sys::path::stem`, and the parser of bitcode
variable (md5 : Digest) (stem : String → String) (parse : String → List Function × List String)

def BitcodeFile.uniqueIdentifier (file : BitcodeFile) : String :=
  stem file.identifier ++ "_" ++ md5.hash file.contents

/-- `parseBitcode`, with the identifier that the module gets. -/
def BitcodeFile.module (file : BitcodeFile) : Module :=
  ⟨file.identifier, (parse file.contents).1, (parse file.contents).2⟩

def Process.modules (process : Process) : List Module := process.files.map (·.module parse)

/-- The key under which the object file is kept. -/
def Job.cacheName (job : Job) : String :=
  match job.kind with
  | .instrumented => getInstrumentedUniqueIdentifier (job.file.uniqueIdentifier md5 stem)
  | .original addressOf pointers =>
      getMutatedUniqueIdentifier md5 (job.file.uniqueIdentifier md5 stem)
        (getMutationPointsMap addressOf pointers)

/-- `getObjectFromDisk` and `putObjectOnDisk` do nothing without the cache. -/
def Job.key (job : Job) : Option String :=
  if job.process.useOnDiskCache then some (job.cacheName md5 stem) else none

/-- What the task compiles if it finds nothing. -/
def Job.compile (job : Job) : ObjectFile :=
  match job.kind with
  | .instrumented => .instrumented (insertCallbacks (job.file.module parse))
  | .original _ pointers => .original job.file pointers

variable {ι : Type} [DecidableEq ι] (workers : ι → Worker)

/-- The state after a schedule, from an empty directory on. -/
def afterTurns (schedule : List ι) : State ι Job String ObjectFile :=
  FairRounds.run (step (Job.key md5 stem) (Job.compile parse))
    (.initial fun i => (workers i).jobs) schedule

/-! ### Keys -/

/-- The texts that are hashed for the keys. -/
def hashedTexts : Set String :=
  { text | ∃ i, ∃ job ∈ (workers i).jobs, text = job.file.contents ∨
    ∃ addressOf pointers, job.kind = .original addressOf pointers ∧
      text = hashedText (getMutationPointsMap addressOf pointers) }

/-- The mutation points were added to the file that they belong to. -/
def PointsAdded : Prop :=
  ∀ i, ∀ job ∈ (workers i).jobs, ∀ addressOf pointers, job.kind = .original addressOf pointers →
    PointsOf (job.file.uniqueIdentifier md5 stem) pointers

/-- Two files that a key does not tell apart. -/
structure SameFile (file file' : BitcodeFile) : Prop where
  stem : stem file.identifier = stem file'.identifier
  contents : file.contents = file'.contents

end Model

section Keys

variable {md5 : Digest} {stem : String → String} {parse : String → List Function × List String}
  {ι : Type} {workers : ι → Worker}

theorem append_hash_inj {a b text text' : String} (h : a ++ md5.hash text = b ++ md5.hash text') :
    a = b ∧ md5.hash text = md5.hash text' := by
  have hlist := congrArg String.toList h
  rw [String.toList_append, String.toList_append] at hlist
  obtain ⟨hfirst, hsecond⟩ := List.append_inj' hlist
    (by rw [String.length_toList, String.length_toList, md5.length, md5.length])
  exact ⟨String.toList_inj.mp hfirst, String.toList_inj.mp hsecond⟩

theorem isBitcodeIdentifier_uniqueIdentifier (md5 : Digest) (stem : String → String)
    (file : BitcodeFile) :
    IsBitcodeIdentifier md5 (file.uniqueIdentifier md5 stem) :=
  .inr ⟨_, _, rfl, .inr ⟨_, rfl⟩⟩

theorem sameFile_of_uniqueIdentifier {file file' : BitcodeFile}
    (hmd5 : Set.InjOn md5.hash {file.contents, file'.contents})
    (h : file.uniqueIdentifier md5 stem = file'.uniqueIdentifier md5 stem) :
    SameFile stem file file' := by
  obtain ⟨hstem, hhash⟩ := append_hash_inj h
  exact ⟨(String.append_left_inj _).mp hstem, hmd5 (by simp) (by simp) hhash⟩

/-- What a key says about a task: the file up to its directory, the kind, and the mutants. -/
def SameCode (stem : String → String) (job job' : Job) : Prop :=
  SameFile stem job.file job'.file ∧
    match job.kind, job'.kind with
    | .instrumented, .instrumented => True
    | .original _ pointers, .original _ pointers' =>
        (pointers.map (·.1.uniqueIdentifier)).Perm (pointers'.map (·.1.uniqueIdentifier))
    | _, _ => False

theorem SameCode.instrumented {job job' : Job} (h : SameCode stem job job')
    (hkind : job.kind = .instrumented) : job'.kind = .instrumented := by
  obtain ⟨-, hsame⟩ := h
  rw [hkind] at hsame
  cases hkind' : job'.kind with
  | instrumented => rfl
  | original addressOf pointers =>
      rw [hkind'] at hsame
      exact hsame.elim

/-- **Only tasks for the same code have the same key.** -/
theorem sameCode_of_key (hmd5 : Set.InjOn md5.hash (hashedTexts workers))
    (hpoints : PointsAdded md5 stem workers) {i j : ι} {job job' : Job}
    (hjob : job ∈ (workers i).jobs) (hjob' : job' ∈ (workers j).jobs)
    (hkey : job.cacheName md5 stem = job'.cacheName md5 stem) : SameCode stem job job' := by
  have hcontents : Set.InjOn md5.hash {job.file.contents, job'.file.contents} := by
    refine hmd5.mono ?_
    rintro text (rfl | rfl)
    · exact ⟨i, job, hjob, .inl rfl⟩
    · exact ⟨j, job', hjob', .inl rfl⟩
  have hid := isBitcodeIdentifier_uniqueIdentifier md5 stem job.file
  have hid' := isBitcodeIdentifier_uniqueIdentifier md5 stem job'.file
  unfold Job.cacheName at hkey
  unfold SameCode
  cases hkind : job.kind with
  | instrumented =>
      rw [hkind] at hkey
      cases hkind' : job'.kind with
      | instrumented =>
          rw [hkind'] at hkey
          exact ⟨sameFile_of_uniqueIdentifier hcontents ((String.append_left_inj _).mp hkey),
            trivial⟩
      | original addressOf' pointers' =>
          rw [hkind'] at hkey
          exact absurd hkey (instrumented_key_ne_mutated hid' addressOf' pointers')
  | original addressOf pointers =>
      rw [hkind] at hkey
      cases hkind' : job'.kind with
      | instrumented =>
          rw [hkind'] at hkey
          exact absurd hkey.symm (instrumented_key_ne_mutated hid addressOf pointers)
      | original addressOf' pointers' =>
          rw [hkind'] at hkey
          simp only at hkey ⊢
          have htexts : NoCollision md5 (hashedText (getMutationPointsMap addressOf pointers))
              (hashedText (getMutationPointsMap addressOf' pointers')) := fun hhash =>
            hmd5 ⟨i, job, hjob, .inr ⟨_, _, hkind, rfl⟩⟩
              ⟨j, job', hjob', .inr ⟨_, _, hkind', rfl⟩⟩ hhash
          have hsame : job.file.uniqueIdentifier md5 stem = job'.file.uniqueIdentifier md5 stem := by
            by_cases hnil : pointers = []
            · rw [getMutatedUniqueIdentifier_eq, if_pos hnil] at hkey
              exact ((mutated_key_eq_original_iff hid addressOf' pointers').mp hkey.symm).2.symm
            · by_cases hnil' : pointers' = []
              · rw [getMutatedUniqueIdentifier_eq md5 _ addressOf', if_pos hnil'] at hkey
                exact ((mutated_key_eq_original_iff hid' addressOf pointers).mp hkey).2
              · rw [getMutatedUniqueIdentifier_eq, if_neg hnil, getMutatedUniqueIdentifier_eq,
                  if_neg hnil'] at hkey
                have hprefix := (append_hash_inj ((String.append_left_inj _).mp hkey)).1
                exact (String.append_left_inj _).mp hprefix
          refine ⟨sameFile_of_uniqueIdentifier hcontents hsame, ?_⟩
          rw [hsame] at hkey
          refine (mutated_key_eq_iff ?_ (hpoints j job' hjob' _ _ hkind') htexts).mp hkey
          exact hsame ▸ hpoints i job hjob _ _ hkind

theorem key_eq_some_iff {job : Job} {name : String} :
    job.key md5 stem = some name ↔
      job.process.useOnDiskCache = true ∧ job.cacheName md5 stem = name := by
  unfold Job.key
  split
  · simp_all
  · simp_all

theorem key_eq_of_sameFile {job job' : Job} (hfile : SameFile stem job.file job'.file)
    (hkind : job.kind = .instrumented) (hkind' : job'.kind = .instrumented) :
    job.cacheName md5 stem = job'.cacheName md5 stem := by
  simp only [Job.cacheName, hkind, hkind', BitcodeFile.uniqueIdentifier, hfile.stem, hfile.contents]

end Keys

/-! ### The objects that the tasks get -/

section Objects

variable {md5 : Digest} {stem : String → String} {parse : String → List Function × List String}
  {ι : Type} [DecidableEq ι] {workers : ι → Worker}

theorem afterTurns_inv (md5 : Digest) (stem : String → String)
    (parse : String → List Function × List String) (workers : ι → Worker) {active : ι → Prop}
    {schedule : List ι} (h : ∀ i ∈ schedule, active i) :
    Inv (Job.key md5 stem) (Job.compile parse) (fun i => (workers i).jobs) active
      (afterTurns md5 stem parse workers schedule) :=
  run_inv (inv_initial _ _ _ _) h

theorem afterAllTurns_inv (md5 : Digest) (stem : String → String)
    (parse : String → List Function × List String) (workers : ι → Worker) (schedule : List ι) :
    Inv (Job.key md5 stem) (Job.compile parse) (fun i => (workers i).jobs) (fun _ => True)
      (afterTurns md5 stem parse workers schedule) :=
  afterTurns_inv md5 stem parse workers fun _ _ => trivial

theorem mem_jobs_of_result {schedule : List ι} {i : ι} {result : Job × ObjectFile}
    (h : result ∈ ((afterTurns md5 stem parse workers schedule).workers i).results) :
    result.1 ∈ (workers i).jobs := by
  have hsplit := (afterAllTurns_inv md5 stem parse workers schedule).split i
  exact hsplit ▸ List.mem_append_left _ (List.mem_map_of_mem h)

/-- The object file is the task's own, or it was compiled for the same code by a task of
    another process or thread that uses the cache. -/
def Belongs (stem : String → String) (parse : String → List Function × List String)
    (workers : ι → Worker) (result : Job × ObjectFile) : Prop :=
  result.2 = result.1.compile parse ∨ result.1.process.useOnDiskCache = true ∧
    ∃ i, ∃ job ∈ (workers i).jobs, job.process.useOnDiskCache = true ∧
      SameCode stem result.1 job ∧ result.2 = job.compile parse

theorem belongs_of_result (hmd5 : Set.InjOn md5.hash (hashedTexts workers))
    (hpoints : PointsAdded md5 stem workers) {schedule : List ι} {i : ι}
    {result : Job × ObjectFile}
    (h : result ∈ ((afterTurns md5 stem parse workers schedule).workers i).results) :
    Belongs stem parse workers result := by
  have hinv := afterAllTurns_inv md5 stem parse workers schedule
  rcases hinv.sourced i result h with hown | ⟨name, hkey, j, -, job, hjob, hkey', hobject⟩
  · exact .inl hown
  · obtain ⟨hcache, hname⟩ := key_eq_some_iff.mp hkey
    obtain ⟨hcache', hname'⟩ := key_eq_some_iff.mp hkey'
    refine .inr ⟨hcache, j, job, hjob, hcache', ?_, hobject.symm⟩
    exact sameCode_of_key hmd5 hpoints (mem_jobs_of_result h) hjob (hname.trans hname'.symm)

/-- **No task gets other code than its own.**  Under every interleaving of the tasks of all
    processes that share the directory, a worker has done its tasks in order, each once; and
    the object file that a task got was compiled from a file with the same stem and contents,
    for the same purpose and with the same mutants. -/
theorem objects_belong (md5 : Digest) (stem : String → String)
    (parse : String → List Function × List String) (workers : ι → Worker)
    (hmd5 : Set.InjOn md5.hash (hashedTexts workers)) (hpoints : PointsAdded md5 stem workers)
    (schedule : List ι) (i : ι) :
    ((afterTurns md5 stem parse workers schedule).workers i).results.map Prod.fst <+:
        (workers i).jobs ∧
      ∀ result ∈ ((afterTurns md5 stem parse workers schedule).workers i).results,
        Belongs stem parse workers result := by
  refine ⟨?_, fun result h => belongs_of_result hmd5 hpoints h⟩
  have hinv := afterAllTurns_inv md5 stem parse workers schedule
  exact ⟨_, hinv.split i⟩

end Objects

/-! ### The numbers in the instrumented code -/

section Numbers

variable {mangling : String} {inProcess : String → Option Nat}
  {parse : String → List Function × List String}

/-- What the run needs without a cache: the names of the modules are distinct, no symbol has
    the name of an offset variable, and the numbers that the instrumented code passes are
    those of the table. -/
structure Process.Loadable (mangling : String) (inProcess : String → Option Nat)
    (parse : String → List Function × List String) (process : Process) : Prop where
  distinct : ((process.modules parse).map Module.identifier).Nodup
  reserved : ∀ m ∈ process.modules parse, functionIndexOffsetPrefix ++ m.identifier ∉ m.names
  agrees : NumberingAgrees mangling inProcess (process.modules parse)

/-- The table and the offsets of the process. -/
def Process.instrumentation (parse : String → List Function × List String) (process : Process) :
    Instrumentation :=
  recordProgram ((process.modules parse).map registered)

/-- The offset of a module; asking for a module that is not there gives zero. -/
def Process.offset (parse : String → List Function × List String) (process : Process)
    (identifier : String) : Nat :=
  ((process.instrumentation parse).functionOffsetMapping identifier).getD 0

/-- The number that function `k` of a loaded object file passes to the callbacks. -/
def numberIn (mangling : String) (inProcess : String → Option Nat)
    (instrumentation : Instrumentation) (object : ObjectFile) (k : Nat) : Option Nat :=
  match object with
  | .original _ _ => none
  | .instrumented none => none
  | .instrumented (some m) =>
      m.functions[k]?.bind (passedIndex (offsetValue mangling inProcess instrumentation))

/-- With the object file that the task got, every function of the module passes the number
    under which the process has it in its table. -/
def Numbered (mangling : String) (inProcess : String → Option Nat)
    (parse : String → List Function × List String) (result : Job × ObjectFile) : Prop :=
  ∀ k, IsDefinition (result.1.file.module parse) k →
    ∃ index, numberIn mangling inProcess (result.1.process.instrumentation parse) result.2 k =
        some index ∧
      (result.1.process.instrumentation parse).functions[index]? =
        some (some (result.1.position, k))

theorem Job.getElem?_modules (parse : String → List Function × List String) (job : Job) :
    (job.process.modules parse)[job.position]? = some (job.file.module parse) := by
  rw [Process.modules, List.getElem?_map, job.mem]
  rfl

/-- The code of a module asks for the offset under the module's name, whatever process it
    runs in. -/
theorem numberIn_insertCallbacks (parse : String → List Function × List String) {m : Module}
    (hpaired : CallbacksPaired m)
    (hreserved : functionIndexOffsetPrefix ++ m.identifier ∉ m.names)
    (hprocess : ∀ identifier,
      inProcess (getNameWithPrefix mangling (functionIndexOffsetPrefix ++ identifier)) = none)
    (process : Process) {k : Nat} (hk : IsDefinition m k) :
    numberIn mangling inProcess (process.instrumentation parse)
        (.instrumented (insertCallbacks m)) k =
      some (((definitionsBelow m k).length % 2 ^ 32 + process.offset parse m.identifier) %
        2 ^ 32) := by
  obtain ⟨function, hget, hbody⟩ := hk
  obtain ⟨instrumented, info, hinsert, hspec⟩ := insertCallbacks_spec hpaired hreserved
  obtain ⟨enterFunction, leaveFunction, hfunction⟩ := hspec k function hget hbody
  rw [hinsert]
  simp only [numberIn]
  rw [hfunction, Option.bind_some, passedIndex_injectCallbacks hbody,
    offsetValue_module (hprocess m.identifier)]
  rfl

theorem instrumentation_nodup (process : Process) :
    (process.instrumentation parse).functions.Nodup :=
  (RecordedBefore.initial.recordFrom _).nodup

theorem offset_lt {process : Process} (h : ((process.modules parse).map Module.identifier).Nodup)
    (identifier : String) : process.offset parse identifier < 2 ^ 32 := by
  unfold Process.offset Process.instrumentation recordProgram
  rw [← identifiers_registered] at h
  by_cases hmem : identifier ∈ ((process.modules parse).map registered).map (·.module.identifier)
  · obtain ⟨bitcode, hbitcode, rfl⟩ := List.mem_map.mp hmem
    obtain ⟨j, hj⟩ := List.getElem?_of_mem hbitcode
    obtain ⟨offset, hoffset, -⟩ := @recordFrom_module 0 .initial _ h _ _ hj
    rw [hoffset]
    exact Nat.mod_lt _ (by decide)
  · rw [recordFrom_keeps.2 identifier hmem]
    exact Nat.two_pow_pos 32

/-- The instrumented code of a module of the process, without a cache. -/
theorem runtimeIndex_eq_numberIn (process : Process) {i : Nat} {m : Module}
    (hm : (process.modules parse)[i]? = some m) (k : Nat) :
    runtimeIndex mangling inProcess ((process.modules parse).map registered) i k =
      numberIn mangling inProcess (process.instrumentation parse)
        (.instrumented (insertCallbacks m)) k := by
  have hget : ((process.modules parse).map registered)[i]? = some (registered m) := by simp [hm]
  simp only [runtimeIndex, hget, Option.bind_eq_bind, Option.bind_some, clone_registered]
  cases insertCallbacks m with
  | none => rfl
  | some instrumented => rfl

/-- Without a cache the numbers agree. -/
theorem numbered_own {job : Job} (h : job.process.Loadable mangling inProcess parse)
    (hkind : job.kind = .instrumented) :
    Numbered mangling inProcess parse (job, job.compile parse) := by
  obtain ⟨program, hprogram, hagrees, -⟩ := h.agrees
  rw [loadProgram_eq h.distinct] at hprogram
  obtain rfl := Option.some.inj hprogram
  have hm := job.getElem?_modules parse
  intro k hk
  obtain ⟨index, hindex, hstored, -⟩ := hagrees job.position k (registered (job.file.module parse))
    (by simp [hm]) hk
  rw [runtimeIndex_eq_numberIn job.process hm] at hindex
  refine ⟨index, ?_, hstored⟩
  simp only [Job.compile, hkind]
  exact hindex

theorem Process.Loadable.paired {process : Process}
    (h : process.Loadable mangling inProcess parse) {m : Module} (hm : m ∈ process.modules parse)
    {k : Nat} (hk : IsDefinition m k) : CallbacksPaired m :=
  (h.agrees.callbacksUnused h.distinct m hm).paired k hk

/-- The number that a function passes if its code comes from another task for the same
    contents. -/
theorem numberIn_compile {job job' : Job} (h : job'.process.Loadable mangling inProcess parse)
    (hprocess : ∀ identifier,
      inProcess (getNameWithPrefix mangling (functionIndexOffsetPrefix ++ identifier)) = none)
    (hkind : job'.kind = .instrumented) (hcontents : job.file.contents = job'.file.contents)
    {k : Nat} (hk : IsDefinition (job.file.module parse) k) (process : Process) :
    numberIn mangling inProcess (process.instrumentation parse) (job'.compile parse) k =
      some (((definitionsBelow (job.file.module parse) k).length % 2 ^ 32 +
        process.offset parse job'.file.identifier) % 2 ^ 32) := by
  have hmem : job'.file.module parse ∈ job'.process.modules parse :=
    List.mem_of_getElem? (job'.getElem?_modules parse)
  have hfunctions : (job'.file.module parse).functions = (job.file.module parse).functions := by
    rw [BitcodeFile.module, BitcodeFile.module, hcontents]
  have hk' : IsDefinition (job'.file.module parse) k := by
    obtain ⟨function, hget, hbody⟩ := hk
    exact ⟨function, hfunctions ▸ hget, hbody⟩
  have hnumber := numberIn_insertCallbacks parse (h.paired hmem hk') (h.reserved _ hmem) hprocess
    process hk'
  have hbelow : definitionsBelow (job'.file.module parse) k =
      definitionsBelow (job.file.module parse) k := by
    rw [definitionsBelow, definitionsBelow, hfunctions]
  simp only [Job.compile, hkind]
  rw [hnumber, hbelow]
  rfl

/-- **Code of the same contents passes the right numbers exactly if the process has the same
    offset for its name.** -/
theorem numbered_compile_iff {job job' : Job}
    (h : job.process.Loadable mangling inProcess parse)
    (h' : job'.process.Loadable mangling inProcess parse)
    (hprocess : ∀ identifier,
      inProcess (getNameWithPrefix mangling (functionIndexOffsetPrefix ++ identifier)) = none)
    (hkind : job.kind = .instrumented) (hkind' : job'.kind = .instrumented)
    (hcontents : job.file.contents = job'.file.contents) {k : Nat}
    (hk : IsDefinition (job.file.module parse) k) :
    Numbered mangling inProcess parse (job, job'.compile parse) ↔
      job.process.offset parse job'.file.identifier =
        job.process.offset parse job.file.identifier := by
  have hown := numbered_own h hkind
  constructor
  · intro hnumbered
    obtain ⟨index, hindex, hstored⟩ := hown k hk
    obtain ⟨index', hindex', hstored'⟩ := hnumbered k hk
    simp only at hindex hindex' hstored hstored'
    rw [numberIn_compile h hprocess hkind rfl hk] at hindex
    rw [numberIn_compile h' hprocess hkind' hcontents hk] at hindex'
    -- the table has the function once
    have hlt := (List.getElem?_eq_some_iff.mp hstored).1
    have hsame : index = index' :=
      (List.getElem?_inj hlt (instrumentation_nodup job.process)).mp (hstored.trans hstored'.symm)
    rw [← Option.some.inj hindex, ← Option.some.inj hindex'] at hsame
    have hbound := offset_lt h.distinct job.file.identifier
    have hbound' := offset_lt h.distinct job'.file.identifier
    omega
  · intro hoffset k' hk'
    obtain ⟨index, hindex, hstored⟩ := hown k' hk'
    simp only at hindex hstored
    rw [numberIn_compile h hprocess hkind rfl hk'] at hindex
    refine ⟨index, ?_, hstored⟩
    simp only
    rw [numberIn_compile h' hprocess hkind' hcontents hk', hoffset, hindex]

/-- Code of another module of the same process passes that module's numbers. -/
theorem compile_eq_of_numbered {job task : Job}
    (h : task.process.Loadable mangling inProcess parse) (hkind : job.kind = .instrumented)
    (hkind' : task.kind = .instrumented) (hown : job.process = task.process)
    (hcontents : job.file.contents = task.file.contents) {k : Nat}
    (hk : IsDefinition (job.file.module parse) k)
    (hnumbered : Numbered mangling inProcess parse (job, task.compile parse)) :
    task.compile parse = job.compile parse := by
  have hk' : IsDefinition (task.file.module parse) k := by
    obtain ⟨function, hget, hbody⟩ := hk
    refine ⟨function, ?_, hbody⟩
    simpa only [BitcodeFile.module, hcontents] using hget
  obtain ⟨index, hindex, hstored⟩ := hnumbered k hk
  obtain ⟨index', hindex', hstored'⟩ := numbered_own h hkind' k hk'
  simp only [hown] at hindex hindex' hstored hstored'
  obtain rfl := Option.some.inj (hindex.symm.trans hindex')
  have hentry := Option.some.inj (Option.some.inj (hstored.symm.trans hstored'))
  have hfile := job.mem
  rw [hown, (Prod.mk.inj hentry).1, task.mem] at hfile
  simp only [Job.compile, hkind, hkind', Option.some.inj hfile]

variable {md5 : Digest} {stem : String → String} {ι : Type} [DecidableEq ι]

/-- Two cached files with the same stem and contents, if they define anything, have the same
    offset in the process of the first. -/
def OffsetsAgree (stem : String → String) (parse : String → List Function × List String)
    (workers : ι → Worker) : Prop :=
  ∀ i j, ∀ job ∈ (workers i).jobs, ∀ job' ∈ (workers j).jobs,
    job.kind = .instrumented → job'.kind = .instrumented →
    job.process.useOnDiskCache = true → job'.process.useOnDiskCache = true →
    SameFile stem job.file job'.file → (∃ k, IsDefinition (job.file.module parse) k) →
    job.process.offset parse job'.file.identifier = job.process.offset parse job.file.identifier

end Numbers

/-! ### A program that was moved -/

/-- `test.bc`, in either directory. -/
def movedFile (directory : String) : BitcodeFile := ⟨directory ++ "/test.bc", ""⟩

/-- Every file has one test. -/
def oneTest : String → List Function × List String := fun _ => ([definition "test"], [])

/-- A thread that compiles the one file of its program, for the test run and for the
    mutants. -/
def movedWorker (directory : String) : Worker where
  process := ⟨[movedFile directory], true⟩
  jobs := [⟨⟨[movedFile directory], true⟩, 0, movedFile directory, .instrumented, rfl⟩,
    ⟨⟨[movedFile directory], true⟩, 0, movedFile directory, .original id [], rfl⟩]
  own := by simp

def movedWorkers (before : Bool) : Worker := movedWorker (if before then "a" else "b")

def movedStem : String → String := fun _ => "test"

theorem hashedTexts_moved {text : String} (h : text ∈ hashedTexts movedWorkers) : text = "" := by
  obtain ⟨before, job, hjob, h⟩ := h
  simp only [movedWorkers, movedWorker, List.mem_cons, List.not_mem_nil, or_false] at hjob
  rcases hjob with rfl | rfl
  · rcases h with rfl | ⟨_, _, hkind, -⟩
    · rfl
    · cases hkind
  · rcases h with rfl | ⟨_, _, hkind, rfl⟩
    · rfl
    · cases hkind
      simp [hashedText, mutationPointsIds, getMutationPointsMap]

theorem injOn_moved : Set.InjOn sumDigest.hash (hashedTexts movedWorkers) := by
  intro text htext text' htext' _
  rw [hashedTexts_moved htext, hashedTexts_moved htext']

theorem pointsAdded_moved : PointsAdded sumDigest movedStem movedWorkers := by
  intro before job hjob addressOf pointers hkind
  simp only [movedWorkers, movedWorker, List.mem_cons, List.not_mem_nil, or_false] at hjob
  rcases hjob with rfl | rfl
  · cases hkind
  · cases hkind
    simp [PointsOf]

theorem isDefinition_oneTest {identifier : String} {k : Nat} :
    IsDefinition (BitcodeFile.module oneTest ⟨identifier, ""⟩) k ↔ k = 0 := by
  constructor
  · rintro ⟨function, hget, -⟩
    have hlt := (List.getElem?_eq_some_iff.mp hget).1
    simpa [BitcodeFile.module, oneTest] using hlt
  · rintro rfl
    exact ⟨_, rfl, rfl⟩

theorem loadable_moved (before : Bool) :
    (movedWorkers before).process.Loadable "_" (fun _ => none) oneTest := by
  have hmodules : (movedWorkers before).process.modules oneTest =
      [(movedFile (if before then "a" else "b")).module oneTest] := rfl
  have hreserved : ∀ m ∈ (movedWorkers before).process.modules oneTest,
      functionIndexOffsetPrefix ++ m.identifier ∉ m.names := by
    cases before <;> decide
  have hdistinct : (((movedWorkers before).process.modules oneTest).map Module.identifier).Nodup := by
    rw [hmodules]
    exact List.nodup_singleton _
  have hruntime : runtimeIndex "_" (fun _ => none)
      (((movedWorkers before).process.modules oneTest).map registered) 0 0 = some 1 := by
    cases before <;> decide
  have honly : ∀ i k bitcode, (((movedWorkers before).process.modules oneTest).map
      registered)[i]? = some bitcode → IsDefinition bitcode.clone k → i = 0 ∧ k = 0 := by
    intro i k bitcode hget hk
    have hlt := (List.getElem?_eq_some_iff.mp hget).1
    obtain rfl : i = 0 := by simpa [hmodules] using hlt
    obtain rfl := Option.some.inj hget
    exact ⟨rfl, isDefinition_oneTest.mp hk⟩
  refine ⟨hdistinct, hreserved, _, loadProgram_eq hdistinct, ?_, ?_⟩
  · intro i k bitcode hget hk
    obtain ⟨rfl, rfl⟩ := honly i k bitcode hget hk
    exact ⟨1, hruntime, rfl, le_rfl, by cases before <;> decide⟩
  · rintro i k i' k' index - - ⟨bitcode, hget, hk⟩ ⟨bitcode', hget', hk'⟩
    obtain ⟨rfl, rfl⟩ := honly i k bitcode hget hk
    obtain ⟨rfl, rfl⟩ := honly i' k' bitcode' hget' hk'
    rfl

/-- The two runs take turns; what the second one looks for, the first one has stored. -/
theorem objects_belong_moved :
    ((afterTurns sumDigest movedStem oneTest movedWorkers
        [true, true, false, true]).workers false).results.map Prod.fst <+:
      (movedWorkers false).jobs ∧
    ∀ result ∈ ((afterTurns sumDigest movedStem oneTest movedWorkers
        [true, true, false, true]).workers false).results,
      Belongs movedStem oneTest movedWorkers result :=
  objects_belong sumDigest movedStem oneTest movedWorkers injOn_moved pointsAdded_moved
    [true, true, false, true] false

end Mull.CacheRuns
