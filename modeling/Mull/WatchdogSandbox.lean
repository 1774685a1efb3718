import Mull.ProcessSandbox

/-!
# The watchdog sandbox

`ForkWatchdogSandbox::run` forks a watchdog, which forks a timer and a worker, waits for the one
that ends first, kills the other one and waits for it, too.  The caller waits for the watchdog, and
then once more for any child at all.

A call that has returned has left no process behind, and its status is that of the test unless the
timer has slept for the whole timeout (`returned_status`).  One call at a time always returns; of
two calls in two threads, the last `wait` of one may take away the watchdog of the other, which then
waits forever (`all_return_iff`).

A schedule is any sequence of turns of the processes.  The set-up calls succeed here, running times
are left out, and so is that the pipes of one call are open in the children of others.
-/

namespace Mull.WatchdogSandbox

open FairRounds
open ProcessSandbox (Stream Action TestFunction WaitStatus ChildOp finalStatus mullExitCode appendBuffer)

/-! ### The processes of a call -/

/-- A test function ends, or goes on forever after some actions. -/
inductive Test where
  | ends (test : TestFunction)
  | loops (actions : List Action)

def Test.ops : Test → List ChildOp
  | .ends test => test.childOps
  | .loops actions => actions.map .act

def Test.ending? : Test → Option WaitStatus
  | .ends test => some test.waitStatus
  | .loops _ => none

structure Config where
  test : Test
  timeout : Nat
  shouldCaptureOutput : Bool
  capacity : Nat
  /-- which of two ended children `waitpid(WAIT_ANY)` finds -/
  timerFirst : Bool

/-- A child of the watchdog.  A signal that kills it may be on its way. -/
inductive Forked (Todo : Type) where
  | notForked
  | running (todo : Todo) (killed : Bool)
  | zombie (status : WaitStatus)
  | reaped (status : WaitStatus)

def Forked.kill {Todo : Type} : Forked Todo → Forked Todo
  | .running todo _ => .running todo true
  | child => child

/-- The signal arrives. -/
def Forked.deliver {Todo : Type} : Forked Todo → Forked Todo
  | .running _ true => .zombie .signaled
  | child => child

inductive Watchdog where
  | notForked
  | forkTimer
  | forkWorker
  | waitAny
  | killWorker
  | setTimedout
  | killTimer (status : WaitStatus)
  | judge (status : WaitStatus)
  | waitLast
  | zombie
  | reaped
deriving DecidableEq

/-- The thread that calls `run`. -/
inductive Main where
  | forkWatchdog
  | waitWatchdog
  | waitAny
  | capturing (status : ExecutionStatus) (streams : List Stream)
  | returned (status : ExecutionStatus)

/-- A call of `run`: the timer still has to sleep for some milliseconds, the worker has operations
    of the test function ahead. -/
structure Run where
  main : Main
  watchdog : Watchdog
  timer : Forked Nat
  worker : Forked (List ChildOp)
  sharedStatus : ExecutionStatus
  pipe : Stream → List UInt8
  output : Stream → List UInt8

def Run.initial : Run where
  main := .forkWatchdog
  watchdog := .notForked
  timer := .notForked
  worker := .notForked
  sharedStatus := .invalid
  pipe := fun _ => []
  output := fun _ => []

/-! ### The children -/

/-- The timer sleeps for a millisecond, or ends. -/
def Forked.sleep : Forked Nat → Forked Nat
  | .running (n + 1) killed => .running n killed
  | .running 0 _ => .zombie (.exited 0)
  | timer => timer

def timerStep (run : Run) : Run := { run with timer := run.timer.sleep }

/-- The next operation of the worker; a write to a full pipe blocks. -/
def workerOp (cfg : Config) (run : Run) (op : ChildOp) (rest : List ChildOp) (killed : Bool) : Run :=
  match op with
  | .act .compute => { run with worker := .running rest killed }
  | .act (.write stream byte) =>
      if cfg.shouldCaptureOutput = false then { run with worker := .running rest killed }
      else if (run.pipe stream).length < cfg.capacity then
        { run with
          worker := .running rest killed
          pipe := Function.update run.pipe stream (run.pipe stream ++ [byte]) }
      else run
  | .setStatus status => { run with sharedStatus := status, worker := .running rest killed }

def workerStep (cfg : Config) (run : Run) : Run :=
  match run.worker with
  | .running (op :: rest) killed => workerOp cfg run op rest killed
  | .running [] _ =>
      match cfg.test.ending? with
      | some status => { run with worker := .zombie status }
      | none => run
  | _ => run

/-- What the watchdog makes of a worker that has ended first. -/
def workerStatus (status : WaitStatus) (sharedStatus : ExecutionStatus) : ExecutionStatus :=
  match status with
  | .signaled => .crashed
  | .exited code =>
      if code ≠ mullExitCode then .abnormalExit
      else if sharedStatus = .invalid then .passed
      else sharedStatus

def watchdogStep (cfg : Config) (run : Run) : Run :=
  match run.watchdog with
  | .forkTimer => { run with watchdog := .forkWorker, timer := .running cfg.timeout false }
  | .forkWorker => { run with watchdog := .waitAny, worker := .running cfg.test.ops false }
  | .waitAny =>
      match run.timer, run.worker with
      | .zombie timer, .zombie worker =>
          if cfg.timerFirst then { run with watchdog := .killWorker, timer := .reaped timer }
          else { run with watchdog := .killTimer worker, worker := .reaped worker }
      | .zombie timer, _ => { run with watchdog := .killWorker, timer := .reaped timer }
      | _, .zombie worker => { run with watchdog := .killTimer worker, worker := .reaped worker }
      | _, _ => run
  | .killWorker => { run with watchdog := .setTimedout, worker := run.worker.kill }
  | .setTimedout => { run with watchdog := .waitLast, sharedStatus := .timedout }
  | .killTimer status => { run with watchdog := .judge status, timer := run.timer.kill }
  | .judge status =>
      { run with watchdog := .waitLast, sharedStatus := workerStatus status run.sharedStatus }
  | .waitLast =>
      match run.timer, run.worker with
      | .zombie timer, _ => { run with watchdog := .zombie, timer := .reaped timer }
      | _, .zombie worker => { run with watchdog := .zombie, worker := .reaped worker }
      | .reaped _, .reaped _ => { run with watchdog := .zombie }
      | _, _ => run
  | .notForked | .zombie | .reaped => run

/-- The kernel delivers signals. -/
def kernelStep (run : Run) : Run :=
  { run with timer := run.timer.deliver, worker := run.worker.deliver }

inductive Process where
  | watchdog
  | timer
  | worker
  | kernel
deriving DecidableEq

def childStep (cfg : Config) (process : Process) (run : Run) : Run :=
  match process with
  | .watchdog => watchdogStep cfg run
  | .timer => timerStep run
  | .worker => workerStep cfg run
  | .kernel => kernelStep run

/-! ### Calls in several threads -/

/-- The watchdog is a child of the calling process. -/
def Watchdog.isChild : Watchdog → Bool
  | .notForked | .reaped => false
  | _ => true

section Threads

variable (cfg : Nat → Config) (n : Nat)

/-- A turn of the thread of call `j`.  If it waits for any child, it finds the watchdog of call
    `found`; without children it does not wait. -/
def mainStep (j found : Nat) (runs : Nat → Run) : Nat → Run :=
  let run := runs j
  match run.main with
  | .forkWatchdog =>
      Function.update runs j { run with main := .waitWatchdog, watchdog := .forkTimer }
  | .waitWatchdog =>
      if run.watchdog = .zombie then
        Function.update runs j { run with main := .waitAny, watchdog := .reaped }
      else runs
  | .waitAny =>
      let after := { run with main := .capturing run.sharedStatus [.stdout, .stderr] }
      if ∃ i < n, (runs i).watchdog.isChild then
        if found < n ∧ (runs found).watchdog = .zombie then
          Function.update (Function.update runs j after) found
            { Function.update runs j after found with watchdog := .reaped }
        else runs
      else Function.update runs j after
  | .capturing status (stream :: rest) =>
      if (cfg j).shouldCaptureOutput = true ∧ run.pipe stream ≠ [] then
        Function.update runs j { run with
          pipe := Function.update run.pipe stream ((run.pipe stream).drop 7)
          output := Function.update run.output stream
            (appendBuffer (run.output stream) ((run.pipe stream).take 7)) }
      else Function.update runs j { run with main := .capturing status rest }
  | .capturing status [] => Function.update runs j { run with main := .returned status }
  | .returned _ => runs

inductive Turn where
  | main (j found : Nat)
  | child (j : Nat) (process : Process)
deriving DecidableEq

/-- A turn, when `n` threads call `run`. -/
def step (turn : Turn) (runs : Nat → Run) : Nat → Run :=
  match turn with
  | .main j found => if j < n then mainStep cfg n j found runs else runs
  | .child j process => Function.update runs j (childStep (cfg j) process (runs j))

/-- Before the calls. -/
def start : Nat → Run := fun _ => .initial

def processes : List Process := [.watchdog, .timer, .worker, .kernel]

def turns : List Turn :=
  (List.range n).flatMap fun j =>
    (List.range n).map (Turn.main j) ++ processes.map (Turn.child j)

end Threads

/-! ### The phases of a call -/

section Phases

variable {cfg : Config}

/-- What the operations of the test leave in `sharedResult->status`. -/
def Config.finalStatus (cfg : Config) : ExecutionStatus :=
  ProcessSandbox.finalStatus .invalid cfg.test.ops

/-- The timer has not been killed. -/
inductive Sleeping : Forked Nat → Prop where
  | running (n : Nat) : Sleeping (.running n false)
  | zombie : Sleeping (.zombie (.exited 0))

/-- The child has been killed, or had ended before. -/
inductive Killed {Todo : Type} : Forked Todo → Prop where
  | running (todo : Todo) : Killed (.running todo true)
  | zombie (status : WaitStatus) : Killed (.zombie status)

/-- The worker has not been killed. -/
inductive Working (cfg : Config) : Forked (List ChildOp) → ExecutionStatus → Prop where
  | running {ops : List ChildOp} {shared : ExecutionStatus}
      (hfinal : finalStatus shared ops = cfg.finalStatus) (hops : ops ⊆ cfg.test.ops) :
      Working cfg (.running ops false) shared
  | zombie {status : WaitStatus} (h : cfg.test.ending? = some status) :
      Working cfg (.zombie status) cfg.finalStatus

/-- The operations that are left are some of those of the test. -/
def OpsLeft (cfg : Config) (worker : Forked (List ChildOp)) : Prop :=
  ∀ ops killed, worker = .running ops killed → ops ⊆ cfg.test.ops

/-- The status if the test ends by itself. -/
def Config.ownStatus? (cfg : Config) : Option ExecutionStatus :=
  cfg.test.ending?.map fun status => workerStatus status cfg.finalStatus

/-- The status is that of the test.  If the timer has ended first, it is a timeout, or what the
    worker has written after that. -/
def Settled (cfg : Config) (timer : WaitStatus) (shared : ExecutionStatus) : Prop :=
  cfg.ownStatus? = some shared ∨
    timer = .exited 0 ∧ (shared = .timedout ∨ .setStatus shared ∈ cfg.test.ops)

/-- The watchdog, its children and the shared status. -/
inductive Phase (cfg : Config) :
    Watchdog → Forked Nat → Forked (List ChildOp) → ExecutionStatus → Prop where
  | notForked : Phase cfg .notForked .notForked .notForked .invalid
  | forkTimer : Phase cfg .forkTimer .notForked .notForked .invalid
  | forkWorker {timer : Forked Nat} (htimer : Sleeping timer) :
      Phase cfg .forkWorker timer .notForked .invalid
  | waitAny {timer : Forked Nat} {worker : Forked (List ChildOp)} {shared : ExecutionStatus}
      (htimer : Sleeping timer) (hworker : Working cfg worker shared) :
      Phase cfg .waitAny timer worker shared
  | killWorker {worker : Forked (List ChildOp)} {shared : ExecutionStatus}
      (hworker : Working cfg worker shared) :
      Phase cfg .killWorker (.reaped (.exited 0)) worker shared
  | setTimedout {worker : Forked (List ChildOp)} {shared : ExecutionStatus}
      (hworker : Killed worker) (hops : OpsLeft cfg worker) :
      Phase cfg .setTimedout (.reaped (.exited 0)) worker shared
  | killTimer {timer : Forked Nat} {status : WaitStatus} (htimer : Sleeping timer)
      (hstatus : cfg.test.ending? = some status) :
      Phase cfg (.killTimer status) timer (.reaped status) cfg.finalStatus
  | judge {timer : Forked Nat} {status : WaitStatus} (htimer : Killed timer)
      (hstatus : cfg.test.ending? = some status) :
      Phase cfg (.judge status) timer (.reaped status) cfg.finalStatus
  | waitWorker {worker : Forked (List ChildOp)} {shared : ExecutionStatus} (hworker : Killed worker)
      (hops : OpsLeft cfg worker) (hshared : shared = .timedout ∨ .setStatus shared ∈ cfg.test.ops) :
      Phase cfg .waitLast (.reaped (.exited 0)) worker shared
  | waitTimer {timer : Forked Nat} {status : WaitStatus} {shared : ExecutionStatus}
      (htimer : Killed timer) (hown : cfg.ownStatus? = some shared) :
      Phase cfg .waitLast timer (.reaped status) shared
  | zombie {timer status : WaitStatus} {shared : ExecutionStatus} (h : Settled cfg timer shared) :
      Phase cfg .zombie (.reaped timer) (.reaped status) shared
  | reaped {timer status : WaitStatus} {shared : ExecutionStatus} (h : Settled cfg timer shared) :
      Phase cfg .reaped (.reaped timer) (.reaped status) shared

def Run.Phase (cfg : Config) (run : Run) : Prop :=
  WatchdogSandbox.Phase cfg run.watchdog run.timer run.worker run.sharedStatus

/-! ### What a turn of a child does -/

variable {run : Run}

/-- The worker is blocked, or it has done an operation, or it ends. -/
theorem workerStep_cases (cfg : Config) (run : Run) :
    workerStep cfg run = run ∨
    (∃ op rest killed pipe shared, run.worker = .running (op :: rest) killed ∧
      workerStep cfg run =
        { run with worker := .running rest killed, pipe := pipe, sharedStatus := shared } ∧
      (∀ ops, finalStatus shared ops = finalStatus run.sharedStatus (op :: ops)) ∧
      (shared = run.sharedStatus ∨ op = .setStatus shared) ∧
      (pipe = run.pipe ∨
        ∃ stream byte, pipe = Function.update run.pipe stream (run.pipe stream ++ [byte]))) ∨
    ∃ killed status, run.worker = .running [] killed ∧ cfg.test.ending? = some status ∧
      workerStep cfg run = { run with worker := .zombie status } := by
  unfold workerStep
  cases hworker : run.worker with
  | running ops killed =>
      cases ops with
      | nil =>
          cases hending : cfg.test.ending? with
          | none => exact .inl rfl
          | some status => exact .inr (.inr ⟨killed, status, rfl, rfl, rfl⟩)
      | cons op rest =>
          cases op with
          | setStatus status =>
              exact .inr (.inl ⟨_, rest, killed, run.pipe, status, rfl, rfl, fun _ => rfl, .inr rfl,
                .inl rfl⟩)
          | act action =>
              cases action with
              | compute =>
                  exact .inr (.inl ⟨_, rest, killed, run.pipe, run.sharedStatus, rfl, rfl,
                    fun _ => rfl, .inl rfl, .inl rfl⟩)
              | write stream byte =>
                  simp only [workerOp]
                  split
                  · exact .inr (.inl ⟨_, rest, killed, run.pipe, run.sharedStatus, rfl, rfl,
                      fun _ => rfl, .inl rfl, .inl rfl⟩)
                  · split
                    · exact .inr (.inl ⟨_, rest, killed, _, run.sharedStatus, rfl, rfl,
                        fun _ => rfl, .inl rfl, .inr ⟨stream, byte, rfl⟩⟩)
                    · exact .inl rfl
  | _ => exact .inl rfl

theorem Sleeping.kill {timer : Forked Nat} (h : Sleeping timer) : Killed timer.kill := by
  cases h with
  | running n => exact .running n
  | zombie => exact .zombie _

theorem Working.kill {worker : Forked (List ChildOp)} {shared : ExecutionStatus}
    (h : Working cfg worker shared) : Killed worker.kill ∧ OpsLeft cfg worker.kill := by
  cases h with
  | running hfinal hops =>
      refine ⟨.running _, ?_⟩
      rintro ops killed ⟨⟩
      exact hops
  | zombie h =>
      refine ⟨.zombie _, ?_⟩
      intro ops killed heq
      cases heq

theorem Killed.deliver {Todo : Type} {child : Forked Todo} (h : Killed child) :
    child.deliver = .zombie .signaled ∨ child.deliver = child ∧ ∃ status, child = .zombie status := by
  cases h with
  | running todo => exact .inl rfl
  | zombie status => exact .inr ⟨rfl, status, rfl⟩

theorem Sleeping.deliver {timer : Forked Nat} (h : Sleeping timer) : timer.deliver = timer := by
  cases h <;> rfl

theorem Working.deliver {worker : Forked (List ChildOp)} {shared : ExecutionStatus}
    (h : Working cfg worker shared) : worker.deliver = worker := by
  cases h <;> rfl

theorem Sleeping.sleep {timer : Forked Nat} (h : Sleeping timer) : Sleeping timer.sleep := by
  cases h with
  | running n =>
      cases n with
      | zero => exact .zombie
      | succ n => exact .running n
  | zombie => exact .zombie

theorem Killed.sleep {timer : Forked Nat} (h : Killed timer) : Killed timer.sleep := by
  cases h with
  | running n =>
      cases n with
      | zero => exact .zombie _
      | succ n => exact .running n
  | zombie status => exact .zombie status

/-- The worker changes itself, the pipes and the shared status. -/
theorem workerStep_frame (cfg : Config) (run : Run) :
    (workerStep cfg run).main = run.main ∧ (workerStep cfg run).watchdog = run.watchdog ∧
      (workerStep cfg run).timer = run.timer := by
  rcases workerStep_cases cfg run with h | ⟨op, rest, killed, pipe, shared, -, h, -⟩ |
    ⟨killed, status, -, -, h⟩
  all_goals
    rw [h]
    exact ⟨rfl, rfl, rfl⟩

theorem Working.workerStep (h : Working cfg run.worker run.sharedStatus) :
    Working cfg (workerStep cfg run).worker (workerStep cfg run).sharedStatus := by
  rcases workerStep_cases cfg run with hstep | ⟨op, rest, killed, pipe, shared, hworker, hstep,
    hfinal, -⟩ | ⟨killed, status, hworker, hending, hstep⟩
  · rwa [hstep]
  · rw [hworker] at h
    rw [hstep]
    cases h with
    | running hbefore hops =>
        refine .running ?_ fun op' hmem => hops (List.mem_cons_of_mem _ hmem)
        rw [hfinal, hbefore]
  · rw [hworker] at h
    rw [hstep]
    generalize run.sharedStatus = shared at h
    cases h with
    | running hbefore hops =>
        have hsame : shared = cfg.finalStatus := hbefore
        rw [hsame]
        exact .zombie hending

/-- A worker that has been killed may still write its status. -/
theorem Killed.workerStep (h : Killed run.worker) (hops : OpsLeft cfg run.worker) :
    Killed (workerStep cfg run).worker ∧ OpsLeft cfg (workerStep cfg run).worker ∧
      ((workerStep cfg run).sharedStatus = run.sharedStatus ∨
        .setStatus (workerStep cfg run).sharedStatus ∈ cfg.test.ops) := by
  rcases workerStep_cases cfg run with hstep | ⟨op, rest, killed, pipe, shared, hworker, hstep, -,
    hshared, -⟩ | ⟨killed, status, hworker, hending, hstep⟩
  · rw [hstep]
    exact ⟨h, hops, .inl rfl⟩
  · have hsubset := hops _ _ hworker
    rw [hworker] at h
    rw [hstep]
    cases h with
    | running =>
        refine ⟨.running rest, ?_, hshared.imp_right ?_⟩
        · rintro ops killed ⟨⟩
          exact fun op' hmem => hsubset (List.mem_cons_of_mem _ hmem)
        · rintro rfl
          exact hsubset List.mem_cons_self
  · rw [hstep]
    refine ⟨.zombie status, ?_, .inl rfl⟩
    intro ops killed heq
    cases heq

theorem workerStep_idle (h : ∀ ops killed, run.worker ≠ .running ops killed) :
    WatchdogSandbox.workerStep cfg run = run := by
  unfold WatchdogSandbox.workerStep
  cases hworker : run.worker with
  | running ops killed => exact absurd hworker (h ops killed)
  | _ => rfl

/-! ### The phases follow each other -/

theorem Run.Phase.timerStep (h : run.Phase cfg) : (timerStep run).Phase cfg := by
  rcases run with ⟨main, watchdog, timer, worker, shared, pipe, output⟩
  cases h with
  | notForked => exact .notForked
  | forkTimer => exact .forkTimer
  | forkWorker htimer => exact .forkWorker htimer.sleep
  | waitAny htimer hworker => exact .waitAny htimer.sleep hworker
  | killWorker hworker => exact .killWorker hworker
  | setTimedout hworker hops => exact .setTimedout hworker hops
  | killTimer htimer hstatus => exact .killTimer htimer.sleep hstatus
  | judge htimer hstatus => exact .judge htimer.sleep hstatus
  | waitWorker hworker hops hshared => exact .waitWorker hworker hops hshared
  | waitTimer htimer hown => exact .waitTimer htimer.sleep hown
  | zombie h => exact .zombie h
  | reaped h => exact .reaped h

theorem Run.Phase.kernelStep (h : run.Phase cfg) : (kernelStep run).Phase cfg := by
  rcases run with ⟨main, watchdog, timer, worker, shared, pipe, output⟩
  unfold WatchdogSandbox.kernelStep Run.Phase
  have hkilled : ∀ {Todo : Type} {child : Forked Todo}, Killed child → Killed child.deliver := by
    intro Todo child h
    rcases h.deliver with heq | ⟨heq, -⟩
    · rw [heq]
      exact .zombie _
    · rwa [heq]
  have hleft : Killed worker → OpsLeft cfg worker → OpsLeft cfg worker.deliver := by
    intro h hops
    rcases h.deliver with heq | ⟨heq, -⟩
    · rw [heq]
      intro ops killed heq
      cases heq
    · rwa [heq]
  cases h with
  | notForked => exact .notForked
  | forkTimer => exact .forkTimer
  | forkWorker htimer => exact .forkWorker (htimer.deliver.symm ▸ htimer)
  | waitAny htimer hworker =>
      exact .waitAny (htimer.deliver.symm ▸ htimer) (hworker.deliver.symm ▸ hworker)
  | killWorker hworker => exact .killWorker (hworker.deliver.symm ▸ hworker)
  | setTimedout hworker hops => exact .setTimedout (hkilled hworker) (hleft hworker hops)
  | killTimer htimer hstatus => exact .killTimer (htimer.deliver.symm ▸ htimer) hstatus
  | judge htimer hstatus => exact .judge (hkilled htimer) hstatus
  | waitWorker hworker hops hshared => exact .waitWorker (hkilled hworker) (hleft hworker hops) hshared
  | waitTimer htimer hown => exact .waitTimer (hkilled htimer) hown
  | zombie h => exact .zombie h
  | reaped h => exact .reaped h

theorem Run.Phase.workerStep (h : run.Phase cfg) : (workerStep cfg run).Phase cfg := by
  rcases workerStep_frame cfg run with ⟨-, hwatchdog, htimer'⟩
  have hidle : (∀ ops killed, run.worker ≠ .running ops killed) →
      (WatchdogSandbox.workerStep cfg run).Phase cfg := by
    intro hnot
    rwa [workerStep_idle hnot]
  unfold Run.Phase
  rw [hwatchdog, htimer']
  rcases run with ⟨main, watchdog, timer, worker, shared, pipe, output⟩
  cases h with
  | waitAny htimer hworker => exact .waitAny htimer hworker.workerStep
  | killWorker hworker => exact .killWorker hworker.workerStep
  | setTimedout hworker hops =>
      rcases hworker.workerStep hops with ⟨hkilled, hleft, -⟩
      exact .setTimedout hkilled hleft
  | waitWorker hworker hops hshared =>
      rcases hworker.workerStep hops with ⟨hkilled, hleft, hstatus⟩
      refine .waitWorker hkilled hleft ?_
      rcases hstatus with heq | hmem
      · rwa [heq]
      · exact .inr hmem
  | _ => exact hidle (by intro ops killed heq; cases heq)

theorem Run.Phase.watchdogStep (h : run.Phase cfg) : (watchdogStep cfg run).Phase cfg := by
  rcases run with ⟨main, watchdog, timer, worker, shared, pipe, output⟩
  cases h with
  | notForked => exact .notForked
  | forkTimer => exact .forkWorker (.running _)
  | forkWorker htimer => exact .waitAny htimer (.running rfl fun _ => id)
  | waitAny htimer hworker =>
      cases htimer with
      | running n =>
          cases hworker with
          | running hfinal hops => exact .waitAny (.running n) (.running hfinal hops)
          | zombie hstatus => exact .killTimer (.running n) hstatus
      | zombie =>
          cases hworker with
          | running hfinal hops => exact .killWorker (.running hfinal hops)
          | zombie hstatus =>
              unfold Run.Phase WatchdogSandbox.watchdogStep
              cases cfg.timerFirst with
              | true => exact .killWorker (.zombie hstatus)
              | false => exact .killTimer .zombie hstatus
  | killWorker hworker => exact .setTimedout hworker.kill.1 hworker.kill.2
  | setTimedout hworker hops => exact .waitWorker hworker hops (.inl rfl)
  | killTimer htimer hstatus => exact .judge htimer.kill hstatus
  | judge htimer hstatus => exact .waitTimer htimer (by rw [Config.ownStatus?, hstatus]; rfl)
  | waitWorker hworker hops hshared =>
      cases hworker with
      | running todo => exact .waitWorker (.running todo) hops hshared
      | zombie status => exact .zombie (.inr ⟨rfl, hshared⟩)
  | waitTimer htimer hown =>
      cases htimer with
      | running n => exact .waitTimer (.running n) hown
      | zombie status => exact .zombie (.inl hown)
  | zombie h => exact .zombie h
  | reaped h => exact .reaped h

theorem Run.Phase.childStep (h : run.Phase cfg) (process : Process) :
    (childStep cfg process run).Phase cfg := by
  cases process with
  | watchdog => exact h.watchdogStep
  | timer => exact h.timerStep
  | worker => exact h.workerStep
  | kernel => exact h.kernelStep

/-! ### A turn changes nothing, or it brings the call nearer to its end -/

def Watchdog.rank : Watchdog → Nat
  | .notForked | .forkTimer => 7
  | .forkWorker => 6
  | .waitAny => 5
  | .killWorker | .killTimer _ => 4
  | .setTimedout | .judge _ => 3
  | .waitLast => 2
  | .zombie | .reaped => 0

def Main.rank : Main → Nat
  | .forkWatchdog => 6
  | .waitWatchdog => 5
  | .waitAny => 4
  | .capturing _ streams => streams.length + 1
  | .returned _ => 0

def Forked.rank {Todo : Type} (ahead : Todo → Nat) (before : Todo) : Forked Todo → Nat
  | .notForked => ahead before
  | .running todo _ => ahead todo
  | .zombie _ | .reaped _ => 0

/-- A byte that is written may have to be read, too. -/
def Run.rank (cfg : Config) (run : Run) : Nat :=
  run.main.rank + run.watchdog.rank + run.timer.rank (· + 1) cfg.timeout +
    run.worker.rank (2 * ·.length + 1) cfg.test.ops +
    ((run.pipe .stdout).length + (run.pipe .stderr).length)

theorem length_pipe_append (pipe : Stream → List UInt8) (stream : Stream) (byte : UInt8) :
    (Function.update pipe stream (pipe stream ++ [byte]) .stdout).length +
      (Function.update pipe stream (pipe stream ++ [byte]) .stderr).length =
      (pipe .stdout).length + (pipe .stderr).length + 1 := by
  cases stream <;> simp <;> omega

theorem workerStep_rank (cfg : Config) (run : Run) :
    WatchdogSandbox.workerStep cfg run = run ∨
      (WatchdogSandbox.workerStep cfg run).rank cfg < run.rank cfg := by
  rcases workerStep_cases cfg run with h | ⟨op, rest, killed, pipe, shared, hworker, h, -, -, hpipe⟩ |
    ⟨killed, status, hworker, -, h⟩
  · exact .inl h
  · right
    rw [h]
    simp only [Run.rank, hworker, Forked.rank, List.length_cons]
    rcases hpipe with rfl | ⟨stream, byte, rfl⟩
    · omega
    · rw [length_pipe_append]
      omega
  · right
    rw [h]
    simp only [Run.rank, hworker, Forked.rank]
    omega

theorem Forked.deliver_rank {Todo : Type} (child : Forked Todo) (ahead : Todo → Nat) (before : Todo)
    (hpos : ∀ todo, 0 < ahead todo) :
    child.deliver = child ∨ child.deliver.rank ahead before < child.rank ahead before := by
  cases child with
  | running todo killed =>
      cases killed with
      | true => exact .inr (hpos todo)
      | false => exact .inl rfl
  | _ => exact .inl rfl

theorem kernelStep_rank (cfg : Config) (run : Run) :
    WatchdogSandbox.kernelStep run = run ∨
      (WatchdogSandbox.kernelStep run).rank cfg < run.rank cfg := by
  have htimer := run.timer.deliver_rank (· + 1) cfg.timeout fun n => Nat.succ_pos n
  have hworker := run.worker.deliver_rank (2 * ·.length + 1) cfg.test.ops fun ops => Nat.succ_pos _
  unfold WatchdogSandbox.kernelStep Run.rank
  rcases htimer with htimer | htimer
  · rcases hworker with hworker | hworker
    · left
      rw [htimer, hworker]
    · right
      simp only [htimer]
      omega
  · right
    rcases hworker with hworker | hworker
    · simp only [hworker]
      omega
    · simp only
      omega

theorem timerStep_rank (cfg : Config) (run : Run) :
    WatchdogSandbox.timerStep run = run ∨
      (WatchdogSandbox.timerStep run).rank cfg < run.rank cfg := by
  rcases run with ⟨main, watchdog, timer, worker, shared, pipe, output⟩
  cases timer with
  | running n killed =>
      right
      cases n <;> simp [WatchdogSandbox.timerStep, Forked.sleep, Run.rank, Forked.rank]
  | _ => exact .inl rfl

theorem Run.Phase.watchdogStep_rank (h : run.Phase cfg) :
    WatchdogSandbox.watchdogStep cfg run = run ∨
      (WatchdogSandbox.watchdogStep cfg run).rank cfg < run.rank cfg := by
  rcases run with ⟨main, watchdog, timer, worker, shared, pipe, output⟩
  have hkill : ∀ {Todo : Type} (child : Forked Todo) (ahead : Todo → Nat) (before : Todo),
      child.kill.rank ahead before = child.rank ahead before := by
    intro Todo child ahead before
    cases child <;> rfl
  cases h with
  | notForked => exact .inl rfl
  | zombie h => exact .inl rfl
  | reaped h => exact .inl rfl
  | waitAny htimer hworker =>
      cases htimer with
      | running n =>
          cases hworker with
          | running hfinal hops => exact .inl rfl
          | zombie hstatus =>
              right
              simp [WatchdogSandbox.watchdogStep, Run.rank, Forked.rank, Watchdog.rank]
      | zombie =>
          right
          cases hworker with
          | running hfinal hops =>
              simp [WatchdogSandbox.watchdogStep, Run.rank, Forked.rank, Watchdog.rank]
          | zombie hstatus =>
              unfold WatchdogSandbox.watchdogStep
              cases cfg.timerFirst <;> simp [Run.rank, Forked.rank, Watchdog.rank]
  | waitWorker hworker hops hshared =>
      cases hworker with
      | running todo => exact .inl rfl
      | zombie status =>
          right
          simp [WatchdogSandbox.watchdogStep, Run.rank, Forked.rank, Watchdog.rank]
  | waitTimer htimer hown =>
      cases htimer with
      | running n => exact .inl rfl
      | zombie status =>
          right
          simp [WatchdogSandbox.watchdogStep, Run.rank, Forked.rank, Watchdog.rank]
  | killWorker hworker =>
      right
      simp only [WatchdogSandbox.watchdogStep, Run.rank, Watchdog.rank, hkill]
      omega
  | killTimer htimer hstatus =>
      right
      simp only [WatchdogSandbox.watchdogStep, Run.rank, Watchdog.rank, hkill]
      omega
  | _ =>
      right
      simp [WatchdogSandbox.watchdogStep, Run.rank, Forked.rank, Watchdog.rank]

theorem Run.Phase.childStep_rank (h : run.Phase cfg) (process : Process) :
    WatchdogSandbox.childStep cfg process run = run ∨
      (WatchdogSandbox.childStep cfg process run).rank cfg < run.rank cfg := by
  cases process with
  | watchdog => exact h.watchdogStep_rank
  | timer => exact timerStep_rank cfg run
  | worker => exact workerStep_rank cfg run
  | kernel => exact kernelStep_rank cfg run

/-- Until the watchdog ends, one of the children has something to do, whatever the test does. -/
theorem Run.Phase.progress (h : run.Phase cfg) (hforked : run.watchdog ≠ .notForked)
    (hzombie : run.watchdog ≠ .zombie) (hreaped : run.watchdog ≠ .reaped) :
    ∃ process, WatchdogSandbox.childStep cfg process run ≠ run := by
  rcases run with ⟨main, watchdog, timer, worker, shared, pipe, output⟩
  have hmoves : ∀ {run : Run}, (WatchdogSandbox.watchdogStep cfg run).watchdog ≠ run.watchdog →
      ∃ process, WatchdogSandbox.childStep cfg process run ≠ run :=
    fun hne => ⟨.watchdog, fun heq => hne (congrArg Run.watchdog heq)⟩
  cases h with
  | notForked => exact absurd rfl hforked
  | zombie h => exact absurd rfl hzombie
  | reaped h => exact absurd rfl hreaped
  | forkTimer => exact hmoves (by simp [WatchdogSandbox.watchdogStep])
  | forkWorker htimer => exact hmoves (by simp [WatchdogSandbox.watchdogStep])
  | waitAny htimer hworker =>
      cases htimer with
      | running n =>
          refine ⟨.timer, fun heq => ?_⟩
          have htimer := congrArg Run.timer heq
          cases n with
          | zero => cases htimer
          | succ n =>
              simp only [WatchdogSandbox.childStep, WatchdogSandbox.timerStep, Forked.sleep,
                Forked.running.injEq] at htimer
              omega
      | zombie =>
          cases hworker with
          | running hfinal hops => exact hmoves (by simp [WatchdogSandbox.watchdogStep])
          | zombie hstatus =>
              refine hmoves ?_
              unfold WatchdogSandbox.watchdogStep
              cases cfg.timerFirst <;> simp
  | killWorker hworker => exact hmoves (by simp [WatchdogSandbox.watchdogStep])
  | setTimedout hworker hops => exact hmoves (by simp [WatchdogSandbox.watchdogStep])
  | killTimer htimer hstatus => exact hmoves (by simp [WatchdogSandbox.watchdogStep])
  | judge htimer hstatus => exact hmoves (by simp [WatchdogSandbox.watchdogStep])
  | waitWorker hworker hops hshared =>
      cases hworker with
      | running todo =>
          refine ⟨.kernel, fun heq => ?_⟩
          cases congrArg Run.worker heq
      | zombie status => exact hmoves (by simp [WatchdogSandbox.watchdogStep])
  | waitTimer htimer hown =>
      cases htimer with
      | running n =>
          refine ⟨.kernel, fun heq => ?_⟩
          cases congrArg Run.timer heq
      | zombie status => exact hmoves (by simp [WatchdogSandbox.watchdogStep])

theorem Run.Phase.childStep_of_idle (h : run.Phase cfg)
    (hidle : run.watchdog = .notForked ∨ run.watchdog = .reaped) (process : Process) :
    WatchdogSandbox.childStep cfg process run = run := by
  rcases run with ⟨main, watchdog, timer, worker, shared, pipe, output⟩
  cases h with
  | notForked => cases process <;> rfl
  | reaped h => cases process <;> rfl
  | _ => rcases hidle with heq | heq <;> cases heq

/-- A child changes neither the caller nor whether the watchdog can be waited for. -/
theorem childStep_frame (cfg : Config) (process : Process) (run : Run) :
    (WatchdogSandbox.childStep cfg process run).main = run.main ∧
      ((WatchdogSandbox.childStep cfg process run).watchdog = .notForked ↔
        run.watchdog = .notForked) ∧
      ((WatchdogSandbox.childStep cfg process run).watchdog = .reaped ↔ run.watchdog = .reaped) := by
  cases process with
  | watchdog =>
      rcases run with ⟨main, watchdog, timer, worker, shared, pipe, output⟩
      simp only [WatchdogSandbox.childStep, WatchdogSandbox.watchdogStep]
      cases watchdog with
      | waitAny =>
          cases timer <;> cases worker <;> cases cfg.timerFirst <;> simp
      | waitLast => cases timer <;> cases worker <;> simp
      | _ => simp
  | timer => exact ⟨rfl, Iff.rfl, Iff.rfl⟩
  | worker =>
      rcases workerStep_frame cfg run with ⟨hmain, hwatchdog, -⟩
      simp only [WatchdogSandbox.childStep, hmain, hwatchdog, true_and]
  | kernel => exact ⟨rfl, Iff.rfl, Iff.rfl⟩

end Phases

/-! ### What every turn keeps -/

section Invariant

variable {cfg : Config} {run : Run}

/-- What the caller knows of its watchdog; another thread may have waited for it already. -/
def Run.MainAgrees (run : Run) : Prop :=
  match run.main with
  | .forkWatchdog => run.watchdog = .notForked
  | .waitWatchdog => run.watchdog ≠ .notForked
  | .waitAny => run.watchdog = .reaped
  | .capturing status streams =>
      run.watchdog = .reaped ∧ status = run.sharedStatus ∧ streams.length ≤ 2
  | .returned status => run.watchdog = .reaped ∧ status = run.sharedStatus

/-- The timer has ended only after more turns than the timeout has milliseconds; a running one has
    slept for one of them in each turn. -/
structure Slept (cfg : Config) (turns : Nat) (timer : Forked Nat) : Prop where
  ended : timer = .zombie (.exited 0) ∨ timer = .reaped (.exited 0) → cfg.timeout < turns
  running : ∀ n killed, timer = .running n killed → cfg.timeout ≤ n + turns

theorem Slept.of_le {turns n : Nat} (h : cfg.timeout ≤ n + turns) (killed : Bool) :
    Slept cfg turns (.running n killed) where
  ended := by simp
  running := by
    rintro n' killed' ⟨⟩
    exact h

theorem Slept.other {turns : Nat} {timer : Forked Nat} (hzombie : timer ≠ .zombie (.exited 0))
    (hreaped : timer ≠ .reaped (.exited 0)) (hrunning : ∀ n killed, timer ≠ .running n killed) :
    Slept cfg turns timer where
  ended := fun h => absurd h (not_or.mpr ⟨hzombie, hreaped⟩)
  running := fun n killed h => absurd h (hrunning n killed)

structure Run.Inv (cfg : Config) (turns : Nat) (run : Run) : Prop where
  phase : run.Phase cfg
  main : run.MainAgrees
  slept : Slept cfg turns run.timer

theorem Run.Inv.initial (cfg : Config) : Run.Inv cfg 0 .initial where
  phase := .notForked
  main := rfl
  slept := .other (by simp [Run.initial]) (by simp [Run.initial]) (by simp [Run.initial])

theorem Slept.mono {turns turns' : Nat} {timer : Forked Nat} (h : Slept cfg turns timer)
    (hle : turns ≤ turns') : Slept cfg turns' timer where
  ended := fun hended => Nat.lt_of_lt_of_le (h.ended hended) hle
  running := fun n killed heq => Nat.le_trans (h.running n killed heq) (by omega)

theorem Slept.sleep {turns : Nat} {timer : Forked Nat} (h : Slept cfg turns timer) :
    Slept cfg (turns + 1) timer.sleep := by
  cases timer with
  | running n killed =>
      have hleft := h.running n killed rfl
      cases n with
      | zero =>
          refine ⟨fun _ => by omega, ?_⟩
          intro n killed heq
          cases heq
      | succ n => exact .of_le (by omega) killed
  | _ => exact h.mono (Nat.le_succ _)

theorem Slept.kill {turns : Nat} {timer : Forked Nat} (h : Slept cfg turns timer) :
    Slept cfg turns timer.kill := by
  cases timer with
  | running n killed => exact .of_le (h.running n killed rfl) true
  | _ => exact h

theorem Slept.deliver {turns : Nat} {timer : Forked Nat} (h : Slept cfg turns timer) :
    Slept cfg turns timer.deliver := by
  cases timer with
  | running n killed =>
      cases killed with
      | true => exact .other (by simp [Forked.deliver]) (by simp [Forked.deliver]) (by simp [Forked.deliver])
      | false => exact h
  | _ => exact h

theorem Slept.reap {turns : Nat} {status : WaitStatus} (h : Slept cfg turns (.zombie status)) :
    Slept cfg turns (.reaped status) where
  ended := by
    rintro (heq | heq)
    · cases heq
    · cases heq
      exact h.ended (.inl rfl)
  running := by
    intro n killed heq
    cases heq

theorem Slept.watchdogStep {turns : Nat} (h : Slept cfg turns run.timer) :
    Slept cfg turns (watchdogStep cfg run).timer := by
  rcases run with ⟨main, watchdog, timer, worker, shared, pipe, output⟩
  cases watchdog with
  | forkTimer => exact .of_le (Nat.le_add_right _ _) false
  | killTimer status => exact h.kill
  | waitAny =>
      unfold WatchdogSandbox.watchdogStep
      cases timer with
      | zombie status =>
          cases worker with
          | zombie status' =>
              cases cfg.timerFirst with
              | true => exact h.reap
              | false => exact h
          | _ => exact h.reap
      | _ => cases worker <;> exact h
  | waitLast =>
      unfold WatchdogSandbox.watchdogStep
      cases timer with
      | zombie status => exact h.reap
      | _ => cases worker <;> exact h
  | _ => exact h

/-- Turns of the timer of this call. -/
def timerTurn (process : Process) : Nat := if process = .timer then 1 else 0

theorem Run.Inv.childStep {turns : Nat} (h : run.Inv cfg turns) (process : Process) :
    (childStep cfg process run).Inv cfg (turns + timerTurn process) where
  phase := h.phase.childStep process
  main := by
    rcases childStep_frame cfg process run with ⟨hmain, hforked, hreaped⟩
    have hagrees := h.main
    unfold Run.MainAgrees at hagrees ⊢
    rw [hmain]
    cases hcase : run.main with
    | forkWatchdog =>
        rw [hcase] at hagrees
        exact hforked.mpr hagrees
    | waitWatchdog =>
        rw [hcase] at hagrees
        exact fun heq => hagrees (hforked.mp heq)
    | waitAny =>
        rw [hcase] at hagrees
        exact hreaped.mpr hagrees
    | capturing status streams =>
        rw [hcase] at hagrees
        rwa [h.phase.childStep_of_idle (.inr hagrees.1)]
    | returned status =>
        rw [hcase] at hagrees
        rwa [h.phase.childStep_of_idle (.inr hagrees.1)]
  slept := by
    cases process with
    | watchdog => exact h.slept.watchdogStep
    | timer => exact h.slept.sleep
    | worker =>
        have hsame : (WatchdogSandbox.childStep cfg .worker run).timer = run.timer :=
          (workerStep_frame cfg run).2.2
        rw [hsame]
        exact h.slept
    | kernel => exact h.slept.deliver

/-- A thread that has nothing to do with the call may wait for its watchdog. -/
theorem Run.Inv.reap {turns : Nat} (h : run.Inv cfg turns) (hzombie : run.watchdog = .zombie) :
    ({ run with watchdog := .reaped } : Run).Inv cfg turns ∧ run.main = .waitWatchdog := by
  rcases run with ⟨main, watchdog, timer, worker, shared, pipe, output⟩
  subst hzombie
  have hmain : main = .waitWatchdog := by
    have hagrees := h.main
    cases main with
    | waitWatchdog => rfl
    | forkWatchdog => cases hagrees
    | waitAny => cases hagrees
    | capturing status streams => cases hagrees.1
    | returned status => cases hagrees.1
  subst hmain
  refine ⟨⟨?_, by simp [Run.MainAgrees], h.slept⟩, rfl⟩
  cases h.phase with
  | zombie hsettled => exact .reaped hsettled

end Invariant

section Schedules

variable {cfg : Nat → Config} {n : Nat} {runs : Nat → Run}

/-- The turns of the timer of call `j`. -/
def timerTurns (j : Nat) (turn : Turn) : Nat := if turn = .child j .timer then 1 else 0

theorem inv_mainStep {turns : Nat → Nat} (h : ∀ i, (runs i).Inv (cfg i) (turns i)) (j found i : Nat) :
    (mainStep cfg n j found runs i).Inv (cfg i) (turns i) := by
  have hupdate : ∀ run : Run, run.Inv (cfg j) (turns j) →
      (Function.update runs j run i).Inv (cfg i) (turns i) := by
    intro run hrun
    by_cases hi : i = j
    · subst hi
      rwa [Function.update_self]
    · rw [Function.update_of_ne hi]
      exact h i
  have hj := h j
  have hagrees := hj.main
  unfold mainStep
  cases hmain : (runs j).main with
  | forkWatchdog =>
      simp only [Run.MainAgrees, hmain] at hagrees
      apply hupdate
      refine ⟨?_, by simp [Run.MainAgrees], hj.slept⟩
      have hphase := hj.phase
      unfold Run.Phase at hphase ⊢
      rw [hagrees] at hphase
      generalize (runs j).timer = timer, (runs j).worker = worker, (runs j).sharedStatus = shared
        at hphase
      cases hphase
      exact .forkTimer
  | waitWatchdog =>
      simp only
      split
      · rename_i hzombie
        apply hupdate
        exact ⟨(hj.reap hzombie).1.phase, rfl, hj.slept⟩
      · exact h i
  | waitAny =>
      simp only [Run.MainAgrees, hmain] at hagrees
      have hafter : ({ runs j with main := .capturing (runs j).sharedStatus [.stdout, .stderr] } :
          Run).Inv (cfg j) (turns j) := ⟨hj.phase, ⟨hagrees, rfl, Nat.le_refl 2⟩, hj.slept⟩
      simp only
      split
      · split
        · rename_i hfound
          have hne : found ≠ j := by
            rintro rfl
            rw [hagrees] at hfound
            cases hfound.2
          by_cases hi : i = found
          · subst hi
            rw [Function.update_self, Function.update_of_ne hne]
            exact ((h i).reap hfound.2).1
          · rw [Function.update_of_ne hi]
            exact hupdate _ hafter
        · exact h i
      · exact hupdate _ hafter
  | capturing status streams =>
      simp only [Run.MainAgrees, hmain] at hagrees
      cases streams with
      | nil =>
          apply hupdate
          exact ⟨hj.phase, ⟨hagrees.1, hagrees.2.1⟩, hj.slept⟩
      | cons stream rest =>
          simp only
          split
          · apply hupdate
            exact ⟨hj.phase, by simpa [Run.MainAgrees, hmain] using hagrees, hj.slept⟩
          · apply hupdate
            have hlength := hagrees.2.2
            rw [List.length_cons] at hlength
            exact ⟨hj.phase, ⟨hagrees.1, hagrees.2.1, Nat.le_of_succ_le hlength⟩, hj.slept⟩
  | returned status => exact h i

theorem inv_step {turns : Nat → Nat} (h : ∀ i, (runs i).Inv (cfg i) (turns i)) (turn : Turn)
    (i : Nat) : (step cfg n turn runs i).Inv (cfg i) (turns i + timerTurns i turn) := by
  cases turn with
  | main j found =>
      simp only [step, timerTurns, reduceCtorEq, if_false, Nat.add_zero]
      split
      · exact inv_mainStep h j found i
      · exact h i
  | child j process =>
      simp only [step]
      by_cases hi : i = j
      · subst hi
        rw [Function.update_self]
        simpa [timerTurns, timerTurn] using (h i).childStep process
      · rw [Function.update_of_ne hi]
        simpa [timerTurns, Ne.symm hi] using h i

/-- Every schedule. -/
theorem inv_run {turns : Nat → Nat} (h : ∀ i, (runs i).Inv (cfg i) (turns i)) (schedule : List Turn)
    (i : Nat) : (FairRounds.run (step cfg n) runs schedule i).Inv (cfg i)
      (turns i + schedule.count (.child i .timer)) := by
  induction schedule generalizing runs turns with
  | nil => exact h i
  | cons turn schedule ih =>
      have hrest := ih (inv_step (n := n) h turn)
      rw [run_cons, List.count_cons]
      have hcount : turns i + (schedule.count (.child i .timer) +
          if (turn == .child i .timer) = true then 1 else 0) =
          turns i + timerTurns i turn + schedule.count (.child i .timer) := by
        unfold timerTurns
        simp only [beq_iff_eq]
        omega
      rw [hcount]
      exact hrest

theorem inv_start (cfg : Nat → Config) (n : Nat) (schedule : List Turn) (i : Nat) :
    (FairRounds.run (step cfg n) start schedule i).Inv (cfg i)
      (schedule.count (.child i .timer)) := by
  have h := inv_run (fun i => Run.Inv.initial (cfg i)) schedule i (n := n)
  rwa [Nat.zero_add] at h

end Schedules

/-! ### The status that is returned -/

/-- The status that the test function returns, if it returns one. -/
def Test.returned? : Test → Option ExecutionStatus
  | .ends ⟨_, .returned status _ _⟩ => some status
  | _ => none

theorem Test.returned?_of_mem {test : Test} {status : ExecutionStatus}
    (h : .setStatus status ∈ test.ops) : test.returned? = some status := by
  have hact : ∀ actions : List Action, ChildOp.setStatus status ∉ actions.map .act := by
    intro actions hmem
    rcases List.mem_map.mp hmem with ⟨action, -, heq⟩
    cases heq
  cases test with
  | loops actions => exact absurd h (hact actions)
  | ends test =>
      rcases test with ⟨actions, ending⟩
      unfold Test.ops TestFunction.childOps at h
      have hending := (List.mem_append.mp h).resolve_left (hact actions)
      cases ending with
      | returned status' stderrBuffer stdoutBuffer =>
          rcases List.mem_cons.mp hending with heq | hflush
          · cases heq
            rfl
          · -- flushing only writes
            simp [ProcessSandbox.flush] at hflush
      | exited code => cases hending
      | signaled => cases hending

/-- A function that returns a valid status is reported with it. -/
theorem ownStatus?_of_returned {cfg : Config} {status : ExecutionStatus}
    (h : cfg.test.returned? = some status) (hvalid : status ≠ .invalid) :
    cfg.ownStatus? = some status := by
  cases htest : cfg.test with
  | loops actions =>
      rw [htest] at h
      cases h
  | ends test =>
      rcases test with ⟨actions, ending⟩
      rw [htest] at h
      cases ending with
      | returned status' stderrBuffer stdoutBuffer =>
          cases h
          have hflush := ProcessSandbox.finalStatus_flush status .stdout stdoutBuffer []
          rw [List.append_nil] at hflush
          have hfinal : cfg.finalStatus = status := by
            simp only [Config.finalStatus, htest, Test.ops, TestFunction.childOps]
            rw [ProcessSandbox.finalStatus_append_act]
            simp only [finalStatus]
            rw [ProcessSandbox.finalStatus_flush, hflush]
            rfl
          simp [Config.ownStatus?, htest, Test.ending?, TestFunction.waitStatus, hfinal, workerStatus,
            mullExitCode, ProcessSandbox.mullExitCode, hvalid]
      | exited code => cases h
      | signaled => cases h

/-- Both sandboxes judge a test that ends by itself alike, unless it exits with the code that the
    alarm of the other sandbox has. -/
theorem ownStatus?_eq_iff {cfg : Config} {test : TestFunction} (h : cfg.test = .ends test) :
    cfg.ownStatus? = some test.ownStatus ↔
      test.waitStatus ≠ .exited ProcessSandbox.mullTimeoutCode := by
  have hown : cfg.ownStatus? = some (workerStatus test.waitStatus cfg.finalStatus) := by
    rw [Config.ownStatus?, h]
    rfl
  have hfinal : cfg.finalStatus = finalStatus .invalid test.childOps := by
    rw [Config.finalStatus, h]
    rfl
  rw [hown, hfinal, TestFunction.ownStatus, Option.some.injEq]
  cases test.waitStatus with
  | signaled => simp [workerStatus, ProcessSandbox.executionStatus]
  | exited code =>
      by_cases hcode : code = ProcessSandbox.mullTimeoutCode
      · subst hcode
        simp [workerStatus, ProcessSandbox.executionStatus, ProcessSandbox.mullTimeoutCode,
          ProcessSandbox.mullExitCode]
      · simp [workerStatus, ProcessSandbox.executionStatus, hcode]

/-- All processes of the call have been waited for. -/
def Run.Reaped (run : Run) : Prop :=
  run.watchdog = .reaped ∧ (∃ status, run.timer = .reaped status) ∧
    ∃ status, run.worker = .reaped status

/-- **When a call returns, none of its processes is left.  Its status is that of the test; only if
    the timer has slept for the whole timeout, it may be a timeout instead, or an invalid status if
    the test function returns that one.** -/
theorem returned_status (cfg : Nat → Config) (n : Nat) {schedule : List Turn} {j : Nat}
    {status : ExecutionStatus}
    (h : (FairRounds.run (step cfg n) start schedule j).main = .returned status) :
    (FairRounds.run (step cfg n) start schedule j).Reaped ∧
      ((cfg j).ownStatus? = some status ∨
        (cfg j).timeout < schedule.count (.child j .timer) ∧
          (status = .timedout ∨ status = .invalid ∧ (cfg j).test.returned? = some .invalid)) := by
  have hinv := inv_start cfg n schedule j
  generalize FairRounds.run (step cfg n) start schedule j = run at h hinv
  have hagrees := hinv.main
  simp only [Run.MainAgrees, h] at hagrees
  rcases run with ⟨main, watchdog, timer, worker, shared, pipe, output⟩
  rcases hagrees with ⟨hreaped, rfl⟩
  have hphase := hinv.phase
  have hslept := hinv.slept.ended
  unfold Run.Phase at hphase
  simp only at hreaped hphase hslept
  subst hreaped
  cases hphase with
  | reaped hsettled =>
      refine ⟨⟨rfl, ⟨_, rfl⟩, ⟨_, rfl⟩⟩, ?_⟩
      rcases hsettled with hown | ⟨rfl, hstatus⟩
      · exact .inl hown
      · have hcount := hslept (.inr rfl)
        rcases hstatus with htimedout | hmem
        · exact .inr ⟨hcount, .inl htimedout⟩
        · have hreturned := Test.returned?_of_mem hmem
          by_cases hvalid : status = .invalid
          · subst hvalid
            exact .inr ⟨hcount, .inr ⟨rfl, hreturned⟩⟩
          · exact .inl (ownStatus?_of_returned hreturned hvalid)

/-- A test that never ends. -/
def looping : Nat → Config := fun _ => ⟨.loops [.compute], 1, true, 65536, false⟩

/-- The timer ends first, and the worker is killed. -/
def loopingSchedule : List Turn :=
  [.main 0 0, .child 0 .watchdog, .child 0 .watchdog, .child 0 .worker, .child 0 .timer,
    .child 0 .worker, .child 0 .timer, .child 0 .watchdog, .child 0 .watchdog, .child 0 .kernel,
    .child 0 .watchdog, .child 0 .watchdog, .main 0 0, .main 0 0, .main 0 0, .main 0 0, .main 0 0]

theorem returned_status_looping :
    (FairRounds.run (step looping 1) start loopingSchedule 0).Reaped ∧
      ((looping 0).ownStatus? = some .timedout ∨
        1 < loopingSchedule.count (.child 0 .timer) ∧ (ExecutionStatus.timedout = .timedout ∨
          ExecutionStatus.timedout = .invalid ∧ (looping 0).test.returned? = some .invalid)) :=
  returned_status looping 1 rfl

/-! ### One call at a time -/

section Solo

variable {cfg : Nat → Config} {run : Run}

/-- A turn when there is one call. -/
def soloStep (cfg : Nat → Config) (turn : Turn) (run : Run) : Run :=
  step cfg 1 turn (fun _ => run) 0

theorem step_solo (turn : Turn) (runs : Nat → Run) :
    step cfg 1 turn runs 0 = soloStep cfg turn (runs 0) := by
  unfold soloStep
  cases turn with
  | child j process =>
      by_cases hj : 0 = j
      · subst hj
        simp [step]
      · simp [step, Function.update_of_ne hj]
  | main j found =>
      simp only [step]
      split
      · rename_i hj
        obtain rfl : j = 0 := by omega
        unfold mainStep
        cases hmain : (runs 0).main with
        | waitAny =>
            cases found with
            | zero =>
                simp only [Nat.lt_one_iff, exists_eq_left]
                split
                · simp only [true_and]
                  split <;> simp
                · simp
            | succ found =>
                simp only [Nat.lt_one_iff, exists_eq_left]
                split <;> simp
        | waitWatchdog =>
            simp only
            split <;> simp
        | capturing status streams =>
            cases streams with
            | nil => simp
            | cons stream rest =>
                simp only
                split <;> simp
        | _ => simp
      · rfl

/-- Nobody else waits for the watchdog. -/
def SoloInv (cfg : Nat → Config) (run : Run) : Prop :=
  (∃ turns, run.Inv (cfg 0) turns) ∧ (run.main = .waitWatchdog → run.watchdog ≠ .reaped)

/-- What the caller does in its turn. -/
theorem soloStep_main (h : SoloInv cfg run) :
    (run.main = .forkWatchdog ∧ run.watchdog = .notForked ∧
      soloStep cfg (.main 0 0) run = { run with main := .waitWatchdog, watchdog := .forkTimer }) ∨
    (run.main = .waitWatchdog ∧ run.watchdog = .zombie ∧
      soloStep cfg (.main 0 0) run = { run with main := .waitAny, watchdog := .reaped }) ∨
    (run.main = .waitWatchdog ∧ run.watchdog ≠ .zombie ∧ soloStep cfg (.main 0 0) run = run) ∨
    (run.main = .waitAny ∧ soloStep cfg (.main 0 0) run =
      { run with main := .capturing run.sharedStatus [.stdout, .stderr] }) ∨
    (∃ status streams, run.main = .capturing status streams ∧ ∃ run',
      soloStep cfg (.main 0 0) run = run' ∧ run'.rank (cfg 0) < run.rank (cfg 0) ∧
        run'.main ≠ .waitWatchdog) ∨
    (∃ status, run.main = .returned status ∧ soloStep cfg (.main 0 0) run = run) := by
  rcases h with ⟨⟨turns, hinv⟩, -⟩
  have hagrees := hinv.main
  unfold Run.MainAgrees at hagrees
  simp only [soloStep, step, mainStep, Nat.zero_lt_one, if_true]
  cases hmain : run.main with
  | forkWatchdog =>
      rw [hmain] at hagrees
      exact .inl ⟨rfl, hagrees, by simp⟩
  | waitWatchdog =>
      by_cases hzombie : run.watchdog = .zombie
      · exact .inr (.inl ⟨rfl, hzombie, by simp [hzombie]⟩)
      · exact .inr (.inr (.inl ⟨rfl, hzombie, by simp [hzombie]⟩))
  | waitAny =>
      rw [hmain] at hagrees
      exact .inr (.inr (.inr (.inl ⟨rfl, by simp [hagrees, Watchdog.isChild]⟩)))
  | capturing status streams =>
      refine .inr (.inr (.inr (.inr (.inl ⟨status, streams, rfl, _, rfl, ?_⟩))))
      cases streams with
      | nil => simp [Run.rank, hmain, Main.rank]
      | cons stream rest =>
          simp only
          split
          · rename_i hread
            have hpos : 0 < (run.pipe stream).length := List.length_pos_iff.mpr hread.2
            refine ⟨?_, by simp⟩
            -- seven bytes at most are taken out of one of the pipes
            simp only [Run.rank, hmain]
            cases stream <;> simp <;> omega
          · simp [Run.rank, hmain, Main.rank]
  | returned status => exact .inr (.inr (.inr (.inr (.inr ⟨status, rfl, by simp⟩))))

theorem mainStep_of_ne_waitAny {n j : Nat} {runs : Nat → Run} (h : (runs j).main ≠ .waitAny)
    (found found' : Nat) : mainStep cfg n j found runs = mainStep cfg n j found' runs := by
  simp only [mainStep]
  cases hmain : (runs j).main with
  | waitAny => exact absurd hmain h
  | capturing status streams => cases streams <;> rfl
  | _ => rfl

/-- The turns of a system with one call. -/
theorem soloStep_other (turn : Turn) (run : Run) :
    soloStep cfg turn run = run ∨ soloStep cfg turn run = soloStep cfg (.main 0 0) run ∨
      ∃ process, turn = .child 0 process ∧
        soloStep cfg turn run = childStep (cfg 0) process run := by
  cases turn with
  | child j process =>
      by_cases hj : 0 = j
      · subst hj
        exact .inr (.inr ⟨process, rfl, by simp [soloStep, step]⟩)
      · exact .inl (by simp [soloStep, step, Function.update_of_ne hj])
  | main j found =>
      by_cases hj : j = 0
      · subst hj
        by_cases hmain : run.main = .waitAny
        · by_cases hchild : run.watchdog.isChild = true
          · cases found with
            | zero => exact .inr (.inl rfl)
            | succ found => exact .inl (by simp [soloStep, step, mainStep, hmain, hchild])
          · exact .inr (.inl (by simp [soloStep, step, mainStep, hmain, hchild]))
        · refine .inr (.inl ?_)
          unfold soloStep step
          exact congrFun (@mainStep_of_ne_waitAny cfg 1 0 (fun _ => run) hmain found 0) 0
      · exact .inl (by simp [soloStep, step, hj])

theorem SoloInv.soloStep (h : SoloInv cfg run) (turn : Turn) :
    SoloInv cfg (soloStep cfg turn run) := by
  rcases h with ⟨⟨turns, hinv⟩, hnot⟩
  -- the other calls do not matter
  have hrest : ∃ turns, (WatchdogSandbox.soloStep cfg turn run).Inv (cfg 0) turns := by
    have hall : ∀ i : Nat, (if i = 0 then run else Run.initial).Inv (cfg i)
        (if i = 0 then turns else 0) := by
      intro i
      by_cases hi : i = 0
      · subst hi
        exact hinv
      · simpa [hi] using Run.Inv.initial (cfg i)
    have hstep := inv_step (n := 1) hall turn 0
    rw [step_solo] at hstep
    exact ⟨_, hstep⟩
  refine ⟨hrest, ?_⟩
  rcases @soloStep_other cfg turn run with heq | heq | ⟨process, -, heq⟩
  · rwa [heq]
  · rw [heq]
    rcases soloStep_main ⟨⟨turns, hinv⟩, hnot⟩ with ⟨-, -, hstep⟩ | ⟨-, -, hstep⟩ | ⟨hmain, -, hstep⟩ |
      ⟨-, hstep⟩ | ⟨status, streams, -, run', hstep, -, hne⟩ | ⟨status, -, hstep⟩
    · rw [hstep]
      intro _ hreaped
      cases hreaped
    · rw [hstep]
      intro hmain
      cases hmain
    · rwa [hstep]
    · rw [hstep]
      intro hmain
      cases hmain
    · rw [hstep]
      exact fun hmain => absurd hmain hne
    · rwa [hstep]
  · rcases childStep_frame (cfg 0) process run with ⟨hmain, -, hreaped⟩
    rw [heq, hmain]
    exact fun hwaits heq => hnot hwaits (hreaped.mp heq)

theorem SoloInv.rank (h : SoloInv cfg run) (turn : Turn) :
    WatchdogSandbox.soloStep cfg turn run = run ∨
      (WatchdogSandbox.soloStep cfg turn run).rank (cfg 0) < run.rank (cfg 0) := by
  rcases @soloStep_other cfg turn run with heq | heq | ⟨process, -, heq⟩
  · exact .inl heq
  · rw [heq]
    rcases soloStep_main h with ⟨hmain, hwatchdog, hstep⟩ | ⟨hmain, hwatchdog, hstep⟩ | ⟨-, -, hstep⟩ |
      ⟨hmain, hstep⟩ | ⟨status, streams, -, run', hstep, hlt, -⟩ | ⟨status, -, hstep⟩
    · right
      rw [hstep]
      simp [Run.rank, hmain, hwatchdog, Main.rank, Watchdog.rank]
    · right
      rw [hstep]
      simp [Run.rank, hmain, hwatchdog, Main.rank, Watchdog.rank]
    · exact .inl hstep
    · right
      rw [hstep]
      simp [Run.rank, hmain, Main.rank]
    · right
      rw [hstep]
      exact hlt
    · exact .inl hstep
  · rw [heq]
    rcases h with ⟨⟨turns, hinv⟩, -⟩
    exact hinv.phase.childStep_rank process

theorem SoloInv.moves (h : SoloInv cfg run) (hgoal : ¬ ∃ status, run.main = .returned status) :
    ∃ turn ∈ turns 1, WatchdogSandbox.soloStep cfg turn run ≠ run := by
  have hmem : Turn.main 0 0 ∈ turns 1 := by simp [turns]
  have hmoves : (WatchdogSandbox.soloStep cfg (.main 0 0) run).main ≠ run.main →
      ∃ turn ∈ turns 1, WatchdogSandbox.soloStep cfg turn run ≠ run :=
    fun hne => ⟨_, hmem, fun heq => hne (congrArg Run.main heq)⟩
  rcases soloStep_main h with ⟨hmain, -, hstep⟩ | ⟨hmain, -, hstep⟩ | ⟨hmain, hzombie, -⟩ |
    ⟨hmain, hstep⟩ | ⟨status, streams, -, run', hstep, hlt, -⟩ | ⟨status, hmain, -⟩
  · exact hmoves (by simp [hstep, hmain])
  · exact hmoves (by simp [hstep, hmain])
  · rcases h with ⟨⟨turns, hinv⟩, hreaped⟩
    have hforked := hinv.main
    simp only [Run.MainAgrees, hmain] at hforked
    rcases hinv.phase.progress hforked hzombie (hreaped hmain) with ⟨process, hprocess⟩
    refine ⟨.child 0 process, ?_, ?_⟩
    · cases process <;> simp [WatchdogSandbox.turns, processes]
    · simpa [WatchdogSandbox.soloStep, step] using hprocess
  · exact hmoves (by simp [hstep, hmain])
  · refine ⟨_, hmem, ?_⟩
    intro heq
    rw [heq] at hstep
    subst hstep
    exact Nat.lt_irrefl _ hlt
  · exact absurd ⟨status, hmain⟩ hgoal

theorem solo_ranking (cfg : Nat → Config) :
    Ranking (soloStep cfg) (turns 1) (SoloInv cfg) (fun run => ∃ status, run.main = .returned status)
      (Run.rank (cfg 0)) fun turn run => soloStep cfg turn run ≠ run := by
  refine Ranking.of_idle (fun turn run h => h.soloStep turn) ?_ (fun turn run h => h.rank turn)
    fun run h => h.moves
  rintro turn run h ⟨status, hmain⟩
  refine ⟨status, ?_⟩
  rcases @soloStep_other cfg turn run with heq | heq | ⟨process, -, heq⟩
  · rw [heq, hmain]
  · rw [heq]
    simp [soloStep, step, mainStep, hmain]
  · rw [heq, (childStep_frame (cfg 0) process run).1, hmain]

end Solo

/-! ### Two calls at a time -/

section Several

variable {cfg : Nat → Config} {n : Nat}

/-- The thread of call 1 waits for a watchdog that is not there any more. -/
def Stuck (runs : Nat → Run) : Prop :=
  (runs 1).main = .waitWatchdog ∧ (runs 1).watchdog = .reaped

theorem Stuck.step {runs : Nat → Run} (h : Stuck runs) (turn : Turn) : Stuck (step cfg n turn runs) := by
  rcases h with ⟨hmain, hwatchdog⟩
  have hupdate : ∀ {runs : Nat → Run} {j : Nat} {run : Run}, (runs 1).main = .waitWatchdog →
      (runs 1).watchdog = .reaped → j ≠ 1 → Stuck (Function.update runs j run) := by
    intro runs j run hmain hwatchdog hne
    unfold Stuck
    rw [Function.update_of_ne (Ne.symm hne)]
    exact ⟨hmain, hwatchdog⟩
  cases turn with
  | child j process =>
      simp only [WatchdogSandbox.step]
      by_cases hj : j = 1
      · subst hj
        rcases childStep_frame (cfg 1) process (runs 1) with ⟨hmain', -, hreaped⟩
        unfold Stuck
        rw [Function.update_self, hmain']
        exact ⟨hmain, hreaped.mpr hwatchdog⟩
      · exact hupdate hmain hwatchdog hj
  | main j found =>
      simp only [WatchdogSandbox.step]
      split
      · by_cases hj : j = 1
        · subst hj
          simp [mainStep, hmain, hwatchdog, Stuck]
        · simp only [mainStep]
          cases hcase : (runs j).main with
          | waitWatchdog =>
              simp only
              split
              · exact hupdate hmain hwatchdog hj
              · exact ⟨hmain, hwatchdog⟩
          | waitAny =>
              simp only
              split
              · split
                · rename_i hfound
                  have hne : found ≠ 1 := by
                    rintro rfl
                    rw [hwatchdog] at hfound
                    cases hfound.2
                  have hfirst : ∀ run, Stuck (Function.update runs j run) :=
                    fun run => hupdate hmain hwatchdog hj
                  exact hupdate (hfirst _).1 (hfirst _).2 hne
                · exact ⟨hmain, hwatchdog⟩
              · exact hupdate hmain hwatchdog hj
          | capturing status streams =>
              cases streams with
              | nil => exact hupdate hmain hwatchdog hj
              | cons stream rest =>
                  simp only
                  split <;> exact hupdate hmain hwatchdog hj
          | forkWatchdog => exact hupdate hmain hwatchdog hj
          | returned status => exact ⟨hmain, hwatchdog⟩
      · exact ⟨hmain, hwatchdog⟩

/-- Turns of the children of one call. -/
theorem run_children (j : Nat) (procs : List Process) (runs : Nat → Run) :
    FairRounds.run (step cfg n) runs (procs.map (Turn.child j)) =
      Function.update runs j (FairRounds.run (childStep (cfg j)) (runs j) procs) := by
  induction procs generalizing runs with
  | nil => simp
  | cons process procs ih =>
      rw [List.map_cons, run_cons, ih, run_cons]
      simp only [step, Function.update_self, Function.update_idem]

/-- The children of a call can always bring its watchdog to its end. -/
theorem exists_zombie {cfg : Config} {run : Run} (h : run.Phase cfg)
    (hforked : run.watchdog ≠ .notForked) (hreaped : run.watchdog ≠ .reaped) :
    ∃ procs, (FairRounds.run (childStep cfg) run procs).watchdog = .zombie ∧
      (FairRounds.run (childStep cfg) run procs).main = run.main := by
  -- by induction on what is left to do
  induction hrank : run.rank cfg using Nat.strongRecOn generalizing run with
  | ind k ih =>
      by_cases hzombie : run.watchdog = .zombie
      · exact ⟨[], hzombie, rfl⟩
      · rcases h.progress hforked hzombie hreaped with ⟨process, hmoves⟩
        have hlt := (h.childStep_rank process).resolve_left hmoves
        rcases childStep_frame cfg process run with ⟨hmain, hforked', hreaped'⟩
        rcases ih _ (hrank ▸ hlt) (h.childStep process) (mt hforked'.mp hforked)
          (mt hreaped'.mp hreaped) rfl with ⟨procs, hend, hsame⟩
        exact ⟨process :: procs, hend, hsame.trans hmain⟩

/-- Both watchdogs end, and the thread of call 0 waits twice. -/
theorem exists_stuck (cfg : Nat → Config) (hn : 2 ≤ n) :
    ∃ schedule, Stuck (FairRounds.run (step cfg n) start schedule) := by
  let forked : Run := { Run.initial with main := .waitWatchdog, watchdog := .forkTimer }
  have hphase : ∀ j, forked.Phase (cfg j) := fun j => .forkTimer
  rcases exists_zombie (hphase 0) (by simp [forked]) (by simp [forked]) with ⟨procs₀, hzombie₀, hmain₀⟩
  rcases exists_zombie (hphase 1) (by simp [forked]) (by simp [forked]) with ⟨procs₁, hzombie₁, hmain₁⟩
  refine ⟨[.main 0 0, .main 1 1] ++ procs₀.map (.child 0) ++ procs₁.map (.child 1) ++
    [.main 0 0, .main 0 1], ?_⟩
  have hfork : FairRounds.run (step cfg n) start [.main 0 0, .main 1 1] =
      Function.update (Function.update start 0 forked) 1 forked := by
    have hpos : 0 < n := by omega
    have hone : 1 < n := by omega
    simp only [run_cons, run_nil, step, hpos, hone, if_true]
    rfl
  have hfirst : (Function.update (Function.update start 0 forked) 1 forked) 0 = forked := by
    rw [Function.update_of_ne (by decide), Function.update_self]
  rw [run_append, run_append, run_append, hfork, run_children, run_children, hfirst,
    Function.update_of_ne (by decide : (1 : Nat) ≠ 0), Function.update_self]
  generalize FairRounds.run (childStep (cfg 0)) forked procs₀ = run₀ at hzombie₀ hmain₀
  generalize FairRounds.run (childStep (cfg 1)) forked procs₁ = run₁ at hzombie₁ hmain₁
  have hwaits₀ : run₀.main = .waitWatchdog := hmain₀
  have hwaits₁ : run₁.main = .waitWatchdog := hmain₁
  generalize hruns : Function.update (Function.update (Function.update (Function.update start 0 forked)
    1 forked) 0 run₀) 1 run₁ = runs
  have hzero : runs 0 = run₀ := by simp [← hruns]
  have hone : runs 1 = run₁ := by simp [← hruns]
  -- the first wait is for the own watchdog
  have hstep₁ : step cfg n (.main 0 0) runs =
      Function.update runs 0 { run₀ with main := .waitAny, watchdog := .reaped } := by
    simp [step, mainStep, hzero, hwaits₀, hzombie₀, show 0 < n by omega]
  -- the second one finds the other watchdog
  have hchild : ∃ i < n, (Function.update runs 0
      { run₀ with main := .waitAny, watchdog := .reaped } i).watchdog.isChild = true :=
    ⟨1, by omega, by simp [hone, hzombie₁, Watchdog.isChild]⟩
  rw [run_cons, run_cons, run_nil, hstep₁]
  simp only [step, mainStep, show 0 < n by omega, if_true, Function.update_self, hchild]
  have hfound : 1 < n ∧ (Function.update runs 0
      { run₀ with main := .waitAny, watchdog := .reaped } 1).watchdog = .zombie :=
    ⟨by omega, by simp [hone, hzombie₁]⟩
  rw [if_pos hfound]
  simp [Stuck, hone, hwaits₁]

/-- **All calls return under every fair schedule if and only if there is at most one of them.** -/
theorem all_return_iff (cfg : Nat → Config) (n : Nat) :
    (∃ k, ∀ rounds : List (List Turn), (∀ round ∈ rounds, IsRound (turns n) round) →
      k ≤ rounds.length → ∀ j < n, ∃ status,
        (FairRounds.run (step cfg n) start rounds.flatten j).main = .returned status) ↔ n ≤ 1 := by
  constructor
  · rintro ⟨k, h⟩
    by_contra hn
    rcases exists_stuck cfg (Nat.lt_of_not_le hn) with ⟨schedule, hstuck⟩
    have hrounds : ∀ round ∈ (schedule ++ turns n) :: List.replicate k (turns n),
        IsRound (turns n) round := by
      intro round hround turn hturn
      rcases List.mem_cons.mp hround with rfl | hround
      · exact List.mem_append_right _ hturn
      · rwa [List.eq_of_mem_replicate hround]
    rcases h _ hrounds (by simp) 1 (Nat.lt_of_not_le hn) with ⟨status, hreturned⟩
    have hlast : Stuck (FairRounds.run (step cfg n) start
        ((schedule ++ turns n) :: List.replicate k (turns n)).flatten) := by
      rw [List.flatten_cons, List.append_assoc, run_append]
      have hkeeps : ∀ turn runs, Stuck runs → Stuck (step cfg n turn runs) :=
        fun turn runs h => h.step turn
      exact run_invariant hkeeps hstuck _
    rw [hlast.1] at hreturned
    cases hreturned
  · intro hn
    refine ⟨Run.initial.rank (cfg 0), ?_⟩
    intro rounds hrounds hlength j hj
    obtain rfl : n = 1 := by omega
    obtain rfl : j = 0 := by omega
    have hsolo : SoloInv cfg .initial :=
      ⟨⟨0, Run.Inv.initial _⟩, by simp [Run.initial]⟩
    have hgoal := (solo_ranking cfg).goal_of_rounds hrounds hsolo hlength
    have hproject : FairRounds.run (step cfg 1) start rounds.flatten 0 =
        FairRounds.run (soloStep cfg) .initial rounds.flatten :=
      @run_project _ _ _ _ _ (fun runs : Nat → Run => runs 0) (fun turn runs => step_solo turn runs)
        start rounds.flatten
    rwa [hproject]

end Several

end Mull.WatchdogSandbox
