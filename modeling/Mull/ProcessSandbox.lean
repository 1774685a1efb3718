import Mull.Lib.FairRounds
import Mathlib.Data.List.Basic
import Mathlib.Logic.Function.Basic

/-!
# The fork sandbox

`ForkTimerSandbox::run` forks a child that runs the test function and waits for it.
With output capturing on, the child's standard streams are pipes which the parent
reads after `waitpid`; otherwise they are closed and writes to them have no effect.
A pipe holds a bounded number of bytes and a write to a full one blocks.  The alarm
ends a child that is still alive after the timeout.

The clock counts the time of the child: it advances with every unit of work the
test does and while the child is blocked.  A schedule is any sequence of turns of
the two processes.  The calls that set the sandbox up (`pipe`, `dup2`, `mmap`,
`fork`, `sigaction`, `setitimer`) succeed here, and the running time of the result
is left out.
-/

namespace Mull

/-- The outcome of running a test. -/
inductive ExecutionStatus where
  | invalid
  | failed
  | passed
  | timedout
  | crashed
  | abnormalExit
  | dryRun
  | failFast
deriving DecidableEq, Repr

namespace ProcessSandbox

open FairRounds

def mullExitCode : Nat := 0

def mullTimeoutCode : Nat := 239

/-! ### The test function -/

inductive Stream where
  | stdout
  | stderr
deriving DecidableEq, Repr

/-- A unit of work, or a byte written to a standard stream. -/
inductive Action where
  | compute
  | write (stream : Stream) (byte : UInt8)
deriving DecidableEq, Repr

/-- How the test function ends: it returns a status, with bytes left in the buffers
    of its two streams, it calls `exit`, or a signal kills it. -/
inductive Ending where
  | returned (status : ExecutionStatus) (stderrBuffer stdoutBuffer : List UInt8)
  | exited (code : Int)
  | signaled
deriving DecidableEq, Repr

structure TestFunction where
  actions : List Action
  ending : Ending
deriving DecidableEq, Repr

/-! ### The child process -/

/-- What `waitpid` reports. -/
inductive WaitStatus where
  | exited (code : Nat)
  | signaled
deriving DecidableEq, Repr

/-- The steps of the child: those of the test function, and the assignment to
    `*sharedStatus`. -/
inductive ChildOp where
  | act (action : Action)
  | setStatus (status : ExecutionStatus)
deriving DecidableEq, Repr

inductive Child where
  | running (ops : List ChildOp) (ending : WaitStatus)
  | terminated (status : WaitStatus)
deriving DecidableEq, Repr

def flush (stream : Stream) (buffer : List UInt8) : List ChildOp :=
  buffer.map fun byte => .act (.write stream byte)

/-- `*sharedStatus = function(); fflush(stderr); fflush(stdout); _exit(MullExitCode);` -/
def TestFunction.childOps (test : TestFunction) : List ChildOp :=
  test.actions.map .act ++
    match test.ending with
    | .returned status stderrBuffer stdoutBuffer =>
        .setStatus status :: (flush .stderr stderrBuffer ++ flush .stdout stdoutBuffer)
    | .exited _ => []
    | .signaled => []

/-- The exit status holds the low eight bits of the code. -/
def TestFunction.waitStatus (test : TestFunction) : WaitStatus :=
  match test.ending with
  | .returned _ _ _ => .exited mullExitCode
  | .exited code => .exited (code % 256).toNat
  | .signaled => .signaled

/-! ### Parent and child -/

/-- The parent waits for the child, reads the pipes that are left, and returns. -/
inductive Parent where
  | waiting
  | capturing (streams : List Stream)
  | returned (status : ExecutionStatus)
deriving DecidableEq, Repr

structure Config where
  shouldCaptureOutput : Bool
  capacity : Nat
  timeout : Nat
deriving DecidableEq, Repr

structure State where
  clock : Nat
  child : Child
  parent : Parent
  sharedStatus : ExecutionStatus
  pipe : Stream → List UInt8
  output : Stream → List UInt8

def start (test : TestFunction) : State where
  clock := 0
  child := .running test.childOps test.waitStatus
  parent := .waiting
  sharedStatus := .invalid
  pipe := fun _ => []
  output := fun _ => []

/-- A timer set to zero is disarmed. -/
def Config.Expired (cfg : Config) (clock : Nat) : Prop := 0 < cfg.timeout ∧ cfg.timeout ≤ clock

instance (cfg : Config) (clock : Nat) : Decidable (cfg.Expired clock) :=
  inferInstanceAs (Decidable (0 < cfg.timeout ∧ cfg.timeout ≤ clock))

/-- The next operation of a child whose alarm has not gone off. -/
def childOp (cfg : Config) (s : State) (op : ChildOp) (rest : List ChildOp)
    (ending : WaitStatus) : State :=
  match op with
  | .act .compute => { s with clock := s.clock + 1, child := .running rest ending }
  | .act (.write stream byte) =>
      if cfg.shouldCaptureOutput = false then { s with child := .running rest ending }
      else if (s.pipe stream).length < cfg.capacity then
        { s with
          child := .running rest ending
          pipe := Function.update s.pipe stream (s.pipe stream ++ [byte]) }
      else { s with clock := s.clock + 1 }
  | .setStatus status => { s with sharedStatus := status, child := .running rest ending }

def childStep (cfg : Config) (s : State) : State :=
  match s.child with
  | .terminated _ => s
  | .running ops ending =>
      if cfg.Expired s.clock then { s with child := .terminated (.exited mullTimeoutCode) }
      else
        match ops with
        | [] => { s with child := .terminated ending }
        | op :: rest => childOp cfg s op rest ending

/-- The status of the result, from what `waitpid` reports and `*sharedStatus`. -/
def executionStatus (status : WaitStatus) (sharedStatus : ExecutionStatus) : ExecutionStatus :=
  match status with
  | .signaled => .crashed
  | .exited code =>
      if code = mullTimeoutCode then .timedout
      else if code ≠ mullExitCode then .abnormalExit
      else if sharedStatus = .invalid then .passed
      else sharedStatus

/-- `output.append(buffer)` stops at the first zero byte of the buffer. -/
def appendBuffer (output buffer : List UInt8) : List UInt8 :=
  output ++ buffer.takeWhile (· ≠ 0)

def parentStep (cfg : Config) (s : State) : State :=
  match s.parent, s.child with
  | .waiting, .terminated _ => { s with parent := .capturing [.stdout, .stderr] }
  | .capturing (stream :: rest), .terminated _ =>
      if cfg.shouldCaptureOutput = true ∧ s.pipe stream ≠ [] then
        { s with
          pipe := Function.update s.pipe stream ((s.pipe stream).drop 7)
          output := Function.update s.output stream
            (appendBuffer (s.output stream) ((s.pipe stream).take 7)) }
      else { s with parent := .capturing rest }
  | .capturing [], .terminated status =>
      { s with parent := .returned (executionStatus status s.sharedStatus) }
  | _, _ => s

inductive Process where
  | parent
  | child
deriving DecidableEq, Repr

def processes : List Process := [.parent, .child]

def step (cfg : Config) (p : Process) (s : State) : State :=
  match p with
  | .parent => parentStep cfg s
  | .child => childStep cfg s

/-! ### What is ahead of a running child -/

/-- The bytes still to be written to a stream. -/
def writes (stream : Stream) : List ChildOp → Nat
  | [] => 0
  | .act (.write s _) :: ops => (if s = stream then 1 else 0) + writes stream ops
  | .act .compute :: ops => writes stream ops
  | .setStatus _ :: ops => writes stream ops

/-- The units of work still to be done. -/
def ticks : List ChildOp → Nat
  | [] => 0
  | .act .compute :: ops => ticks ops + 1
  | .act (.write _ _) :: ops => ticks ops
  | .setStatus _ :: ops => ticks ops

/-- The content of `*sharedStatus` after the operations. -/
def finalStatus (sharedStatus : ExecutionStatus) : List ChildOp → ExecutionStatus
  | [] => sharedStatus
  | .act _ :: ops => finalStatus sharedStatus ops
  | .setStatus status :: ops => finalStatus status ops

/-- Everything still to be written fits into the pipes. -/
def Room (cfg : Config) (pipe : Stream → List UInt8) (ops : List ChildOp) : Prop :=
  cfg.shouldCaptureOutput = true →
    ∀ stream, (pipe stream).length + writes stream ops ≤ cfg.capacity

/-- The status `st` is the one that will be returned.  A child for which there is
    room ends by itself in time; any other is ended by the alarm. -/
def WillReturn (cfg : Config) (st : ExecutionStatus) (s : State) : Prop :=
  (∀ stream, (s.pipe stream).length ≤ cfg.capacity) ∧
  match s.child with
  | .running ops ending =>
      s.parent = .waiting ∧
      (Room cfg s.pipe ops → s.clock + ticks ops < cfg.timeout ∧
        executionStatus ending (finalStatus s.sharedStatus ops) = st) ∧
      (¬ Room cfg s.pipe ops → st = .timedout)
  | .terminated status =>
      executionStatus status s.sharedStatus = st ∧
      (∀ st', s.parent = .returned st' → st' = st) ∧
      ∀ streams, s.parent = .capturing streams → streams.length ≤ 2

theorem room_write {cfg : Config} {pipe : Stream → List UInt8} {stream : Stream} {byte : UInt8}
    {rest : List ChildOp} :
    Room cfg (Function.update pipe stream (pipe stream ++ [byte])) rest ↔
      Room cfg pipe (.act (.write stream byte) :: rest) := by
  unfold Room
  refine forall_congr' fun _ => forall_congr' fun s => ?_
  by_cases hs : stream = s
  · subst hs
    rw [Function.update_self, List.length_append, writes, if_pos rfl, List.length_singleton]
    omega
  · rw [Function.update_of_ne (Ne.symm hs), writes, if_neg hs, Nat.zero_add]

theorem room_uncaptured {cfg : Config} (h : cfg.shouldCaptureOutput = false)
    (pipe : Stream → List UInt8) (ops : List ChildOp) : Room cfg pipe ops := by
  intro hcapture
  rw [h] at hcapture
  cases hcapture

theorem room_nil {cfg : Config} {pipe : Stream → List UInt8}
    (h : ∀ stream, (pipe stream).length ≤ cfg.capacity) : Room cfg pipe [] :=
  fun _ stream => h stream

theorem length_update_le {capacity : Nat} {pipe : Stream → List UInt8} {stream : Stream}
    {bytes : List UInt8} (h : ∀ s, (pipe s).length ≤ capacity) (hbytes : bytes.length ≤ capacity)
    (s : Stream) : (Function.update pipe stream bytes s).length ≤ capacity := by
  by_cases hs : s = stream
  · subst hs
    rwa [Function.update_self]
  · rw [Function.update_of_ne hs]
    exact h s

theorem WillReturn.childOp {cfg : Config} {st : ExecutionStatus} {s : State} {op : ChildOp}
    {rest : List ChildOp} {ending : WaitStatus} (h : WillReturn cfg st s)
    (hchild : s.child = .running (op :: rest) ending) :
    WillReturn cfg st (childOp cfg s op rest ending) := by
  obtain ⟨hroom, hrunning⟩ := h
  rw [hchild] at hrunning
  obtain ⟨hwaiting, hfits, hblocks⟩ := hrunning
  cases op with
  | setStatus status => exact ⟨hroom, hwaiting, hfits, hblocks⟩
  | act action =>
      cases action with
      | compute =>
          refine ⟨hroom, hwaiting, fun hrest => ?_, hblocks⟩
          obtain ⟨htime, hstatus⟩ := hfits hrest
          simp only [ticks] at htime
          exact ⟨show s.clock + 1 + ticks rest < cfg.timeout by omega, hstatus⟩
      | write stream byte =>
          simp only [ProcessSandbox.childOp]
          split
          · -- the stream is closed
            rename_i hclosed
            have hrest := room_uncaptured hclosed s.pipe (.act (.write stream byte) :: rest)
            exact ⟨hroom, hwaiting, fun _ => hfits hrest,
              fun hno => absurd (room_uncaptured hclosed s.pipe rest) hno⟩
          · split
            · rename_i hlength
              have hbytes : (s.pipe stream ++ [byte]).length ≤ cfg.capacity := by
                rw [List.length_append, List.length_singleton]
                exact hlength
              refine ⟨length_update_le hroom hbytes, hwaiting, fun hrest => ?_, fun hrest => ?_⟩
              · exact hfits (room_write.mp hrest)
              · exact hblocks fun hcons => hrest (room_write.mpr hcons)
            · -- the pipe is full: the child is blocked and stays so
              rename_i hcapture hfull
              have hno : ¬ Room cfg s.pipe (.act (.write stream byte) :: rest) := by
                intro hcons
                have hlength := hcons (by simpa using hcapture) stream
                rw [writes, if_pos rfl] at hlength
                omega
              unfold WillReturn
              simp only [hchild]
              exact ⟨hroom, hwaiting, fun hcons => absurd hcons hno, hblocks⟩

theorem WillReturn.childStep {cfg : Config} {st : ExecutionStatus} {s : State}
    (h : WillReturn cfg st s) : WillReturn cfg st (childStep cfg s) := by
  unfold ProcessSandbox.childStep
  cases hchild : s.child with
  | terminated status => exact h
  | running ops ending =>
      obtain ⟨hroom, hrunning⟩ := id h
      rw [hchild] at hrunning
      obtain ⟨hwaiting, hfits, hblocks⟩ := hrunning
      have hnot : (∀ st', s.parent = .returned st' → st' = st) ∧
          ∀ streams, s.parent = .capturing streams → streams.length ≤ 2 := by simp [hwaiting]
      simp only
      split
      · -- the alarm: there was no room
        rename_i hexpired
        have hno : ¬ Room cfg s.pipe ops := by
          intro hyes
          have htime := (hfits hyes).1
          have hlate := hexpired.2
          omega
        exact ⟨hroom, (hblocks hno).symm, hnot⟩
      · cases ops with
        | nil => exact ⟨hroom, (hfits (room_nil hroom)).2, hnot⟩
        | cons op rest => exact h.childOp hchild

theorem WillReturn.parentStep {cfg : Config} {st : ExecutionStatus} {s : State}
    (h : WillReturn cfg st s) : WillReturn cfg st (parentStep cfg s) := by
  cases hchild : s.child with
  | running ops ending =>
      have hwaiting : s.parent = .waiting := by
        have hrunning := h.2
        rw [hchild] at hrunning
        exact hrunning.1
      simpa only [ProcessSandbox.parentStep, hwaiting, hchild] using h
  | terminated status =>
      obtain ⟨hroom, hterminated⟩ := id h
      rw [hchild] at hterminated
      obtain ⟨hstatus, hreturned, hstreams⟩ := hterminated
      cases hparent : s.parent with
      | waiting =>
          simp only [ProcessSandbox.parentStep, hparent, hchild]
          exact ⟨hroom, hstatus, by simp, by simp⟩
      | returned st' => simpa only [ProcessSandbox.parentStep, hparent, hchild] using h
      | capturing streams =>
          cases streams with
          | nil =>
              simp only [ProcessSandbox.parentStep, hparent, hchild]
              exact ⟨hroom, hstatus, by simp [hstatus], by simp⟩
          | cons stream rest =>
              have htwo := hstreams _ hparent
              rw [List.length_cons] at htwo
              simp only [ProcessSandbox.parentStep, hparent, hchild]
              split
              · refine ⟨?_, hstatus, by simp, by simpa using htwo⟩
                -- reading only makes room
                apply length_update_le hroom
                have hlength := hroom stream
                rw [List.length_drop]
                omega
              · refine ⟨hroom, hstatus, by simp, ?_⟩
                simp only [Parent.capturing.injEq, forall_eq']
                omega

theorem WillReturn.step {cfg : Config} {st : ExecutionStatus} (p : Process) (s : State)
    (h : WillReturn cfg st s) : WillReturn cfg st (step cfg p s) := by
  cases p with
  | parent => exact h.parentStep
  | child => exact h.childStep

/-! ### Both processes end -/

def State.Terminated (s : State) : Prop := ∃ status, s.child = .terminated status

/-- The turns of the child that are left, at most. -/
def childRank (cfg : Config) (s : State) : Nat :=
  match s.child with
  | .running ops _ => ops.length + 1 + (cfg.timeout - s.clock)
  | .terminated _ => 0

theorem parentStep_child (cfg : Config) (s : State) :
    (parentStep cfg s).child = s.child ∧ (parentStep cfg s).clock = s.clock := by
  unfold parentStep
  split <;> try exact ⟨rfl, rfl⟩
  split <;> exact ⟨rfl, rfl⟩

theorem childOp_rank_lt {cfg : Config} {s : State} {op : ChildOp} {rest : List ChildOp}
    {ending : WaitStatus} (hchild : s.child = .running (op :: rest) ending)
    (hearly : s.clock < cfg.timeout) :
    childRank cfg (childOp cfg s op rest ending) < childRank cfg s := by
  have hrank : childRank cfg s = rest.length + 1 + 1 + (cfg.timeout - s.clock) := by
    simp only [childRank, hchild, List.length_cons]
  rw [hrank]
  cases op with
  | setStatus status =>
      simp only [childOp, childRank]
      omega
  | act action =>
      cases action with
      | compute =>
          simp only [childOp, childRank]
          omega
      | write stream byte =>
          by_cases hclosed : cfg.shouldCaptureOutput = false
          · simp only [childOp, if_pos hclosed, childRank]
            omega
          · by_cases hlength : (s.pipe stream).length < cfg.capacity
            · simp only [childOp, if_neg hclosed, if_pos hlength, childRank]
              omega
            · -- blocked: time passes
              simp only [childOp, if_neg hclosed, if_neg hlength, childRank, hchild,
                List.length_cons]
              omega

theorem childStep_rank_lt {cfg : Config} (htimeout : 0 < cfg.timeout) {s : State}
    (h : ¬ s.Terminated) : childRank cfg (childStep cfg s) < childRank cfg s := by
  cases hchild : s.child with
  | terminated status => exact absurd ⟨status, hchild⟩ h
  | running ops ending =>
      have hpos : 0 < childRank cfg s := by
        simp only [childRank, hchild]
        omega
      by_cases hexpired : cfg.Expired s.clock
      · simpa only [childStep, hchild, if_pos hexpired, childRank] using hpos
      · have hearly : s.clock < cfg.timeout := by
          by_contra hlate
          exact hexpired ⟨htimeout, Nat.le_of_not_lt hlate⟩
        cases ops with
        | nil => simpa only [childStep, hchild, if_neg hexpired, childRank] using hpos
        | cons op rest =>
            simp only [childStep, hchild, if_neg hexpired]
            exact childOp_rank_lt hchild hearly

/-- A terminated child has no further effect. -/
theorem childStep_of_terminated {cfg : Config} {s : State} (h : s.Terminated) :
    childStep cfg s = s := by
  obtain ⟨status, hstatus⟩ := h
  simp only [childStep, hstatus]

theorem State.Terminated.step {cfg : Config} {s : State} (h : s.Terminated) (p : Process) :
    (ProcessSandbox.step cfg p s).Terminated := by
  cases p with
  | child =>
      rw [ProcessSandbox.step, childStep_of_terminated h]
      exact h
  | parent =>
      obtain ⟨status, hstatus⟩ := h
      exact ⟨status, by rw [ProcessSandbox.step, (parentStep_child cfg s).1, hstatus]⟩

theorem child_ranking {cfg : Config} (htimeout : 0 < cfg.timeout) (st : ExecutionStatus) :
    Ranking (step cfg) processes (WillReturn cfg st) State.Terminated (childRank cfg)
      (fun p s => p = .child ∧ ¬ s.Terminated) where
  inv_step p s h := h.step p s
  goal_step p s _ hgoal := hgoal.step p
  rank_step p s _ := by
    cases p with
    | parent => simp only [step, childRank, parentStep_child, Nat.le_refl]
    | child =>
        by_cases hterminated : s.Terminated
        · simp only [step, childStep_of_terminated hterminated, Nat.le_refl]
        · exact Nat.le_of_lt (childStep_rank_lt htimeout hterminated)
  helpful s _ hgoal := ⟨.child, by decide, rfl, hgoal⟩
  decreases p s _ hhelps := by
    obtain ⟨rfl, hrunning⟩ := hhelps
    exact childStep_rank_lt htimeout hrunning
  persists p p' s _ hhelps := by
    obtain ⟨rfl, hrunning⟩ := hhelps
    cases p' with
    | child => exact .inl (childStep_rank_lt htimeout hrunning)
    | parent =>
        refine .inr ⟨rfl, fun hterminated => hrunning ?_⟩
        obtain ⟨status, hstatus⟩ := hterminated
        exact ⟨status, by rw [← hstatus, step, (parentStep_child cfg s).1]⟩

def State.Returned (s : State) : Prop := ∃ status, s.parent = .returned status

/-- The turns of the parent that are left once the child has terminated, at most. -/
def parentRank (s : State) : Nat :=
  match s.parent with
  | .waiting => 4 + (s.pipe .stdout).length + (s.pipe .stderr).length
  | .capturing streams =>
      1 + streams.length + (s.pipe .stdout).length + (s.pipe .stderr).length
  | .returned _ => 0

theorem parentStep_rank_lt {cfg : Config} {s : State} (hterminated : s.Terminated)
    (h : ¬ s.Returned) : parentRank (parentStep cfg s) < parentRank s := by
  obtain ⟨status, hstatus⟩ := hterminated
  cases hparent : s.parent with
  | returned st => exact absurd ⟨st, hparent⟩ h
  | waiting =>
      simp only [parentStep, parentRank, hparent, hstatus, List.length_cons, List.length_nil]
      omega
  | capturing streams =>
      cases streams with
      | nil =>
          simp only [parentStep, parentRank, hparent, hstatus]
          omega
      | cons stream rest =>
          simp only [parentStep, hparent, hstatus]
          split
          · rename_i hread
            have hlength := List.length_pos_iff.mpr hread.2
            cases stream <;> simp [parentRank, hparent] <;> omega
          · simp only [parentRank, hparent, List.length_cons]
            omega

theorem parent_ranking (cfg : Config) (st : ExecutionStatus) :
    Ranking (step cfg) processes (fun s => WillReturn cfg st s ∧ s.Terminated) State.Returned
      parentRank (fun p s => p = .parent ∧ ¬ s.Returned) where
  inv_step p s h := ⟨h.1.step p s, h.2.step p⟩
  goal_step p s h hgoal := by
    obtain ⟨st', hst'⟩ := hgoal
    cases p with
    | parent => exact ⟨st', by simp only [step, parentStep, hst']⟩
    | child => exact ⟨st', by rw [step, childStep_of_terminated h.2, hst']⟩
  rank_step p s h := by
    cases p with
    | parent =>
        by_cases hreturned : s.Returned
        · obtain ⟨st', hst'⟩ := hreturned
          simp only [step, parentStep, hst', Nat.le_refl]
        · exact Nat.le_of_lt (parentStep_rank_lt h.2 hreturned)
    | child =>
        simp only [step, childStep_of_terminated h.2, Nat.le_refl]
  helpful s _ hgoal := ⟨.parent, by decide, rfl, hgoal⟩
  decreases p s h hhelps := by
    obtain ⟨rfl, hreturned⟩ := hhelps
    exact parentStep_rank_lt h.2 hreturned
  persists p p' s h hhelps := by
    obtain ⟨rfl, hreturned⟩ := hhelps
    cases p' with
    | parent => exact .inl (parentStep_rank_lt h.2 hreturned)
    | child =>
        rw [step, childStep_of_terminated h.2]
        exact .inr ⟨rfl, hreturned⟩

/-! ### The verdict -/

/-- `run` returns, with the status `st` whatever the schedule. -/
def Returns (cfg : Config) (test : TestFunction) (st : ExecutionStatus) : Prop :=
  (∃ k, ∀ rounds : List (List Process), k ≤ rounds.length →
    (∀ round ∈ rounds, IsRound processes round) →
    (run (step cfg) (start test) rounds.flatten).parent = .returned st) ∧
  ∀ schedule st', (run (step cfg) (start test) schedule).parent = .returned st' → st' = st

theorem WillReturn.eq_of_returned {cfg : Config} {st st' : ExecutionStatus} {s : State}
    (h : WillReturn cfg st s) (hreturned : s.parent = .returned st') : st' = st := by
  obtain ⟨-, hchild⟩ := h
  cases hs : s.child with
  | running ops ending =>
      rw [hs] at hchild
      rw [hchild.1] at hreturned
      cases hreturned
  | terminated status =>
      rw [hs] at hchild
      exact hchild.2.1 st' hreturned

theorem WillReturn.parentRank_le {cfg : Config} {st : ExecutionStatus} {s : State}
    (h : WillReturn cfg st s) (hterminated : s.Terminated) :
    parentRank s ≤ 4 + 2 * cfg.capacity := by
  obtain ⟨hroom, hchild⟩ := h
  obtain ⟨status, hstatus⟩ := hterminated
  rw [hstatus] at hchild
  have hstdout := hroom .stdout
  have hstderr := hroom .stderr
  unfold parentRank
  cases hparent : s.parent with
  | waiting =>
      simp only
      omega
  | returned st' => exact Nat.zero_le _
  | capturing streams =>
      have hlength := hchild.2.2 streams hparent
      simp only
      omega

theorem WillReturn.returns {cfg : Config} {test : TestFunction} {st : ExecutionStatus}
    (h : WillReturn cfg st (start test)) (htimeout : 0 < cfg.timeout) : Returns cfg test st := by
  have hrun : ∀ schedule, WillReturn cfg st (run (ProcessSandbox.step cfg) (start test) schedule) :=
    fun schedule => run_invariant (fun p s h => WillReturn.step p s h) h schedule
  refine ⟨?_, fun schedule st' hreturned => (hrun schedule).eq_of_returned hreturned⟩
  -- first the child ends, then the parent reads what is in the pipes
  let first := childRank cfg (start test)
  refine ⟨first + (4 + 2 * cfg.capacity), fun rounds hk hrounds => ?_⟩
  have hsplit : rounds.flatten = (rounds.take first).flatten ++ (rounds.drop first).flatten := by
    rw [← List.flatten_append, List.take_append_drop]
  have htake : childRank cfg (start test) ≤ (rounds.take first).length := by
    rw [List.length_take]
    omega
  have hterminated := (child_ranking htimeout st).goal_of_rounds
    (fun round hround => hrounds round (List.mem_of_mem_take hround)) h htake
  have hrank : parentRank (run (ProcessSandbox.step cfg) (start test) (rounds.take first).flatten) ≤
      (rounds.drop first).length := by
    have hle := (hrun (rounds.take first).flatten).parentRank_le hterminated
    rw [List.length_drop]
    omega
  have hreturned := (parent_ranking cfg st).goal_of_rounds
    (fun round hround => hrounds round (List.mem_of_mem_drop hround))
    ⟨hrun (rounds.take first).flatten, hterminated⟩ hrank
  rw [← run_append, ← hsplit] at hreturned
  obtain ⟨st', hst'⟩ := hreturned
  rw [hst', (hrun rounds.flatten).eq_of_returned hst']

theorem Returns.unique {cfg : Config} {test : TestFunction} {st st' : ExecutionStatus}
    (h : Returns cfg test st) (h' : Returns cfg test st') : st' = st := by
  obtain ⟨⟨k, hends⟩, -⟩ := h'
  have hround : ∀ round ∈ List.replicate k processes, IsRound processes round :=
    fun round hround p hp => by rwa [List.eq_of_mem_replicate hround]
  exact h.2 _ st'
    (hends (List.replicate k processes) (Nat.le_of_eq List.length_replicate.symm) hround)

/-! ### The test function on its own -/

/-- The units of work of the test. -/
def TestFunction.duration (test : TestFunction) : Nat := test.actions.count .compute

def Action.writesTo (stream : Stream) : Action → Bool
  | .compute => false
  | .write s _ => s = stream

/-- The bytes the test writes to a stream, those flushed after it returns included. -/
def TestFunction.written (test : TestFunction) (stream : Stream) : Nat :=
  test.actions.countP (Action.writesTo stream) +
    match test.ending, stream with
    | .returned _ stderrBuffer _, .stderr => stderrBuffer.length
    | .returned _ _ stdoutBuffer, .stdout => stdoutBuffer.length
    | _, _ => 0

/-- The test returns `Timedout`, or exits with the code that stands for it. -/
def TestFunction.ReportsTimeout (test : TestFunction) : Prop :=
  match test.ending with
  | .returned status _ _ => status = .timedout
  | .exited code => code % 256 = mullTimeoutCode
  | .signaled => False

theorem writes_append (stream : Stream) (ops ops' : List ChildOp) :
    writes stream (ops ++ ops') = writes stream ops + writes stream ops' := by
  induction ops with
  | nil => simp [writes]
  | cons op ops ih =>
      match op with
      | .act .compute => simpa [writes] using ih
      | .act (.write s byte) => simp [writes, ih, Nat.add_assoc]
      | .setStatus status => simpa [writes] using ih

theorem writes_act (stream : Stream) (actions : List Action) :
    writes stream (actions.map .act) = actions.countP (Action.writesTo stream) := by
  induction actions with
  | nil => rfl
  | cons action actions ih =>
      cases action with
      | compute => simpa [writes, Action.writesTo] using ih
      | write s byte =>
          by_cases hs : s = stream <;> simp [writes, Action.writesTo, hs, ih, Nat.add_comm]

theorem writes_flush (stream s : Stream) (buffer : List UInt8) :
    writes stream (flush s buffer) = if s = stream then buffer.length else 0 := by
  induction buffer with
  | nil => simp [flush, writes]
  | cons byte buffer ih =>
      rw [flush] at ih
      rw [flush, List.map_cons, writes, ih, List.length_cons]
      split <;> omega

theorem writes_childOps (test : TestFunction) (stream : Stream) :
    writes stream test.childOps = test.written stream := by
  unfold TestFunction.childOps TestFunction.written
  rw [writes_append, writes_act]
  cases test.ending with
  | returned status stderrBuffer stdoutBuffer =>
      cases stream <;> simp [writes, writes_append, writes_flush]
  | exited code => cases stream <;> rfl
  | signaled => cases stream <;> rfl

theorem ticks_append (ops ops' : List ChildOp) : ticks (ops ++ ops') = ticks ops + ticks ops' := by
  induction ops with
  | nil => simp [ticks]
  | cons op ops ih =>
      match op with
      | .act .compute => simp [ticks, ih, Nat.add_right_comm]
      | .act (.write s byte) => simpa [ticks] using ih
      | .setStatus status => simpa [ticks] using ih

theorem ticks_act (actions : List Action) :
    ticks (actions.map .act) = actions.count .compute := by
  induction actions with
  | nil => rfl
  | cons action actions ih =>
      cases action with
      | compute => simp [ticks, ih]
      | write s byte => simpa [ticks] using ih

theorem ticks_flush (stream : Stream) (buffer : List UInt8) : ticks (flush stream buffer) = 0 := by
  induction buffer with
  | nil => rfl
  | cons byte buffer ih => simpa [flush, ticks] using ih

theorem ticks_childOps (test : TestFunction) : ticks test.childOps = test.duration := by
  unfold TestFunction.childOps TestFunction.duration
  rw [ticks_append, ticks_act]
  cases test.ending with
  | returned status stderrBuffer stdoutBuffer => simp [ticks, ticks_append, ticks_flush]
  | exited code => rfl
  | signaled => rfl

theorem finalStatus_append_act (shared : ExecutionStatus) (actions : List Action)
    (ops : List ChildOp) :
    finalStatus shared (actions.map .act ++ ops) = finalStatus shared ops := by
  induction actions with
  | nil => rfl
  | cons action actions ih => simpa [finalStatus] using ih

/-- The status of the test when nothing interferes. -/
def TestFunction.ownStatus (test : TestFunction) : ExecutionStatus :=
  executionStatus test.waitStatus (finalStatus .invalid test.childOps)

theorem finalStatus_flush (shared : ExecutionStatus) (stream : Stream) (buffer : List UInt8) :
    ∀ ops, finalStatus shared (flush stream buffer ++ ops) = finalStatus shared ops := by
  intro ops
  have hact : flush stream buffer = (buffer.map (Action.write stream)).map .act := by
    simp [flush]
  rw [hact, finalStatus_append_act]

theorem ownStatus_eq_timedout_iff (test : TestFunction) :
    test.ownStatus = .timedout ↔ test.ReportsTimeout := by
  unfold TestFunction.ownStatus TestFunction.childOps TestFunction.waitStatus
    TestFunction.ReportsTimeout
  rw [finalStatus_append_act]
  cases test.ending with
  | returned status stderrBuffer stdoutBuffer =>
      have hflush : finalStatus status (flush .stderr stderrBuffer ++ flush .stdout stdoutBuffer) =
          status := by
        have hlast := finalStatus_flush status .stdout stdoutBuffer []
        rw [List.append_nil] at hlast
        rw [finalStatus_flush, hlast]
        rfl
      simp only [finalStatus, hflush]
      cases status <;> decide
  | exited code =>
      simp only [executionStatus, finalStatus, mullTimeoutCode, mullExitCode]
      constructor
      · intro h
        split at h
        · omega
        · split at h <;> simp at h
      · intro h
        rw [if_pos (by omega)]
  | signaled => simp [executionStatus]

/-! ### Capturing and not capturing -/

/-- With a duration below the timeout, the alarm is due only for want of room. -/
theorem willReturn_start {cfg : Config} {test : TestFunction} (h : test.duration < cfg.timeout) :
    (Room cfg (fun _ => []) test.childOps → WillReturn cfg test.ownStatus (start test)) ∧
    (¬ Room cfg (fun _ => []) test.childOps → WillReturn cfg .timedout (start test)) := by
  have hempty : ∀ stream, ((start test).pipe stream).length ≤ cfg.capacity :=
    fun _ => Nat.zero_le _
  constructor
  · intro hroom
    refine ⟨hempty, rfl, fun _ => ⟨?_, rfl⟩, fun hno => absurd hroom hno⟩
    rw [ticks_childOps]
    simpa [start] using h
  · intro hno
    exact ⟨hempty, rfl, fun hroom => absurd hroom hno, fun _ => rfl⟩

theorem room_start_iff {capacity timeout : Nat} {test : TestFunction} :
    Room ⟨true, capacity, timeout⟩ (fun _ => []) test.childOps ↔
      ∀ stream, test.written stream ≤ capacity := by
  simp [Room, writes_childOps]

/-- Capturing the output does not change the status that `run` returns. -/
def SameVerdict (capacity timeout : Nat) (test : TestFunction) : Prop :=
  ∃ st, Returns ⟨true, capacity, timeout⟩ test st ∧ Returns ⟨false, capacity, timeout⟩ test st

theorem returns_uncaptured {capacity timeout : Nat} {test : TestFunction}
    (h : test.duration < timeout) : Returns ⟨false, capacity, timeout⟩ test test.ownStatus :=
  ((willReturn_start h).1 (room_uncaptured rfl _ _)).returns (Nat.zero_lt_of_lt h)

/-- A test that writes more than a pipe holds times out when it is captured. -/
theorem returns_timedout {capacity timeout : Nat} {test : TestFunction}
    (h : test.duration < timeout) (hno : ¬ ∀ stream, test.written stream ≤ capacity) :
    Returns ⟨true, capacity, timeout⟩ test .timedout :=
  ((willReturn_start h).2 fun hroom => hno (room_start_iff.mp hroom)).returns
    (Nat.zero_lt_of_lt h)

theorem not_sameVerdict {capacity timeout : Nat} {test : TestFunction}
    (h : test.duration < timeout) (hno : ¬ ∀ stream, test.written stream ≤ capacity)
    (htimeout : ¬ test.ReportsTimeout) : ¬ SameVerdict capacity timeout test := by
  rintro ⟨st, hcaptured, huncaptured⟩
  have hst := (returns_timedout h hno).unique hcaptured
  have hown := (returns_uncaptured h).unique huncaptured
  exact htimeout ((ownStatus_eq_timedout_iff test).mp (hown.symm.trans hst))

/-- A test that prints its name, works for a while and passes. -/
def printingTest (bytes : Nat) : TestFunction :=
  ⟨[.compute, .write .stderr 33, .compute], .returned .passed [] (List.replicate bytes 46)⟩

theorem printingTest_not_reportsTimeout (bytes : Nat) : ¬ (printingTest bytes).ReportsTimeout := by
  simp [printingTest, TestFunction.ReportsTimeout]

theorem not_sameVerdict_of_lt {bytes : Nat} (h : 65536 < bytes) :
    ¬ SameVerdict 65536 1100 (printingTest bytes) := by
  refine not_sameVerdict (by simp [printingTest, TestFunction.duration]) ?_
    (printingTest_not_reportsTimeout bytes)
  intro hroom
  have hstdout := hroom .stdout
  simp only [printingTest, TestFunction.written, List.length_replicate] at hstdout
  omega

end ProcessSandbox

end Mull
