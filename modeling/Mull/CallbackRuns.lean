import Mull.Callbacks

/-!
# The recorded call stack

As long as every instrumented function is left by a return, the stack that the
callbacks keep is the stack of the instrumented functions that are really active, and
the caller stored at a function's first call is the function that called it.  An
exception that ends a function passes by its call of `mull_leaveFunction`: its number
stays on the recorded stack (`Inv.not_matches`).
-/

namespace Mull.Callbacks

open IR

/-! ### Activations in progress -/

/-- The function's own code is running: `mull_enterFunction` has been called and the
    return instruction has not been reached. -/
def Frame.active (P : Program) (frame : Frame) : Bool :=
  !(decide (frame.block = 0 ∧ frame.pc ≤ 2)) && !((frame.instruction P).any Instruction.isReturn)

/-- The number of an active instrumented function. -/
def Activation.index? (P : Program) : Activation → Option Nat
  | .body frame => if frame.active P then some (P.indexOf frame.function) else none
  | .external => none

/-- The instrumented functions that are active, innermost first. -/
def activeFunctions (P : Program) (stack : List Activation) : List Nat :=
  stack.filterMap (Activation.index? P)

theorem active_iff {P : Program} {frame : Frame} :
    frame.active P = true ↔ ¬ (frame.block = 0 ∧ frame.pc ≤ 2) ∧
      ∀ i, frame.instruction P = some i → i.isReturn = false := by
  unfold Frame.active
  cases frame.instruction P with
  | none => simp [imp_iff_not_or]
  | some i =>
      simp only [Option.any_some, Bool.and_eq_true, Bool.not_eq_true', decide_eq_false_iff_not,
        Option.some.injEq, forall_eq']

section Active

variable {P : Program} {frame : Frame} {i : Instruction}

/-- A frame at an ordinary call is active. -/
theorem active_of_call (hi : frame.instruction P = some i) (hcall : OrdinaryCall P i) :
    frame.active P = true := by
  obtain ⟨callee, hcallee, henter, -⟩ := hcall
  refine active_iff.mpr ⟨?_, ?_⟩
  · rintro ⟨hzero, hpc⟩
    obtain ⟨h0, h1, h2⟩ := prologue_instruction hzero hi
    match hcases : frame.pc, hpc with
    | 0, _ => rw [h0 hcases] at hcallee; cases hcallee
    | 1, _ => rw [h1 hcases] at hcallee; cases hcallee
    | 2, _ =>
        rw [h2 hcases] at hcallee
        exact henter (Option.some.inj hcallee).symm
  · intro i' hi'
    rw [hi] at hi'
    obtain rfl := Option.some.inj hi'
    cases i <;> first | rfl | cases hcallee

/-- The instruction after one that does not call `mull_leaveFunction` belongs to the
    function's own code. -/
theorem active_next (hP : P.WellFormed) (hf : frame.function ∈ P.functions)
    (hi : frame.instruction P = some i) (hleave : i.callee? ≠ some (.function P.leaveFunction))
    (hpast : frame.block = 0 → 2 ≤ frame.pc) (env : Nat → Nat) :
    ({ frame with pc := frame.pc + 1, env := env } : Frame).active P = true := by
  refine active_iff.mpr ⟨?_, ?_⟩
  · rintro ⟨hzero, hpc⟩
    have := hpast hzero
    simp only at hpc
    omega
  · intro i' hi'
    by_contra hret
    obtain ⟨pc, i'', hpc, hbefore, hcallee⟩ := @leave_before_return P hP
      { frame with pc := frame.pc + 1, env := env } hf i' hi' (by simpa using hret)
    obtain rfl : frame.pc = pc := Nat.succ.inj hpc
    have hsame : frame.instruction P = some i'' := hbefore
    rw [hi] at hsame
    obtain rfl := Option.some.inj hsame
    exact hleave hcallee

/-- A frame at a terminator other than a return is active: the prologue has none. -/
theorem active_of_terminator (hi : frame.instruction P = some i) (hterminator : i.isTerminator = true)
    (hret : i.isReturn = false) : frame.active P = true := by
  refine active_iff.mpr ⟨?_, fun i' hi' => ?_⟩
  · rintro ⟨hzero, hpc⟩
    obtain ⟨h0, h1, h2⟩ := prologue_instruction hzero hi
    match hcases : frame.pc, hpc with
    | 0, _ => rw [h0 hcases] at hterminator; cases hterminator
    | 1, _ => rw [h1 hcases] at hterminator; cases hterminator
    | 2, _ => rw [h2 hcases] at hterminator; cases hterminator
  · rw [hi] at hi'
    obtain rfl := Option.some.inj hi'
    exact hret

theorem active_target (hP : P.WellFormed) (hf : frame.function ∈ P.functions)
    (hi : frame.instruction P = some i) {target : Nat} (htarget : target ∈ i.targets)
    (env : Nat → Nat) :
    ({ frame with block := target, pc := 0, env := env } : Frame).active P = true := by
  refine active_iff.mpr ⟨fun h => target_ne_zero hP hf hi htarget h.1, ?_⟩
  intro i' hi'
  by_contra hret
  obtain ⟨pc, i'', hpc, -⟩ := @leave_before_return P hP
    { frame with block := target, pc := 0, env := env } hf i' hi' (by simpa using hret)
  cases hpc

end Active

/-! ### The recorded call stack -/

/-- The frame waits for a call of its own code to return. -/
def Waiting (P : Program) (frame : Frame) : Prop :=
  ∃ i, frame.instruction P = some i ∧ OrdinaryCall P i

/-- The registers of a frame inside its prologue. -/
def Entering (P : Program) (frame : Frame) : Prop :=
  frame.block = 0 →
    (frame.pc = 1 → frame.env (freshRegister frame.function.function) =
      P.offsetValue frame.function.offset) ∧
    (frame.pc = 2 → frame.env (freshRegister frame.function.function + 1) =
      P.indexOf frame.function)

/-- The recorded stack is the real one. -/
def Matches (P : Program) (s : State) : Prop :=
  s.info.callstack = activeFunctions P s.stack

structure Inv (P : Program) (s : State) : Prop where
  functions : ∀ frame, .body frame ∈ s.stack → frame.function ∈ P.functions
  waiting : ∀ frame, .body frame ∈ s.stack.tail → Waiting P frame
  entering : ∀ frame, s.stack.head? = some (.body frame) → Entering P frame
  callstack : Matches P s

theorem Inv.initial (P : Program) : Inv P State.initial where
  functions frame h := by simp [State.initial] at h
  waiting frame h := by simp [State.initial] at h
  entering frame h := by simp [State.initial] at h
  callstack := rfl

section Steps

variable {P : Program} {frame caller : Frame} {rest : List Activation}
  {info : DynamicCallTree.InstrumentationInfo}

theorem activeFunctions_body_active (h : frame.active P = true) :
    activeFunctions P (.body frame :: rest) =
      P.indexOf frame.function :: activeFunctions P rest := by
  simp [activeFunctions, Activation.index?, h]

theorem activeFunctions_body_inactive (h : frame.active P = false) :
    activeFunctions P (.body frame :: rest) = activeFunctions P rest := by
  simp [activeFunctions, Activation.index?, h]

/-- The frame on top may be replaced by a later one of the same activation. -/
theorem Inv.advance (h : Inv P ⟨.body frame :: rest, info⟩) {frame' : Frame}
    {info' : DynamicCallTree.InstrumentationInfo} (hfunction : frame'.function = frame.function)
    (hentering : Entering P frame') (hmatch : Matches P ⟨.body frame' :: rest, info'⟩) :
    Inv P ⟨.body frame' :: rest, info'⟩ where
  functions other hother := by
    rcases List.mem_cons.mp hother with hsame | hrest
    · obtain rfl := Activation.body.inj hsame
      rw [hfunction]
      exact h.functions frame List.mem_cons_self
    · exact h.functions other (List.mem_cons_of_mem _ hrest)
  waiting := h.waiting
  entering other hother := by
    obtain rfl : frame' = other := by simpa using hother
    exact hentering
  callstack := hmatch

theorem Inv.replace (h : Inv P ⟨.body frame :: rest, info⟩) {frame' : Frame}
    (hfunction : frame'.function = frame.function) (hactive : frame'.active P = frame.active P)
    (hentering : Entering P frame') : Inv P ⟨.body frame' :: rest, info⟩ := by
  refine h.advance hfunction hentering ?_
  have hindex : Activation.index? P (.body frame') = Activation.index? P (.body frame) := by
    simp only [Activation.index?, hactive, hfunction]
  have hmatch := h.callstack
  unfold Matches activeFunctions at hmatch ⊢
  rwa [List.filterMap_cons, hindex, ← List.filterMap_cons]

/-- A new activation starts with its prologue, which is not its own code yet. -/
theorem Inv.push {stack : List Activation} (h : Inv P ⟨stack, info⟩)
    (hwaiting : ∀ frame, stack.head? = some (.body frame) → Waiting P frame)
    {g : InstrumentedFunction} (hg : g ∈ P.functions) (env : Nat → Nat) :
    Inv P ⟨.body ⟨g, 0, 0, env⟩ :: stack, info⟩ where
  functions other hother := by
    rcases List.mem_cons.mp hother with hsame | hrest
    · obtain rfl := Activation.body.inj hsame
      exact hg
    · exact h.functions other hrest
  waiting other hother := by
    simp only [List.tail_cons] at hother
    cases stack with
    | nil => cases hother
    | cons a stack =>
        rcases List.mem_cons.mp hother with rfl | hrest
        · exact hwaiting other rfl
        · exact h.waiting other hrest
  entering other hother := by
    obtain rfl : ⟨g, 0, 0, env⟩ = other := by simpa using hother
    intro _
    constructor <;> intro hpc <;> cases hpc
  callstack := by
    have hinactive : (⟨g, 0, 0, env⟩ : Frame).active P = false := by simp [Frame.active]
    have hmatch := h.callstack
    unfold Matches at hmatch ⊢
    rw [activeFunctions_body_inactive hinactive]
    exact hmatch

/-- An active function goes on at the beginning of a target block, which is not its first. -/
theorem Inv.jump (hP : P.WellFormed) (h : Inv P ⟨.body frame :: rest, info⟩) {i : Instruction}
    (hi : frame.instruction P = some i) (hactive : frame.active P = true) {target : Nat}
    (htarget : target ∈ i.targets) (env : Nat → Nat) :
    Inv P ⟨.body { frame with block := target, pc := 0, env := env } :: rest, info⟩ := by
  refine h.replace rfl ?_ ?_
  · rw [hactive]
    exact active_target hP (h.functions frame List.mem_cons_self) hi htarget env
  · intro _
    constructor <;> intro hpc <;> cases hpc

/-- A caller that goes on after its callee is active, as it was. -/
theorem Inv.resume (hP : P.WellFormed) {a a' : Activation} (h : Inv P ⟨a :: rest, info⟩)
    (hwaiting : ∀ frame, a = .body frame → Waiting P frame) (hresumes : Resumes P a a') :
    Inv P ⟨a' :: rest, info⟩ := by
  cases hresumes with
  | external => exact h
  | @call caller callee args dest v hi =>
      obtain ⟨i, hi', hcall⟩ := hwaiting caller rfl
      rw [hi] at hi'
      obtain rfl := Option.some.inj hi'
      have hactive := active_of_call hi hcall
      obtain ⟨hpast, -⟩ := active_iff.mp hactive
      have hf := h.functions caller List.mem_cons_self
      obtain ⟨operand, hoperand, -, hleave⟩ := hcall
      refine h.replace rfl ?_ ?_
      · rw [hactive]
        apply active_next hP hf hi
        · rw [hoperand]
          exact fun heq => hleave (Option.some.inj heq)
        · intro hzero
          by_contra hlt
          exact hpast ⟨hzero, by omega⟩
      · intro hzero
        have hlate : ¬ caller.pc ≤ 2 := fun hle => hpast ⟨hzero, hle⟩
        constructor <;> intro hpc <;> simp only at hpc <;> omega
  | @invoke caller callee args normal unwind dest v hi =>
      obtain ⟨i, hi', hcall⟩ := hwaiting caller rfl
      rw [hi] at hi'
      obtain rfl := Option.some.inj hi'
      exact h.jump hP hi (active_of_call hi hcall) (by simp [Instruction.targets]) _

theorem Inv.catch (hP : P.WellFormed) {a a' : Activation} (h : Inv P ⟨a :: rest, info⟩)
    (hwaiting : ∀ frame, a = .body frame → Waiting P frame) (hcatches : Catches P a a') :
    Inv P ⟨a' :: rest, info⟩ := by
  cases hcatches with
  | external => exact h
  | @invoke caller callee args normal unwind dest hi =>
      obtain ⟨i, hi', hcall⟩ := hwaiting caller rfl
      rw [hi] at hi'
      obtain rfl := Option.some.inj hi'
      exact h.jump hP hi (active_of_call hi hcall) (by simp [Instruction.targets]) _

/-- Dropping activations that are not active leaves everything else as it is. -/
theorem Inv.pop {a : Activation} {ended : List Activation}
    (h : Inv P ⟨ended ++ a :: rest, info⟩) (hnonempty : ended ≠ [])
    (hended : activeFunctions P ended = []) :
    Inv P ⟨a :: rest, info⟩ ∧ ∀ frame, a = .body frame → Waiting P frame := by
  obtain ⟨top, more, rfl⟩ := List.exists_cons_of_ne_nil hnonempty
  have htail : ∀ frame, .body frame ∈ a :: rest → Waiting P frame := fun frame hframe =>
    h.waiting frame (by simpa using Or.inr (by simpa using hframe))
  refine ⟨⟨?_, ?_, ?_, ?_⟩, fun frame hframe => htail frame (by simp [hframe])⟩
  · exact fun frame hframe => h.functions frame (List.mem_append_right _ hframe)
  · exact fun frame hframe => htail frame (List.mem_cons_of_mem _ hframe)
  · -- a waiting frame is past its prologue
    intro frame hframe hzero
    obtain rfl : a = .body frame := by simpa using hframe
    obtain ⟨i, hi, hcall⟩ := htail frame List.mem_cons_self
    obtain ⟨hpast, -⟩ := active_iff.mp (active_of_call hi hcall)
    constructor <;> intro hpc <;> exact absurd ⟨hzero, by omega⟩ hpast
  · have hmatch := h.callstack
    unfold Matches at hmatch ⊢
    rwa [activeFunctions, List.filterMap_append, ← activeFunctions, hended, List.nil_append]
      at hmatch

theorem Inv.compute (hP : P.WellFormed) (h : Inv P ⟨.body frame :: rest, info⟩)
    {i : Instruction} (hi : frame.instruction P = some i) (hplain : i.isTerminator = false)
    (hcall : i.callee? = none) {env' : Nat → Nat} (henv : Computes P i frame.env env') :
    Inv P ⟨.body { frame with pc := frame.pc + 1, env := env' } :: rest, info⟩ := by
  have hf := h.functions frame List.mem_cons_self
  have hentering := h.entering frame rfl
  obtain ⟨v, hdest, hload, hadd⟩ := henv
  by_cases hpro : frame.block = 0 ∧ frame.pc ≤ 2
  · -- inside the prologue: the number of the function is being computed
    obtain ⟨hzero, hpc⟩ := hpro
    obtain ⟨h0, h1, h2⟩ := prologue_instruction hzero hi
    have hlt : frame.pc < 2 := by
      by_contra hge
      have htwo : frame.pc = 2 := by omega
      rw [h2 htwo] at hcall
      cases hcall
    refine h.replace rfl ?_ ?_
    · have hbefore : frame.active P = false := by simp [Frame.active, hzero, hpc]
      have hafter : frame.pc + 1 ≤ 2 := by omega
      rw [hbefore]
      simp [Frame.active, hzero, hafter]
    · intro _
      constructor <;> intro hnext <;> simp only at hnext ⊢
      · have hpc0 : frame.pc = 0 := by omega
        obtain rfl := h0 hpc0
        rw [hdest _ rfl, Function.update_self]
        exact hload _ _ rfl
      · have hpc1 : frame.pc = 1 := by omega
        obtain rfl := h1 hpc1
        rw [hdest _ rfl, Function.update_self, hadd _ _ _ rfl]
        simp only [value, (hentering hzero).1 hpc1, Program.indexOf, Int.toNat_natCast]
  · have hactive : frame.active P = true := by
      refine active_iff.mpr ⟨hpro, fun i' hi' => ?_⟩
      rw [hi] at hi'
      obtain rfl := Option.some.inj hi'
      cases i <;> first | rfl | cases hplain
    refine h.replace rfl ?_ ?_
    · rw [hactive]
      refine active_next hP hf hi (by rw [hcall]; simp) (fun hzero => ?_) env'
      by_contra hlt
      exact hpro ⟨hzero, by omega⟩
    · intro hzero
      have hlate : ¬ frame.pc ≤ 2 := fun hle => hpro ⟨hzero, hle⟩
      constructor <;> intro hnext <;> simp only at hnext <;> omega

theorem Inv.branch (hP : P.WellFormed) (h : Inv P ⟨.body frame :: rest, info⟩)
    {i : Instruction} (hi : frame.instruction P = some i) {target : Nat}
    (htarget : target ∈ i.targets) :
    Inv P ⟨.body { frame with block := target, pc := 0 } :: rest, info⟩ := by
  have hcontinues : i.isTerminator = true ∧ i.isReturn = false := by
    cases i <;> first | exact ⟨rfl, rfl⟩ | cases htarget
  exact h.jump hP hi (active_of_terminator hi hcontinues.1 hcontinues.2) htarget frame.env

/-- `mull_enterFunction` gets the number of the function it is called from, which
    becomes active. -/
theorem Inv.enter (hP : P.WellFormed) (h : Inv P ⟨.body frame :: rest, info⟩) {a x : Operand}
    {dest : Nat} {info' : DynamicCallTree.InstrumentationInfo}
    (hi : frame.instruction P = some (.call (.function P.enterFunction) [a, x] dest))
    (henter : DynamicCallTree.enterFunction (value frame.env x) info = some info') :
    Inv P ⟨.body { frame with pc := frame.pc + 1 } :: rest, info'⟩ := by
  have hf := h.functions frame List.mem_cons_self
  obtain ⟨hzero, hpc⟩ := enter_position hP hf hi rfl
  have hindex : value frame.env x = P.indexOf frame.function := by
    have hcall := (prologue_instruction hzero hi).2.2 hpc
    simp only [Instruction.call.injEq, List.cons.injEq] at hcall
    obtain ⟨-, ⟨-, rfl, -⟩, -⟩ := hcall
    exact (h.entering frame rfl hzero).2 hpc
  have hbefore : frame.active P = false := by simp [Frame.active, hzero, hpc]
  have hafter : ({ frame with pc := frame.pc + 1 } : Frame).active P = true :=
    active_next hP hf hi (by simpa [Instruction.callee?] using hP.distinct) (fun _ => by omega) _
  refine h.advance rfl ?_ ?_
  · intro _
    constructor <;> intro hnext <;> simp only at hnext <;> omega
  · have hmatch := h.callstack
    unfold Matches at hmatch ⊢
    rw [activeFunctions_body_inactive hbefore] at hmatch
    rw [activeFunctions_body_active hafter, ← hmatch]
    simp only [DynamicCallTree.enterFunction] at henter
    split at henter
    · cases henter
    · obtain rfl := Option.some.inj henter
      simp only [hindex]

/-- `mull_leaveFunction` removes the function that is about to return. -/
theorem Inv.leave (hP : P.WellFormed) (h : Inv P ⟨.body frame :: rest, info⟩) {a x : Operand}
    {dest : Nat} {info' : DynamicCallTree.InstrumentationInfo}
    (hi : frame.instruction P = some (.call (.function P.leaveFunction) [a, x] dest))
    (hleave : DynamicCallTree.leaveFunction (value frame.env x) info = some info') :
    Inv P ⟨.body { frame with pc := frame.pc + 1 } :: rest, info'⟩ := by
  have hf := h.functions frame List.mem_cons_self
  obtain ⟨hpast, v, hret⟩ := leave_position hP hf hi rfl
  have hbefore : frame.active P = true := by
    refine active_iff.mpr ⟨hpast, fun i' hi' => ?_⟩
    rw [hi] at hi'
    obtain rfl := Option.some.inj hi'
    rfl
  have hafter : ({ frame with pc := frame.pc + 1 } : Frame).active P = false := by
    simp only [Frame.active, hret, Option.any_some, Instruction.isReturn, Bool.not_true,
      Bool.and_false]
  refine h.advance rfl ?_ ?_
  · intro hzero
    have hlate : ¬ frame.pc ≤ 2 := fun hle => hpast ⟨hzero, hle⟩
    constructor <;> intro hnext <;> simp only at hnext <;> omega
  · have hmatch := h.callstack
    unfold Matches at hmatch ⊢
    simp only at hmatch
    rw [activeFunctions_body_active hbefore] at hmatch
    rw [activeFunctions_body_inactive hafter]
    simp only [DynamicCallTree.leaveFunction, hmatch] at hleave
    split at hleave
    · cases hleave
    · obtain rfl := Option.some.inj hleave
      rfl

end Steps

/-! ### Runs -/

/-- No instrumented function ends by an exception in this step. -/
def Event.EndsNoFunction : Event → Prop
  | .unwind ended => ∀ a ∈ ended, a = .external
  | _ => True

theorem activeFunctions_externals {P : Program} {stack : List Activation}
    (h : ∀ a ∈ stack, a = .external) : activeFunctions P stack = [] := by
  rw [activeFunctions, List.filterMap_eq_nil_iff]
  intro a ha
  rw [h a ha]
  rfl

/-- One step keeps the recorded stack right unless an exception ends a function. -/
theorem Inv.step {P : Program} (hP : P.WellFormed) {s s' : State} {event : Event}
    (h : Inv P s) (hstep : Step P s event s') (hevent : event.EndsNoFunction) : Inv P s' := by
  cases hstep with
  | compute hi hplain hcall henv => exact h.compute hP hi hplain hcall henv
  | branch hi _ htarget => exact h.branch hP hi htarget
  | enter hi henter => exact h.enter hP hi henter
  | leave hi hleave => exact h.leave hP hi hleave
  | @call frame rest info i g env hi hcall hg =>
      refine h.push (fun other hother => ?_) hg env
      obtain rfl : frame = other := by simpa using hother
      exact ⟨i, hi, hcall⟩
  | @callExternal frame rest info i hi hcall =>
      refine ⟨?_, ?_, ?_, h.callstack⟩
      · exact fun other hother => h.functions other (by simpa using hother)
      · intro other hother
        rcases List.mem_cons.mp hother with hsame | hrest
        · obtain rfl := Activation.body.inj hsame
          exact ⟨i, hi, hcall⟩
        · exact h.waiting other hrest
      · intro other hother
        cases hother
  | externalCall hg => exact h.push (fun other hother => by cases hother) hg _
  | @ret frame caller caller' rest info v hi hresumes =>
      have hinactive : frame.active P = false := by
        simp only [Frame.active, hi, Option.any_some, Instruction.isReturn, Bool.not_true,
          Bool.and_false]
      obtain ⟨hpopped, hwaiting⟩ := @Inv.pop P rest info caller [.body frame] h (by simp)
        (activeFunctions_body_inactive hinactive)
      exact hpopped.resume hP hwaiting hresumes
  | @externalReturn caller caller' rest info hresumes =>
      obtain ⟨hpopped, hwaiting⟩ := @Inv.pop P rest info caller [.external] h (by simp) rfl
      exact hpopped.resume hP hwaiting hresumes
  | @unwind top ended handler handler' rest info hthrows hcatches =>
      obtain ⟨hpopped, hwaiting⟩ := @Inv.pop P rest info handler (top :: ended) h (by simp)
        (activeFunctions_externals hevent)
      exact hpopped.catch hP hwaiting hcatches

theorem Inv.run {P : Program} (hP : P.WellFormed) {events : List Event} {s : State}
    (hrun : Run P State.initial events s) (hevents : ∀ event ∈ events, event.EndsNoFunction) :
    Inv P s := by
  induction hrun with
  | nil => exact .initial P
  | snoc _ hstep ih =>
      have hbefore := ih fun event hevent => hevents event (List.mem_append_left _ hevent)
      exact hbefore.step hP hstep (hevents _ (by simp))

/-- An activation in `ended` was active, unless it is external. -/
theorem Inv.active_of_ended {P : Program} {top : Activation} {ended rest : List Activation}
    {info : DynamicCallTree.InstrumentationInfo} (h : Inv P ⟨top :: ended ++ rest, info⟩)
    (hthrows : Throws P top) {frame : Frame} (hframe : .body frame ∈ top :: ended) :
    frame.active P = true := by
  rcases List.mem_cons.mp hframe with rfl | htail
  · cases hthrows with
    | resume hi => exact active_of_terminator hi rfl rfl
  · obtain ⟨i, hi, hcall⟩ := h.waiting frame (by simp [htail])
    exact active_of_call hi hcall

/-- An exception that ends a function leaves its number on the recorded stack. -/
theorem Inv.not_matches {P : Program} (hP : P.WellFormed) {s s' : State} {event : Event}
    (h : Inv P s) (hstep : Step P s event s') (hevent : ¬ event.EndsNoFunction) :
    ¬ Matches P s' := by
  cases hstep with
  | @unwind top ended handler handler' rest info hthrows hcatches =>
      intro hafter
      simp only [Event.EndsNoFunction, not_forall] at hevent
      obtain ⟨a, ha, hne⟩ := hevent
      cases a with
      | external => exact hne rfl
      | body frame =>
          have hactive := h.active_of_ended hthrows ha
          -- the frames below keep their numbers, so the real stack is shorter
          have hmem : P.indexOf frame.function ∈ activeFunctions P (top :: ended) :=
            List.mem_filterMap.mpr ⟨.body frame, ha, by simp [Activation.index?, hactive]⟩
          have hpos := List.length_pos_of_mem hmem
          have hbelow : Inv P ⟨handler :: rest,
              { info with callstack := activeFunctions P (handler :: rest) }⟩ := by
            refine ⟨?_, ?_, ?_, rfl⟩
            · exact fun other hother => h.functions other (List.mem_append_right _ hother)
            · exact fun other hother => h.waiting other
                (List.mem_append_right _ (List.mem_cons_of_mem _ hother))
            · intro other hother hzero
              obtain rfl : handler = .body other := by simpa using hother
              obtain ⟨i, hi, hcall⟩ := h.waiting other
                (List.mem_append_right _ List.mem_cons_self)
              obtain ⟨hpast, -⟩ := active_iff.mp (active_of_call hi hcall)
              constructor <;> intro hpc <;> exact absurd ⟨hzero, by omega⟩ hpast
          have hcaught := (hbelow.catch hP (fun other hother => h.waiting other
            (by simp [hother])) hcatches).callstack
          have hbefore := h.callstack
          unfold Matches at hafter hcaught hbefore
          simp only at hafter hcaught hbefore
          rw [hafter, ← hcaught, activeFunctions, activeFunctions, List.filterMap_append,
            ← activeFunctions, ← activeFunctions] at hbefore
          have hlength := congrArg List.length hbefore
          rw [List.length_append] at hlength
          omega
  | _ => exact absurd trivial hevent

/-- **As long as no exception ends an instrumented function, the recorded stack is the
    real one and the caller stored at a first call is the innermost active function;
    the first such exception makes the stacks differ.** -/
theorem matches_of_run {P : Program} (hP : P.WellFormed) {events : List Event} {s : State}
    (hrun : Run P State.initial events s) (hevents : ∀ event ∈ events, event.EndsNoFunction) :
    Matches P s ∧
    (∀ index s', Step P s (.enter index) s' → s.info.callTreeMapping index = 0 →
      s'.info.callTreeMapping index = (activeFunctions P s.stack).headD index) ∧
    ∀ event s', Step P s event s' → (Matches P s' ↔ event.EndsNoFunction) := by
  have hinv := Inv.run hP hrun hevents
  refine ⟨hinv.callstack, ?_, ?_⟩
  · intro index s' hstep hfirst
    rw [← hinv.callstack]
    cases hstep with
    | @enter frame rest info a x dest info' hi henter =>
        simp only [DynamicCallTree.enterFunction] at henter hfirst ⊢
        split at henter
        · cases henter
        · obtain rfl := Option.some.inj henter
          cases info.callstack with
          | nil => simp
          | cons parent stack => simp
  · intro event s' hstep
    constructor
    · intro hmatches
      by_contra hevent
      exact hinv.not_matches hP hstep hevent hmatches
    · exact fun hevent => (hinv.step hP hstep hevent).callstack

/-! ### A function left by an exception -/

/-- Every activation can run through its prologue. -/
theorem Run.enter {P : Program} {s : State} {events : List Event} {f : InstrumentedFunction}
    {env : Nat → Nat} {rest : List Activation} {info info' : DynamicCallTree.InstrumentationInfo}
    (hrun : Run P s events ⟨.body ⟨f, 0, 0, env⟩ :: rest, info⟩) (hbody : f.function.blocks ≠ [])
    (henter : DynamicCallTree.enterFunction (P.indexOf f) info = some info') :
    ∃ env', Run P s (events ++ [.other] ++ [.other] ++ [.enter (P.indexOf f)])
      ⟨.body ⟨f, 0, 3, env'⟩ :: rest, info'⟩ := by
  obtain ⟨block, blocks, hblocks⟩ := List.exists_cons_of_ne_nil hbody
  let r := freshRegister f.function
  let env₁ := Function.update env r (P.offsetValue f.offset)
  let env₂ := Function.update env₁ (r + 1) (P.indexOf f)
  have hget : ∀ pc env, pc < 3 → (⟨f, 0, pc, env⟩ : Frame).instruction P =
      (callbackCode P.enterFunction f.index P.info (.global f.offset) r)[pc]? := by
    intro pc env hpc
    simp only [Frame.instruction, Program.code, injectCallbacks, List.getElem?_mapIdx, hblocks,
      List.getElem?_cons_zero, Option.map_some, Option.bind_some, if_true]
    exact List.getElem?_append_left hpc
  have hload : Step P ⟨.body ⟨f, 0, 0, env⟩ :: rest, info⟩ .other
      ⟨.body ⟨f, 0, 1, env₁⟩ :: rest, info⟩ := by
    refine .compute (hget 0 env (by decide)) rfl rfl ⟨P.offsetValue f.offset, ?_, ?_, ?_⟩
    · rintro dest hdest
      rw [← Option.some.inj hdest]
    · rintro name dest heq
      cases heq
      rfl
    · rintro k x dest heq
      cases heq
  have hadd : Step P ⟨.body ⟨f, 0, 1, env₁⟩ :: rest, info⟩ .other
      ⟨.body ⟨f, 0, 2, env₂⟩ :: rest, info⟩ := by
    refine .compute (hget 1 env₁ (by decide)) rfl rfl ⟨P.indexOf f, ?_, ?_, ?_⟩
    · rintro dest hdest
      rw [← Option.some.inj hdest]
    · rintro name dest heq
      cases heq
    · rintro k x dest heq
      cases heq
      simp [value, env₁, r, Program.indexOf]
  have hvalue : value env₂ (.register (r + 1)) = P.indexOf f := by simp [value, env₂]
  have hcall : Step P ⟨.body ⟨f, 0, 2, env₂⟩ :: rest, info⟩ (.enter (P.indexOf f))
      ⟨.body ⟨f, 0, 3, env₂⟩ :: rest, info'⟩ := by
    rw [← hvalue]
    exact .enter (hget 2 env₂ (by decide)) (by rw [hvalue]; exact henter)
  exact ⟨env₂, ((hrun.snoc hload).snoc hadd).snoc hcall⟩

def noArguments : FunctionType := ⟨.void, [], false⟩

/-- `void catcher() { try { thrower(); } catch (...) {} }` -/
def catcher : InstrumentedFunction where
  function := ⟨"catcher", noArguments, [[.invoke (.function 1) [] 1 2 0], [.ret none], [.ret none]]⟩
  index := 0
  offset := "mull_function_index_offset_main"

/-- `void thrower() { throw 1; }` -/
def thrower : InstrumentedFunction where
  function := ⟨"thrower", noArguments, [[.call (.function 2) [] 0, .unreachable]]⟩
  index := 1
  offset := "mull_function_index_offset_main"

def exceptionProgram : Program where
  functions := [catcher, thrower]
  info := .global "mull_instrumentation_info"
  enterFunction := 3
  leaveFunction := 4
  offsetValue := fun _ => 1

theorem exceptionProgram_wellFormed : exceptionProgram.WellFormed := by
  have hblocks : ∀ f ∈ exceptionProgram.functions, ∀ block ∈ f.function.blocks,
      block = [.invoke (.function 1) [] 1 2 0] ∨ block = [.ret none] ∨
        block = [.call (.function 2) [] 0, .unreachable] := by
    simp [exceptionProgram, catcher, thrower]
  refine ⟨?_, by decide, by decide, by decide, by decide⟩
  intro f hf block hblock
  rcases hblocks f hf block hblock with rfl | rfl | rfl
  · exact ⟨[], _, rfl, rfl, by simp⟩
  · exact ⟨[], _, rfl, rfl, by simp⟩
  · exact ⟨[_], _, rfl, rfl, by simp [Instruction.isTerminator]⟩

/-- The run up to the point where the exception is thrown: nothing has ended yet. -/
theorem exceptionProgram_run : ∃ events s env env',
    Run exceptionProgram State.initial events s ∧ (∀ event ∈ events, event.EndsNoFunction) ∧
    s.stack = [.external, .body ⟨thrower, 0, 3, env⟩, .body ⟨catcher, 0, 3, env'⟩, .external] ∧
    s.info.callstack = [2, 1] := by
  have hstart : Run exceptionProgram State.initial ([] ++ [.other])
      ⟨[.body ⟨catcher, 0, 0, fun _ => 0⟩, .external], .initial⟩ :=
    .snoc (.nil _) (.externalCall (by decide))
  obtain ⟨env', hcatcher⟩ := hstart.enter (by decide) rfl
  have hcall := hcatcher.snoc (@Step.call exceptionProgram _ _ _ _ thrower (fun _ => 0) rfl
    ⟨_, rfl, by decide, by decide⟩ (by decide))
  obtain ⟨env, hthrower⟩ := hcall.enter (by decide) rfl
  have hthrow := hthrower.snoc (.callExternal rfl ⟨_, rfl, by decide, by decide⟩)
  exact ⟨_, _, env, env', hthrow, by simp [Event.EndsNoFunction], rfl, rfl⟩

/-- Until then the recorded stack is the real one. -/
theorem matches_of_run_exceptionProgram : ∃ events s,
    Run exceptionProgram State.initial events s ∧ s.info.callstack = [2, 1] ∧
      Matches exceptionProgram s := by
  obtain ⟨events, s, -, -, hrun, hevents, -, hstack⟩ := exceptionProgram_run
  exact ⟨events, s, hrun, hstack,
    (matches_of_run exceptionProgram_wellFormed hrun hevents).1⟩

/-- After the handler has taken over, `thrower` is still on the recorded stack. -/
theorem not_matches_exceptionProgram : exceptionProgram.WellFormed ∧ ∃ events s,
    Run exceptionProgram State.initial events s ∧ ¬ Matches exceptionProgram s := by
  obtain ⟨events, s, env, env', hrun, hevents, hstack, -⟩ := exceptionProgram_run
  obtain ⟨stack, info⟩ := s
  obtain rfl : stack = _ := hstack
  have hinv := Inv.run exceptionProgram_wellFormed hrun hevents
  have hstep : Step exceptionProgram
      ⟨.external :: [.body ⟨thrower, 0, 3, env⟩] ++ .body ⟨catcher, 0, 3, env'⟩ :: [.external], info⟩
      (.unwind [.external, .body ⟨thrower, 0, 3, env⟩])
      ⟨[.body ⟨catcher, 2, 0, env'⟩, .external], info⟩ := .unwind .external (.invoke rfl)
  refine ⟨exceptionProgram_wellFormed, _, _, hrun.snoc hstep,
    hinv.not_matches exceptionProgram_wellFormed hstep ?_⟩
  intro hends
  cases hends (.body ⟨thrower, 0, 3, env⟩) (by simp)

end Mull.Callbacks
