import Mull.CallRecorder
import Mull.IR

/-!
# Injecting the callbacks

`Callbacks::injectCallbacks` makes a function report its calls: at the start of the
entry block it calls `mull_enterFunction`, and before every return instruction it
calls `mull_leaveFunction`.  Both get the number of the function, which is its number
within the module plus the module's offset.  Nothing is injected where an exception
leaves the function.

The second half of the file gives the instrumented code a meaning: the steps of an
instrumented program and, from the layout of its blocks, where the callbacks are.
-/

namespace Mull.Callbacks

open IR

/-! ### The pass -/

/-- `offset = load @offset; functionIndex = add index, offset; call callback(info, functionIndex)`,
    with registers from `r` on. -/
def callbackCode (callback index : Nat) (info offset : Operand) (r : Nat) : List Instruction :=
  [.load offset r,
   .compute .add [.constant (.int 32 index), .register r] (r + 1),
   .call (.function callback) [info, .register (r + 1)] (r + 2)]

/-- `insertBefore(returnStatement)`, if the terminator of the block is a return. -/
def insertBeforeReturn (code : List Instruction) (block : Block) : Block :=
  match block.getLast? with
  | some terminator =>
      if terminator.isReturn then block.dropLast ++ code ++ [terminator] else block
  | none => block

/-- A register that the function does not use, nor any after it. -/
def freshRegister (function : Function) : Nat :=
  (function.blocks.flatten.filterMap Instruction.dest?).foldr max 0 + 1

def injectCallbacks (function : Function) (index : Nat) (info offset : Operand)
    (enterFunction leaveFunction : Nat) : Function :=
  let r := freshRegister function
  { function with
    blocks := function.blocks.mapIdx fun b block =>
      (if b = 0 then callbackCode enterFunction index info offset r else []) ++
        insertBeforeReturn (callbackCode leaveFunction index info offset (r + 3 * (b + 1))) block }

/-! ### Instrumented programs -/

/-- A defined function, with the number the pass gave it and its module's offset
    variable. -/
structure InstrumentedFunction where
  function : Function
  index : Nat
  offset : String
deriving DecidableEq, Repr

/-- The instrumented functions of all modules, with the positions of the two
    callbacks and the values that the offset variables are resolved to. -/
structure Program where
  functions : List InstrumentedFunction
  info : Operand
  enterFunction : Nat
  leaveFunction : Nat
  offsetValue : String → Nat

namespace Program

def code (P : Program) (f : InstrumentedFunction) : List Block :=
  (injectCallbacks f.function f.index P.info (.global f.offset) P.enterFunction
    P.leaveFunction).blocks

/-- The number passed to the callbacks, computed in 32 bits. -/
def indexOf (P : Program) (f : InstrumentedFunction) : Nat :=
  (f.index + P.offsetValue f.offset) % 2 ^ 32

end Program

/-- Blocks as LLVM's verifier wants them: one terminator, at the end. -/
def WellFormedBlock (block : Block) : Prop :=
  ∃ body terminator, block = body ++ [terminator] ∧ terminator.isTerminator = true ∧
    ∀ i ∈ body, i.isTerminator = false

/-- The program under test before instrumentation: its blocks are well formed, no
    branch goes to an entry block, and it knows nothing of the callbacks. -/
structure Program.WellFormed (P : Program) : Prop where
  blocks : ∀ f ∈ P.functions, ∀ block ∈ f.function.blocks, WellFormedBlock block
  entry : ∀ f ∈ P.functions, ∀ block ∈ f.function.blocks, ∀ i ∈ block, 0 ∉ i.targets
  enter_unused : ∀ f ∈ P.functions, ∀ block ∈ f.function.blocks, ∀ i ∈ block,
    i.callee? ≠ some (.function P.enterFunction)
  leave_unused : ∀ f ∈ P.functions, ∀ block ∈ f.function.blocks, ∀ i ∈ block,
    i.callee? ≠ some (.function P.leaveFunction)
  distinct : P.enterFunction ≠ P.leaveFunction

/-! ### Execution -/

/-- A running instrumented function, at instruction `pc` of a block. -/
structure Frame where
  function : InstrumentedFunction
  block : Nat
  pc : Nat
  env : Nat → Nat

/-- What is on the call stack: an instrumented function, or code outside of the
    program (a library function, or the test runner at the bottom). -/
inductive Activation where
  | body (frame : Frame)
  | external

def Frame.instruction (P : Program) (frame : Frame) : Option Instruction :=
  (P.code frame.function)[frame.block]?.bind (·[frame.pc]?)

/-- The call stack, innermost activation first, and what the callbacks have
    recorded. -/
structure State where
  stack : List Activation
  info : DynamicCallTree.InstrumentationInfo

def State.initial : State := ⟨[.external], .initial⟩

/-- The value of a number passed to a callback. -/
def value (env : Nat → Nat) : Operand → Nat
  | .register r => env r
  | .constant (.int _ v) => v.toNat
  | _ => 0

/-- The effect of an instruction without control flow on the registers.  Only the
    code that computes a function's number is spelled out. -/
def Computes (P : Program) (i : Instruction) (env env' : Nat → Nat) : Prop :=
  ∃ v, (∀ dest, i.dest? = some dest → env' = Function.update env dest v) ∧
    (∀ name dest, i = .load (.global name) dest → v = P.offsetValue name) ∧
    ∀ k x dest, i = .compute .add [.constant (.int 32 k), x] dest →
      v = (k.toNat + value env x) % 2 ^ 32

/-- How a caller goes on after a callee has returned. -/
inductive Resumes (P : Program) : Activation → Activation → Prop
  | external : Resumes P .external .external
  | call {frame callee args dest} (v : Nat)
      (h : frame.instruction P = some (.call callee args dest)) :
      Resumes P (.body frame)
        (.body { frame with pc := frame.pc + 1, env := Function.update frame.env dest v })
  | invoke {frame callee args normal unwind dest} (v : Nat)
      (h : frame.instruction P = some (.invoke callee args normal unwind dest)) :
      Resumes P (.body frame)
        (.body { frame with block := normal, pc := 0, env := Function.update frame.env dest v })

/-- How an activation goes on that handles an exception. -/
inductive Catches (P : Program) : Activation → Activation → Prop
  | external : Catches P .external .external
  | invoke {frame callee args normal unwind dest}
      (h : frame.instruction P = some (.invoke callee args normal unwind dest)) :
      Catches P (.body frame) (.body { frame with block := unwind, pc := 0 })

/-- An activation that an exception can start from. -/
inductive Throws (P : Program) : Activation → Prop
  | external : Throws P .external
  | resume {frame v} (h : frame.instruction P = some (.resume v)) : Throws P (.body frame)

/-- What happens in a step: a callback is called, a function returns, an exception
    ends activations, or anything else. -/
inductive Event where
  | enter (index : Nat)
  | leave (index : Nat)
  | ret
  | unwind (ended : List Activation)
  | other

/-- The calls that are not calls of the callbacks. -/
def OrdinaryCall (P : Program) (i : Instruction) : Prop :=
  ∃ callee, i.callee? = some callee ∧ callee ≠ .function P.enterFunction ∧
    callee ≠ .function P.leaveFunction

inductive Step (P : Program) : State → Event → State → Prop
  | compute {frame rest info i env'} (hi : frame.instruction P = some i)
      (hplain : i.isTerminator = false) (hcall : i.callee? = none)
      (henv : Computes P i frame.env env') :
      Step P ⟨.body frame :: rest, info⟩ .other
        ⟨.body { frame with pc := frame.pc + 1, env := env' } :: rest, info⟩
  | branch {frame rest info i target} (hi : frame.instruction P = some i)
      (hbranch : i.callee? = none) (htarget : target ∈ i.targets) :
      Step P ⟨.body frame :: rest, info⟩ .other
        ⟨.body { frame with block := target, pc := 0 } :: rest, info⟩
  | enter {frame rest info a x dest info'}
      (hi : frame.instruction P = some (.call (.function P.enterFunction) [a, x] dest))
      (henter : DynamicCallTree.enterFunction (value frame.env x) info = some info') :
      Step P ⟨.body frame :: rest, info⟩ (.enter (value frame.env x))
        ⟨.body { frame with pc := frame.pc + 1 } :: rest, info'⟩
  | leave {frame rest info a x dest info'}
      (hi : frame.instruction P = some (.call (.function P.leaveFunction) [a, x] dest))
      (hleave : DynamicCallTree.leaveFunction (value frame.env x) info = some info') :
      Step P ⟨.body frame :: rest, info⟩ (.leave (value frame.env x))
        ⟨.body { frame with pc := frame.pc + 1 } :: rest, info'⟩
  | call {frame rest info i g env} (hi : frame.instruction P = some i) (hcall : OrdinaryCall P i)
      (hg : g ∈ P.functions) :
      Step P ⟨.body frame :: rest, info⟩ .other
        ⟨.body ⟨g, 0, 0, env⟩ :: .body frame :: rest, info⟩
  | callExternal {frame rest info i} (hi : frame.instruction P = some i)
      (hcall : OrdinaryCall P i) :
      Step P ⟨.body frame :: rest, info⟩ .other ⟨.external :: .body frame :: rest, info⟩
  | externalCall {rest info g env} (hg : g ∈ P.functions) :
      Step P ⟨.external :: rest, info⟩ .other
        ⟨.body ⟨g, 0, 0, env⟩ :: .external :: rest, info⟩
  | ret {frame caller caller' rest info v} (hi : frame.instruction P = some (.ret v))
      (hresumes : Resumes P caller caller') :
      Step P ⟨.body frame :: caller :: rest, info⟩ .ret ⟨caller' :: rest, info⟩
  | externalReturn {caller caller' rest info} (hresumes : Resumes P caller caller') :
      Step P ⟨.external :: caller :: rest, info⟩ .other ⟨caller' :: rest, info⟩
  | unwind {top ended handler handler' rest info} (hthrows : Throws P top)
      (hcatches : Catches P handler handler') :
      Step P ⟨top :: ended ++ handler :: rest, info⟩ (.unwind (top :: ended))
        ⟨handler' :: rest, info⟩

/-- The steps of an execution, in order. -/
inductive Run (P : Program) : State → List Event → State → Prop
  | nil (s) : Run P s [] s
  | snoc {s events s' event s''} (hrun : Run P s events s') (hstep : Step P s' event s'') :
      Run P s (events ++ [event]) s''

/-! ### Where the callbacks are -/

theorem getElem?_append_cases {α : Type} {l r : List α} {n : Nat} {x : α}
    (h : (l ++ r)[n]? = some x) :
    l[n]? = some x ∨ l.length ≤ n ∧ r[n - l.length]? = some x := by
  rw [List.getElem?_append] at h
  split at h
  · exact .inl h
  · rename_i hlt
    exact .inr ⟨Nat.le_of_not_lt hlt, h⟩

/-- A block without a return stays as it is; the code goes before a return. -/
theorem insertBeforeReturn_cases {block : Block} (h : WellFormedBlock block)
    (code : List Instruction) :
    (insertBeforeReturn code block = block ∧ ∀ i ∈ block, i.isReturn = false) ∨
    ∃ body v, block = body ++ [.ret v] ∧ (∀ i ∈ body, i.isReturn = false) ∧
      insertBeforeReturn code block = body ++ code ++ [.ret v] := by
  obtain ⟨body, terminator, rfl, -, hbody⟩ := h
  have hnot : ∀ i ∈ body, i.isReturn = false := by
    intro i hi
    have hplain := hbody i hi
    cases i <;> simp_all [Instruction.isTerminator, Instruction.isReturn]
  cases hret : terminator.isReturn with
  | false =>
      refine .inl ⟨by simp [insertBeforeReturn, hret], ?_⟩
      intro i hi
      rcases List.mem_append.mp hi with hi | hi
      · exact hnot i hi
      · rw [List.mem_singleton.mp hi, hret]
  | true =>
      cases terminator with
      | ret v => exact .inr ⟨body, v, rfl, hnot, by simp [insertBeforeReturn, Instruction.isReturn]⟩
      | _ => simp [Instruction.isReturn] at hret

section Layout

variable {P : Program}

def prologue (P : Program) (f : InstrumentedFunction) (b : Nat) : List Instruction :=
  if b = 0 then
    callbackCode P.enterFunction f.index P.info (.global f.offset) (freshRegister f.function)
  else []

def epilogue (P : Program) (f : InstrumentedFunction) (b : Nat) : List Instruction :=
  callbackCode P.leaveFunction f.index P.info (.global f.offset)
    (freshRegister f.function + 3 * (b + 1))

theorem instruction_eq_some_iff {frame : Frame} {i : Instruction} :
    frame.instruction P = some i ↔ ∃ block, frame.function.function.blocks[frame.block]? = some block ∧
      (prologue P frame.function frame.block ++
        insertBeforeReturn (epilogue P frame.function frame.block) block)[frame.pc]? = some i := by
  simp [Frame.instruction, Program.code, injectCallbacks, prologue, epilogue,
    List.getElem?_mapIdx, Option.bind_eq_some_iff]

/-! The injected code does not return and branches nowhere; it calls its callback, in its
third instruction. -/

section CallbackCode

variable {callback index r : Nat} {info offset : Operand} {i : Instruction}

theorem isReturn_of_mem_callbackCode (h : i ∈ callbackCode callback index info offset r) :
    i.isReturn = false := by
  simp only [callbackCode, List.mem_cons, List.not_mem_nil, or_false] at h
  rcases h with rfl | rfl | rfl <;> rfl

theorem targets_of_mem_callbackCode (h : i ∈ callbackCode callback index info offset r) :
    i.targets = [] := by
  simp only [callbackCode, List.mem_cons, List.not_mem_nil, or_false] at h
  rcases h with rfl | rfl | rfl <;> rfl

theorem callee_callbackCode {k : Nat} {callee : Operand}
    (h : (callbackCode callback index info offset r)[k]? = some i)
    (hcallee : i.callee? = some callee) : k = 2 ∧ callee = .function callback := by
  match k with
  | 0 => cases h; cases hcallee
  | 1 => cases h; cases hcallee
  | 2 => cases h; cases hcallee; exact ⟨rfl, rfl⟩
  | k + 3 => cases h

end CallbackCode

/-- Where an instruction of an instrumented function comes from. -/
inductive Origin (P : Program) (frame : Frame) (i : Instruction) : Prop
  | prologue (hblock : frame.block = 0)
      (hget : (prologue P frame.function frame.block)[frame.pc]? = some i)
  | body {block : Block} (hblock : block ∈ frame.function.function.blocks) (hmem : i ∈ block)
      (hplain : i.isReturn = false)
  | epilogue {body : List Instruction} {v : Option Operand} {k : Nat}
      (hblock : frame.function.function.blocks[frame.block]? = some (body ++ [.ret v]))
      (hpc : frame.pc = (Callbacks.prologue P frame.function frame.block).length + body.length + k)
      (hget : (Callbacks.epilogue P frame.function frame.block)[k]? = some i)
  | ret {body : List Instruction} {v : Option Operand}
      (hblock : frame.function.function.blocks[frame.block]? = some (body ++ [.ret v]))
      (hpc : frame.pc = (Callbacks.prologue P frame.function frame.block).length + body.length + 3)
      (hi : i = .ret v)

theorem origin (hP : P.WellFormed) {frame : Frame} (hf : frame.function ∈ P.functions)
    {i : Instruction} (hi : frame.instruction P = some i) : Origin P frame i := by
  obtain ⟨block, hblock, hget⟩ := instruction_eq_some_iff.mp hi
  have hmem := List.mem_of_getElem? hblock
  rcases getElem?_append_cases hget with hpre | ⟨hle, hpost⟩
  · refine .prologue ?_ hpre
    by_contra hne
    rw [prologue, if_neg hne] at hpre
    cases hpre
  rcases insertBeforeReturn_cases
      (hP.blocks _ hf block hmem) (epilogue P frame.function frame.block) with
    ⟨hsame, hnone⟩ | ⟨body, v, rfl, hplain, heq⟩
  · rw [hsame] at hpost
    exact .body hmem (List.mem_of_getElem? hpost) (hnone i (List.mem_of_getElem? hpost))
  · rw [heq, List.append_assoc] at hpost
    rcases getElem?_append_cases hpost with hbody | ⟨hbody, hrest⟩
    · have hi := List.mem_of_getElem? hbody
      exact .body hmem (List.mem_append_left _ hi) (hplain i hi)
    rcases getElem?_append_cases hrest with hcode | ⟨hcode, hlast⟩
    · exact .epilogue hblock (by omega) hcode
    · have hthree : (epilogue P frame.function frame.block).length = 3 := rfl
      obtain ⟨hlt, hret⟩ := List.getElem?_eq_some_iff.mp hlast
      rw [List.length_singleton] at hlt
      refine .ret hblock (by omega) ?_
      rw [← hret, List.getElem_singleton]

/-- The end of a block that returns. -/
theorem instruction_of_return {frame : Frame} {body : List Instruction} {v : Option Operand} {k : Nat}
    (hblock : frame.function.function.blocks[frame.block]? = some (body ++ [.ret v]))
    (hpc : frame.pc = (prologue P frame.function frame.block).length + body.length + k) :
    frame.instruction P = (epilogue P frame.function frame.block ++ [.ret v])[k]? := by
  have hcode : insertBeforeReturn (epilogue P frame.function frame.block) (body ++ [.ret v]) =
      body ++ (epilogue P frame.function frame.block ++ [.ret v]) := by
    simp [insertBeforeReturn, Instruction.isReturn]
  refine Option.ext fun i => ?_
  rw [instruction_eq_some_iff, hblock]
  simp only [Option.some.injEq, exists_eq_left', hcode, hpc]
  rw [← List.append_assoc, ← List.length_append, List.getElem?_append_right (Nat.le_add_right _ _),
    Nat.add_sub_cancel_left]

/-- A return comes right after the call of `mull_leaveFunction`. -/
theorem leave_before_return (hP : P.WellFormed) {frame : Frame}
    (hf : frame.function ∈ P.functions) {i : Instruction} (hi : frame.instruction P = some i)
    (hret : i.isReturn = true) :
    ∃ pc i', frame.pc = pc + 1 ∧ ({ frame with pc := pc } : Frame).instruction P = some i' ∧
      i'.callee? = some (.function P.leaveFunction) := by
  cases origin hP hf hi with
  | prologue hblock hget =>
      rw [prologue, if_pos hblock] at hget
      rw [isReturn_of_mem_callbackCode (List.mem_of_getElem? hget)] at hret
      cases hret
  | body hblock hmem hplain =>
      rw [hplain] at hret
      cases hret
  | epilogue hblock hpc hget =>
      rw [isReturn_of_mem_callbackCode (List.mem_of_getElem? hget)] at hret
      cases hret
  | @ret body v hblock hpc hi =>
      refine ⟨(prologue P frame.function frame.block).length + body.length + 2, _, hpc,
        @instruction_of_return P { frame with pc := _ } body v 2 hblock rfl, rfl⟩

/-- `mull_enterFunction` is called by the third instruction of the entry block only. -/
theorem enter_position (hP : P.WellFormed) {frame : Frame} (hf : frame.function ∈ P.functions)
    {i : Instruction} (hi : frame.instruction P = some i)
    (hcallee : i.callee? = some (.function P.enterFunction)) : frame.block = 0 ∧ frame.pc = 2 := by
  cases origin hP hf hi with
  | prologue hblock hget =>
      rw [prologue, if_pos hblock] at hget
      exact ⟨hblock, (callee_callbackCode hget hcallee).1⟩
  | body hblock hmem => exact absurd hcallee (hP.enter_unused _ hf _ hblock _ hmem)
  | epilogue hblock hpc hget =>
      exact absurd (Operand.function.inj (callee_callbackCode hget hcallee).2) hP.distinct
  | ret hblock hpc hi =>
      rw [hi] at hcallee
      cases hcallee

/-- A return follows every call of `mull_leaveFunction`, none of which is in the
    prologue. -/
theorem leave_position (hP : P.WellFormed) {frame : Frame} (hf : frame.function ∈ P.functions)
    {i : Instruction} (hi : frame.instruction P = some i)
    (hcallee : i.callee? = some (.function P.leaveFunction)) :
    ¬ (frame.block = 0 ∧ frame.pc ≤ 2) ∧
      ∃ v, ({ frame with pc := frame.pc + 1 } : Frame).instruction P = some (.ret v) := by
  cases origin hP hf hi with
  | prologue hblock hget =>
      rw [prologue, if_pos hblock] at hget
      exact absurd (Operand.function.inj (callee_callbackCode hget hcallee).2) hP.distinct.symm
  | body hblock hmem => exact absurd hcallee (hP.leave_unused _ hf _ hblock _ hmem)
  | @epilogue body v k hblock hpc hget =>
      obtain rfl : k = 2 := (callee_callbackCode hget hcallee).1
      refine ⟨?_, v, ?_⟩
      · rintro ⟨hzero, hle⟩
        have hlength : (prologue P frame.function frame.block).length = 3 := by
          simp [prologue, hzero, callbackCode]
        omega
      · exact @instruction_of_return P { frame with pc := _ } body v 3 hblock (congrArg (· + 1) hpc)
  | ret hblock hpc hi =>
      rw [hi] at hcallee
      cases hcallee

/-- The instructions of the prologue. -/
theorem prologue_instruction {frame : Frame} {i : Instruction} (hzero : frame.block = 0)
    (hi : frame.instruction P = some i) :
    (frame.pc = 0 → i = .load (.global frame.function.offset)
        (freshRegister frame.function.function)) ∧
    (frame.pc = 1 → i = .compute .add [.constant (.int 32 frame.function.index),
        .register (freshRegister frame.function.function)]
        (freshRegister frame.function.function + 1)) ∧
    (frame.pc = 2 → i = .call (.function P.enterFunction) [P.info,
        .register (freshRegister frame.function.function + 1)]
        (freshRegister frame.function.function + 2)) := by
  obtain ⟨block, -, hget⟩ := instruction_eq_some_iff.mp hi
  rw [prologue, if_pos hzero, callbackCode] at hget
  refine ⟨?_, ?_, ?_⟩ <;> intro hpc <;> rw [hpc] at hget <;> exact (Option.some.inj hget).symm

/-- No branch goes back to the prologue. -/
theorem target_ne_zero (hP : P.WellFormed) {frame : Frame} (hf : frame.function ∈ P.functions)
    {i : Instruction} (hi : frame.instruction P = some i) {target : Nat}
    (htarget : target ∈ i.targets) : target ≠ 0 := by
  rintro rfl
  cases origin hP hf hi with
  | prologue hblock hget =>
      rw [prologue, if_pos hblock] at hget
      rw [targets_of_mem_callbackCode (List.mem_of_getElem? hget)] at htarget
      cases htarget
  | body hblock hmem => exact hP.entry _ hf _ hblock i hmem htarget
  | epilogue hblock hpc hget =>
      rw [targets_of_mem_callbackCode (List.mem_of_getElem? hget)] at htarget
      cases htarget
  | ret hblock hpc hi =>
      rw [hi] at htarget
      cases htarget

end Layout

end Mull.Callbacks
