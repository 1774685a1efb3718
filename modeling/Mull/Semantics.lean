import Mull.IR
import Mull.Lib.StutterSimulation

/-!
# Running a module

What a call of a function of a module does.  Arithmetic, memory and all code outside of the
module belong to the target machine, which is a parameter; the control flow, the registers
and the stack of activations are defined here.  Code outside of the module may call back.

The addresses of functions that the passes add are in trampolines only: global variables
that the runner fills in, and that are no part of the memory of the program.  So a register
holds a value, or the address of a function of the module.
-/

namespace Mull.Semantics

open IR StutterSimulation

/-! ### The target machine -/

/-- How an activation ends. -/
inductive Outcome (Val : Type) where
  | returned (value : Val)
  | unwound (exception : Val)

/-- What code outside of the module does next. -/
inductive ExternalAction (Val External : Type) where
  | goOn (external : External)
  | call (callee : Val) (args : List Val) (external : External)
  | leave (outcome : Outcome Val)
  | trap

structure Target where
  Val : Type
  World : Type
  External : Type
  constant : Constant → Val
  functionAddress : Nat → Val
  globalAddress : String → Val
  /-- what a function without result returns, and what is in a register before it is written -/
  noValue : Val
  /-- `none` is a trap; the second list is that of the arguments of the function, for `va_arg` -/
  compute : Opcode → List Val → List Val → World → Option (Val × World)
  load : Val → World → Option Val
  isTrue : Val → Bool
  isCase : Val → Constant → Bool
  /-- the function of the module that has this address -/
  asFunction : Val → Option Nat
  catchException : Val → World → World
  /-- a call of a declaration, and one of an address outside of the module -/
  enter : String → List Val → External
  enterAddress : Val → List Val → External
  externalStep : External → World → ExternalAction Val External × World
  resume : External → Outcome Val → External

/-! ### Activations -/

variable (T : Target)

inductive Content where
  | value (value : T.Val)
  | code (f : Nat)

/-- An activation of a function: it executes the instruction at `position` of `block`. -/
structure Activation where
  args : List T.Val
  registers : Nat → Content T
  block : Nat
  position : Nat

/-- What an activation does next. -/
inductive Effect where
  | goOn (activation : Activation T) (world : T.World)
  | call (callee : Content T) (args : List T.Val) (world : T.World)
  | leave (outcome : Outcome T.Val) (world : T.World)
  | trap (world : T.World)

variable {T}

def Content.toVal (content : Content T) : T.Val :=
  match content with
  | .value v => v
  | .code f => T.functionAddress f

/-- The function that is called, if it is one of the module. -/
def Content.function? (content : Content T) : Option Nat :=
  match content with
  | .value v => T.asFunction v
  | .code f => some f

namespace Activation

/-- At the entry of a function. -/
def start (args : List T.Val) : Activation T := ⟨args, fun _ => .value T.noValue, 0, 0⟩

def eval (activation : Activation T) : Operand → Content T
  | .argument i => .value (activation.args.getD i T.noValue)
  | .register r => activation.registers r
  | .constant c => .value (T.constant c)
  | .function f => .code f
  | .global name => .value (T.globalAddress name)
  | .block _ => .value T.noValue

def value (activation : Activation T) (operand : Operand) : T.Val := (activation.eval operand).toVal

def write (activation : Activation T) (dest : Nat) (content : Content T) : Activation T :=
  { activation with registers := Function.update activation.registers dest content }

def next (activation : Activation T) : Activation T :=
  { activation with position := activation.position + 1 }

def instruction? (activation : Activation T) (blocks : List Block) : Option Instruction :=
  blocks[activation.block]?.bind fun block => block[activation.position]?

/-- The values of the PHI nodes at the start of a block, when control comes from `source`;
    `none` if one of them does not list it. -/
def phiValues (activation : Activation T) (source : Nat) : Block → Option (List (Nat × Content T))
  | .phi incoming dest :: block => do
      let entry ← incoming.find? fun entry => entry.2 = source
      let values ← activation.phiValues source block
      some ((dest, activation.eval entry.1) :: values)
  | _ => some []

/-- All PHI nodes of the target get their values at once. -/
def jump (activation : Activation T) (blocks : List Block) (target : Nat) (world : T.World) :
    Effect T :=
  match blocks[target]?.bind (activation.phiValues activation.block) with
  | none => .trap world
  | some values =>
      let written := values.foldl (fun activation value => activation.write value.1 value.2) activation
      .goOn { written with block := target, position := values.length } world

/-- Loading from a trampoline gives the address of a function. -/
def loadFrom (activation : Activation T) (slots : String → Option Nat) (pointer : Operand)
    (world : T.World) : Option (Content T) :=
  let slot := match pointer with
    | .global name => slots name
    | _ => none
  match slot with
  | some f => some (.code f)
  | none => (T.load (activation.value pointer) world).map .value

def executeInstruction (activation : Activation T) (slots : String → Option Nat)
    (blocks : List Block) (world : T.World) : Instruction → Effect T
  | .compute opcode operands dest =>
      match T.compute opcode (operands.map activation.value) activation.args world with
      | none => .trap world
      | some (value, world) => .goOn (activation.write dest (.value value)).next world
  | .load pointer dest =>
      match activation.loadFrom slots pointer world with
      | none => .trap world
      | some content => .goOn (activation.write dest content).next world
  | .call callee args _ | .invoke callee args _ _ _ =>
      .call (activation.eval callee) (args.map activation.value) world
  | .br target => activation.jump blocks target world
  | .condBr condition ifTrue ifFalse =>
      activation.jump blocks (if T.isTrue (activation.value condition) then ifTrue else ifFalse) world
  | .switch operand default cases =>
      let target := (cases.find? fun entry => T.isCase (activation.value operand) entry.1).map Prod.snd
      activation.jump blocks (target.getD default) world
  | .ret none => .leave (.returned T.noValue) world
  | .ret (some operand) => .leave (.returned (activation.value operand)) world
  | .resume operand => .leave (.unwound (activation.value operand)) world
  | .phi .. | .unreachable => .trap world

def execute (activation : Activation T) (slots : String → Option Nat) (blocks : List Block)
    (world : T.World) : Effect T :=
  match activation.instruction? blocks with
  | none => .trap world
  | some instruction => activation.executeInstruction slots blocks world instruction

/-- The call that the activation is waiting for has ended. -/
def afterCall (activation : Activation T) (blocks : List Block) (outcome : Outcome T.Val)
    (world : T.World) : Effect T :=
  match activation.instruction? blocks, outcome with
  | some (.call _ _ dest), .returned value => .goOn (activation.write dest (.value value)).next world
  | some (.call _ _ _), .unwound exception => .leave (.unwound exception) world
  | some (.invoke _ _ normal _ dest), .returned value =>
      (activation.write dest (.value value)).jump blocks normal world
  | some (.invoke _ _ _ unwind _), .unwound exception =>
      activation.jump blocks unwind (T.catchException exception world)
  | _, _ => .trap world

end Activation

/-! ### The stack -/

variable (T) in
inductive Frame where
  | code (f : Nat) (activation : Activation T)
  | external (external : T.External)

variable (T) in
/-- The activation on top of the stack runs, or one that is not there any more has ended. -/
inductive State where
  | running (stack : List (Frame T)) (world : T.World)
  | returning (outcome : Outcome T.Val) (stack : List (Frame T)) (world : T.World)
  | trapped (world : T.World)

/-- A call with fewer arguments, or with more if the function is not variadic, traps. -/
def accepts (type : FunctionType) (n : Nat) : Bool :=
  if type.variadic then decide (type.params.length ≤ n) else decide (n = type.params.length)

def call (m : Module) (callee : Content T) (args : List T.Val) (stack : List (Frame T))
    (world : T.World) : State T :=
  match callee.function? with
  | none => .running (.external (T.enterAddress callee.toVal args) :: stack) world
  | some f =>
      match m.functions[f]? with
      | none => .trapped world
      | some function =>
          if accepts function.type args.length then
            if function.isDeclaration then
              .running (.external (T.enter function.name args) :: stack) world
            else .running (.code f (Activation.start args) :: stack) world
          else .trapped world

/-- The effect of the activation on top, in the stack. -/
def Effect.apply (effect : Effect T) (m : Module) (f : Nat) (activation : Activation T)
    (stack : List (Frame T)) : State T :=
  match effect with
  | .goOn activation world => .running (.code f activation :: stack) world
  | .call callee args world => Semantics.call m callee args (.code f activation :: stack) world
  | .leave outcome world => .returning outcome stack world
  | .trap world => .trapped world

/-- `blocks` of a function of the module. -/
def body (m : Module) (f : Nat) : List Block := (m.functions[f]?.map Function.blocks).getD []

def step (m : Module) (slots : String → Option Nat) : State T → Option (State T)
  | .running (.code f activation :: stack) world =>
      some ((activation.execute slots (body m f) world).apply m f activation stack)
  | .running (.external external :: stack) world =>
      match T.externalStep external world with
      | (.goOn external, world) => some (.running (.external external :: stack) world)
      | (.call callee args external, world) =>
          some (call m (.value callee) args (.external external :: stack) world)
      | (.leave outcome, world) => some (.returning outcome stack world)
      | (.trap, world) => some (.trapped world)
  | .returning outcome (.code f activation :: stack) world =>
      some ((activation.afterCall (body m f) outcome world).apply m f activation stack)
  | .returning outcome (.external external :: stack) world =>
      some (.running (.external (T.resume external outcome) :: stack) world)
  | .running [] _ | .returning _ [] _ | .trapped _ => none

/-! ### Behaviour -/

variable (T) in
inductive Observation where
  | running (world : T.World)
  | finished (outcome : Outcome T.Val) (world : T.World)
  | trapped (world : T.World)

def observe : State T → Observation T
  | .running _ world => .running world
  | .returning outcome [] world => .finished outcome world
  | .returning _ (_ :: _) world => .running world
  | .trapped world => .trapped world

variable (T) in
/-- What can be observed of a call of function `f` from outside, in its order. -/
def behaviour (m : Module) (slots : String → Option Nat) (f : Nat) (args : List T.Val)
    (world : T.World) : Set (List (Observation T)) :=
  shown (step m slots) observe (call m (.code f) args [] world)

/-- The module has no trampolines. -/
def noSlots (_ : String) : Option Nat := none

end Mull.Semantics
