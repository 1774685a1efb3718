import Mathlib.Data.List.Basic
import Mull.Lib.Naming

/-!
# LLVM modules

The part of LLVM's IR that the passes of the repository look at.  A module is a list
of functions; a `Function *` is a position in that list, which stays valid because
functions are only ever appended.  A function is a list of basic blocks, empty for a
declaration, and a block is a list of instructions that ends with a terminator.

Instructions that neither call nor branch are all of the form `compute`; what they
compute is left to the target machine.  Attributes, linkage, metadata and calling
conventions are below this model.
-/

namespace Mull.IR

/-! ### Instructions -/

inductive Ty where
  | void
  | int (width : Nat)
  | float
  | pointer
  | aggregate (fields : Nat)
deriving DecidableEq, Repr

inductive Constant where
  | int (width : Nat) (value : Int)
  | float (bits : Nat)
  | null
  | undef
deriving DecidableEq, Repr

inductive Opcode where
  | fneg
  | add | fadd | sub | fsub | mul | fmul
  | udiv | sdiv | fdiv | urem | srem | frem
  | shl | lshr | ashr | and | or | xor
  | alloca | store | getElementPtr | fence | cmpxchg | atomicRMW
  | cast (kind : Nat) | icmp (predicate : Nat) | fcmp (predicate : Nat)
  | select | vaArg | extractElement | insertElement | shuffleVector
  | extractValue | insertValue | landingPad
deriving DecidableEq, Repr

inductive Operand where
  | argument (i : Nat)
  | register (r : Nat)
  | constant (c : Constant)
  | function (f : Nat)
  | global (name : String)
  | block (b : Nat)
deriving DecidableEq, Repr

/-- An instruction; `dest` is the register of its value. -/
inductive Instruction where
  | compute (opcode : Opcode) (operands : List Operand) (dest : Nat)
  | load (pointer : Operand) (dest : Nat)
  | phi (incoming : List (Operand × Nat)) (dest : Nat)
  | call (callee : Operand) (args : List Operand) (dest : Nat)
  | invoke (callee : Operand) (args : List Operand) (normal unwind : Nat) (dest : Nat)
  | br (target : Nat)
  | condBr (condition : Operand) (ifTrue ifFalse : Nat)
  | switch (value : Operand) (default : Nat) (cases : List (Constant × Nat))
  | ret (value : Option Operand)
  | resume (value : Operand)
  | unreachable
deriving DecidableEq, Repr

namespace Instruction

def isTerminator : Instruction → Bool
  | .compute .. | .load .. | .phi .. | .call .. => false
  | _ => true

/-- `isa<ReturnInst>`. -/
def isReturn : Instruction → Bool
  | .ret _ => true
  | _ => false

/-- The register an instruction writes. -/
def dest? : Instruction → Option Nat
  | .compute _ _ dest | .load _ dest | .phi _ dest | .call _ _ dest | .invoke _ _ _ _ dest =>
      some dest
  | _ => none

/-- The callee of a call or an invoke. -/
def callee? : Instruction → Option Operand
  | .call callee _ _ | .invoke callee _ _ _ _ => some callee
  | _ => none

/-- The blocks control can go to from a branch, or from an invoke. -/
def targets : Instruction → List Nat
  | .br target => [target]
  | .condBr _ ifTrue ifFalse => [ifTrue, ifFalse]
  | .switch _ default cases => default :: cases.map Prod.snd
  | .invoke _ _ normal unwind _ => [normal, unwind]
  | _ => []

/-- `getOperand`, in LLVM's order. -/
def operands : Instruction → List Operand
  | .compute _ operands _ => operands
  | .load pointer _ => [pointer]
  | .phi incoming _ => incoming.map Prod.fst
  | .call callee args _ => args ++ [callee]
  | .invoke callee args normal unwind _ => args ++ [.block normal, .block unwind, callee]
  | .br target => [.block target]
  | .condBr condition ifTrue ifFalse => [condition, .block ifFalse, .block ifTrue]
  | .switch value default cases =>
      value :: .block default :: cases.flatMap fun (c, b) => [.constant c, .block b]
  | .ret value => value.toList
  | .resume value => [value]
  | .unreachable => []

end Instruction

/-! ### Functions and modules -/

abbrev Block := List Instruction

structure FunctionType where
  result : Ty
  params : List Ty
  variadic : Bool
deriving DecidableEq, Repr

structure Function where
  name : String
  type : FunctionType
  blocks : List Block
deriving DecidableEq, Repr

def Function.isDeclaration (f : Function) : Bool := f.blocks.isEmpty

structure Module where
  identifier : String
  functions : List Function
  globals : List String
deriving DecidableEq, Repr

namespace Module

/-- The names in the symbol table. -/
def names (m : Module) : List String := m.functions.map Function.name ++ m.globals

/-- `getFunction`: the function of that name. -/
def getFunction (m : Module) (name : String) : Option Nat :=
  m.functions.findIdx? fun f => f.name = name

/-- A name that is not taken: the name itself, or the first of `name.1`, `name.2`, …
    that is free. -/
def uniqueName (taken : List String) (name : String) : String :=
  if name ∈ taken then
    let candidates := (List.range (taken.length + 1)).map fun k => name ++ "." ++ toString (k + 1)
    (candidates.find? fun candidate => candidate ∉ taken).getD name
  else name

def setFunction (m : Module) (f : Nat) (function : Function) : Module :=
  { m with functions := m.functions.set f function }

/-- `setName`: a name that another value of the module has is changed. -/
def setName (m : Module) (f : Nat) (name : String) : Module :=
  match m.functions[f]? with
  | none => m
  | some function =>
      let others := (m.functions.eraseIdx f).map Function.name ++ m.globals
      m.setFunction f { function with name := uniqueName others name }

/-- `CloneFunction`: an exact copy at the end of the module, whose calls refer to the
    same functions as those of the original.  The position is that of the copy. -/
def cloneFunction (m : Module) (f : Nat) : Module × Nat :=
  match m.functions[f]? with
  | none => (m, f)
  | some function =>
      let copy := { function with name := uniqueName m.names function.name }
      ({ m with functions := m.functions ++ [copy] }, m.functions.length)

def deleteBody (m : Module) (f : Nat) : Module :=
  match m.functions[f]? with
  | none => m
  | some function => m.setFunction f { function with blocks := [] }

/-- `getOrInsertGlobal`: the variable of that name, or a new one. -/
def getOrInsertGlobal (m : Module) (name : String) : Module × String :=
  if name ∈ m.globals then (m, name)
  else
    let name := uniqueName m.names name
    ({ m with globals := m.globals ++ [name] }, name)

/-! ### Names -/

theorem uniqueName_of_not_mem {taken : List String} {name : String} (h : name ∉ taken) :
    uniqueName taken name = name := by
  simp [uniqueName, h]

/-- A name that is taken is followed by a number. -/
theorem uniqueName_of_mem {taken : List String} {name : String} (h : name ∈ taken) :
    ∃ k, uniqueName taken name = name ++ "." ++ toString (k + 1) ∧
      uniqueName taken name ∉ taken := by
  have hinjective : Function.Injective fun k : Nat => name ++ "." ++ toString (k + 1) := by
    intro i j heq
    have hlist := congrArg String.toList heq
    simp only [String.toList_append] at hlist
    exact Nat.succ.inj (Naming.toString_toList_inj (List.append_cancel_left hlist))
  obtain ⟨k, hk, hfresh⟩ := Naming.exists_not_mem hinjective taken
  -- so the search among the candidates succeeds
  simp only [uniqueName, h, if_true]
  cases hfind : ((List.range (taken.length + 1)).map fun k => name ++ "." ++ toString (k + 1)).find?
      fun candidate => candidate ∉ taken with
  | none =>
      have hnone := List.find?_eq_none.mp hfind _ (List.mem_map_of_mem hk)
      exact absurd hfresh (by simpa using hnone)
  | some candidate =>
      obtain ⟨k', -, rfl⟩ := List.mem_map.mp (List.mem_of_find?_eq_some hfind)
      exact ⟨k', rfl, by simpa using List.find?_some hfind⟩

/-- A function gets the name it asks for exactly when the name is free. -/
theorem uniqueName_eq_iff {taken : List String} {name : String} :
    uniqueName taken name = name ↔ name ∉ taken := by
  refine ⟨fun heq hmem => ?_, uniqueName_of_not_mem⟩
  obtain ⟨k, -, hfresh⟩ := uniqueName_of_mem hmem
  exact hfresh (heq.symm ▸ hmem)

/-- Giving a function a new body keeps the names. -/
theorem map_name_setFunction {m : Module} {k : Nat} {function function' : Function}
    (hget : m.functions[k]? = some function) (hname : function'.name = function.name) :
    (m.setFunction k function').functions.map Function.name = m.functions.map Function.name := by
  have hnames : (m.functions.map Function.name)[k]? = some function.name := by simp [hget]
  obtain ⟨hk, heq⟩ := List.getElem?_eq_some_iff.mp hnames
  rw [setFunction, List.map_set, hname, ← heq, List.set_getElem_self]

theorem names_setFunction {m : Module} {k : Nat} {function function' : Function}
    (hget : m.functions[k]? = some function) (hname : function'.name = function.name) :
    (m.setFunction k function').names = m.names := by
  rw [names, map_name_setFunction hget hname]
  rfl

theorem getOrInsertGlobal_functions (m : Module) (name : String) :
    (m.getOrInsertGlobal name).1.functions = m.functions ∧
      (m.getOrInsertGlobal name).1.identifier = m.identifier := by
  unfold getOrInsertGlobal
  split <;> exact ⟨rfl, rfl⟩

theorem getOrInsertGlobal_of_not_mem {m : Module} {name : String} (h : name ∉ m.names) :
    (m.getOrInsertGlobal name).2 = name := by
  have hglobal : name ∉ m.globals := fun hmem => h (List.mem_append_right _ hmem)
  simp [getOrInsertGlobal, hglobal, uniqueName, h]

theorem mem_globals_getOrInsertGlobal {m : Module} {name x : String} :
    x ∈ (m.getOrInsertGlobal name).1.globals ↔
      x ∈ m.globals ∨ x = (m.getOrInsertGlobal name).2 := by
  unfold getOrInsertGlobal
  by_cases hglobal : name ∈ m.globals
  · simp only [hglobal, if_true]
    exact ⟨.inl, fun h => h.elim id fun heq => heq ▸ hglobal⟩
  · simp [hglobal]

end Module

end Mull.IR
