import Mull.IR

/-!
# Mutators

A mutator belongs to a kind, has an identifier, and knows where in a function it can be
applied.  Most mutators own a list of low-level mutations from libirm and try each of
them on every selected instruction; the two logical mutators look for a pair of branches
instead.  What a low-level mutation does, and when it can be applied, is up to libirm,
except for the replacement of constant operands.
-/

namespace Mull

inductive MutatorKind where
  | negateMutator | removeVoidFunctionMutator | replaceCallMutator | scalarValueMutator
  | cxxAddToSub | cxxAddAssignToSubAssign | cxxPreIncToPreDec | cxxPostIncToPostDec
  | cxxSubToAdd | cxxSubAssignToAddAssign | cxxPreDecToPreInc | cxxPostDecToPostInc
  | cxxMulToDiv | cxxMulAssignToDivAssign
  | cxxDivToMul | cxxDivAssignToMulAssign
  | cxxRemToDiv | cxxRemAssignToDivAssign
  | cxxBitwiseNotToNoop | cxxUnaryMinusToNoop
  | cxxLShiftToRShift | cxxLShiftAssignToRShiftAssign
  | cxxRShiftToLShift | cxxRShiftAssignToLShiftAssign
  | cxxLogicalAndToOr | cxxLogicalOrToAnd
  | cxxBitwiseOrToAnd | cxxBitwiseOrAssignToAndAssign
  | cxxBitwiseAndToOr | cxxBitwiseAndAssignToOrAssign
  | cxxBitwiseXorToOr | cxxBitwiseXorAssignToOrAssign
  | cxxLessThanToLessOrEqual | cxxLessOrEqualToLessThan
  | cxxGreaterThanToGreaterOrEqual | cxxGreaterOrEqualToGreaterThan
  | cxxGreaterThanToLessOrEqual | cxxGreaterOrEqualToLessThan
  | cxxLessThanToGreaterOrEqual | cxxLessOrEqualToGreaterThan
  | cxxEqualToNotEqual | cxxNotEqualToEqual
  | cxxAssignConst | cxxInitConst
deriving DecidableEq, Repr

namespace Mutators

open IR

/-! ### Low-level mutations -/

/-- Predicates of comparisons. -/
inductive Predicate where
  | icmpEq | icmpNe | icmpSlt | icmpSle | icmpSgt | icmpSge
  | icmpUlt | icmpUle | icmpUgt | icmpUge
  | fcmpOeq | fcmpOne | fcmpOlt | fcmpOle | fcmpOgt | fcmpOge
  | fcmpUeq | fcmpUne | fcmpUlt | fcmpUle | fcmpUgt | fcmpUge
deriving DecidableEq, Repr

/-- The mutations of libirm that the mutators use. -/
inductive IRMutation where
  | addToSub | fAddToFSub | saddWithOverflowToSsubWithOverflow
  | subToAdd | fSubToFAdd | ssubWithOverflowToSaddWithOverflow
  | mulToSDiv | fMulToFDiv
  | fDivToFMul | sDivToMul | uDivToMul
  | fRemToFDiv | sRemToSDiv | uRemToUDiv
  | swapSubOperands | swapFSubOperands
  | shlToLShr | lShrToShl | aShrToShl
  | orToAnd | andToOr | xorToOr | xorToAnd
  | cmp (source target : Predicate)
  | storeIntReplacement (value : Nat) | storeDoubleReplacement (value : Nat)
  | storeFloatReplacement (value : Nat)
  | intCallReplacement (value : Nat) | floatCallReplacement (value : Nat)
  | doubleCallReplacement (value : Nat)
  | removeVoidFunctionCall | removeVoidIntrinsicsCall
  | constIntReplacement (value : Nat) (position : Nat)
  | constFloatReplacement (value : Nat) (position : Nat)
deriving DecidableEq, Repr

def isConstantInt : Operand → Bool
  | .constant (.int ..) => true
  | _ => false

def isConstantFP : Operand → Bool
  | .constant (.float _) => true
  | _ => false

/-- `canMutate`.  A constant is replaced where the operand at that position is one; the
    other mutations are the library's. -/
def canMutate (irm : IRMutation → Instruction → Bool) (mutation : IRMutation)
    (instruction : Instruction) : Bool :=
  match mutation with
  | .constIntReplacement _ position => instruction.operands[position]?.any isConstantInt
  | .constFloatReplacement _ position => instruction.operands[position]?.any isConstantFP
  | mutation => irm mutation instruction

/-! ### Mutators -/

/-- Where a mutator looks. -/
inductive Search where
  /-- every low-level mutation on every selected instruction -/
  | lowLevel (mutators : List IRMutation)
  /-- the same, if the first operand is zero -/
  | lowLevelOnZero (mutators : List IRMutation)
  /-- every branch that is the first of an `&&` -/
  | logicalAnd
  /-- every branch that is the first of an `||` -/
  | logicalOr
deriving DecidableEq, Repr

/-- What the report says about a mutation. -/
inductive Texts where
  | fixed (replacement diagnostics : String)
  | negatedPredicate
  | removedCall
  | replacedCall
deriving DecidableEq, Repr

structure Mutator where
  mutatorKind : MutatorKind
  uniqueIdentifier : String
  description : String
  search : Search
  texts : Texts
deriving DecidableEq, Repr

def describePredicate : Predicate → String
  | .fcmpOeq | .fcmpUeq | .icmpEq => "=="
  | .fcmpOne | .fcmpUne | .icmpNe => "!="
  | _ => "TODO"

/-- The replacement and the diagnostics of a point; `calledFunction` is the name of the
    function that a call calls, empty if it has none. -/
def Texts.render (texts : Texts) (mutation : Option IRMutation) (calledFunction : String) :
    String × String :=
  match texts, mutation with
  | .fixed replacement diagnostics, _ => (replacement, diagnostics)
  | .negatedPredicate, some (.cmp source target) =>
      (describePredicate target, "Negate Condition: replaced " ++ describePredicate source ++
        " with " ++ describePredicate target)
  | .negatedPredicate, _ => ("", "")
  | .removedCall, _ => ("🚫", "Remove Void Call: removed " ++ calledFunction)
  | .replacedCall, _ =>
      ("42", "Replace Call: replaced a call to function " ++ calledFunction ++ " with 42")

/-! ### The mutators of the factory -/

def negateConditionMutator : Mutator where
  mutatorKind := .negateMutator
  uniqueIdentifier := "negate_mutator"
  description := "Negates conditionals !x to x and x to !x"
  search := .lowLevel
    [.cmp .icmpEq .icmpNe, .cmp .fcmpOeq .fcmpOne, .cmp .fcmpUeq .fcmpUne,
      .cmp .icmpNe .icmpEq, .cmp .fcmpOne .fcmpOeq, .cmp .fcmpUne .fcmpUeq]
  texts := .negatedPredicate

def replaceCallMutator : Mutator where
  mutatorKind := .replaceCallMutator
  uniqueIdentifier := "replace_call_mutator"
  description := "Replaces call to a function with 42"
  search := .lowLevel [.intCallReplacement 42, .floatCallReplacement 42, .doubleCallReplacement 42]
  texts := .replacedCall

def removeVoidFunctionMutator : Mutator where
  mutatorKind := .removeVoidFunctionMutator
  uniqueIdentifier := "remove_void_function_mutator"
  description := "Removes calls to a function returning void"
  search := .lowLevel [.removeVoidFunctionCall, .removeVoidIntrinsicsCall]
  texts := .removedCall

/-- The constants at the first five operands. -/
def scalarValueMutator : Mutator where
  mutatorKind := .scalarValueMutator
  uniqueIdentifier := "scalar_value_mutator"
  description := "Replaces zeros with 42, and non-zeros with 0"
  search := .lowLevel ((List.range 5).flatMap fun i =>
    [.constIntReplacement 42 i, .constFloatReplacement 42 i])
  texts := .fixed "0 or 42" "Replacing scalar with 0 or 42"

def trivialCXXMutator (mutators : List IRMutation) (kind : MutatorKind)
    (id description replacement diagnostics : String) : Mutator :=
  ⟨kind, id, description, .lowLevel mutators, .fixed replacement diagnostics⟩

def getAddToSub : List IRMutation :=
  [.addToSub, .fAddToFSub, .saddWithOverflowToSsubWithOverflow]

def getSubToAdd : List IRMutation :=
  [.subToAdd, .fSubToFAdd, .ssubWithOverflowToSaddWithOverflow]

/-- Decrements are lowered to the addition of -1. -/
def getDecToInc : List IRMutation :=
  [.subToAdd, .fSubToFAdd, .ssubWithOverflowToSaddWithOverflow, .addToSub]

def getMulToDiv : List IRMutation := [.mulToSDiv, .fMulToFDiv]

def getDivToMul : List IRMutation := [.fDivToFMul, .sDivToMul, .uDivToMul]

def getRemToDiv : List IRMutation := [.fRemToFDiv, .sRemToSDiv, .uRemToUDiv]

def getBitNotToNoop : List IRMutation := [.xorToAnd]

def addToSub : Mutator :=
  trivialCXXMutator getAddToSub .cxxAddToSub "cxx_add_to_sub" "Replaces + with -" "-"
    "Replaced + with -"

def addAssignToSubAssign : Mutator :=
  trivialCXXMutator getAddToSub .cxxAddAssignToSubAssign "cxx_add_assign_to_sub_assign"
    "Replaces += with -=" "-=" "Replaced += with -="

def postIncToPostDec : Mutator :=
  trivialCXXMutator getAddToSub .cxxPostIncToPostDec "cxx_post_inc_to_post_dec"
    "Replaces x++ with x--" "--" "Replaced x++ with x--"

def preIncToPreDec : Mutator :=
  trivialCXXMutator getAddToSub .cxxPreIncToPreDec "cxx_pre_inc_to_pre_dec"
    "Replaces ++x with --x" "--" "Replaced ++x with --x"

def subToAdd : Mutator :=
  trivialCXXMutator getSubToAdd .cxxSubToAdd "cxx_sub_to_add" "Replaces - with +" "+"
    "Replaced - with +"

def subAssignToAddAssign : Mutator :=
  trivialCXXMutator getSubToAdd .cxxSubAssignToAddAssign "cxx_sub_assign_to_add_assign"
    "Replaces -= with +=" "+=" "Replaced -= with +="

def postDecToPostInc : Mutator :=
  trivialCXXMutator getDecToInc .cxxPostDecToPostInc "cxx_post_dec_to_post_inc"
    "Replaces x-- with x++" "++" "Replaced x-- with x++"

def preDecToPreInc : Mutator :=
  trivialCXXMutator getDecToInc .cxxPreDecToPreInc "cxx_pre_dec_to_pre_inc"
    "Replaces --x with ++x" "++" "Replaced --x with ++x"

def mulToDiv : Mutator :=
  trivialCXXMutator getMulToDiv .cxxMulToDiv "cxx_mul_to_div" "Replaces * with /" "/"
    "Replaced * with /"

def mulAssignToDivAssign : Mutator :=
  trivialCXXMutator getMulToDiv .cxxMulAssignToDivAssign "cxx_mul_assign_to_div_assign"
    "Replaces *= with /=" "/=" "Replaced *= with /="

def divToMul : Mutator :=
  trivialCXXMutator getDivToMul .cxxDivToMul "cxx_div_to_mul" "Replaces / with *" "*"
    "Replaced / with *"

def divAssignToMulAssign : Mutator :=
  trivialCXXMutator getDivToMul .cxxDivAssignToMulAssign "cxx_div_assign_to_mul_assign"
    "Replaces /= with *=" "*=" "Replaced /= with *="

def remToDiv : Mutator :=
  trivialCXXMutator getRemToDiv .cxxRemToDiv "cxx_rem_to_div" "Replaces % with /" "/"
    "Replaced % with /"

def remAssignToDivAssign : Mutator :=
  trivialCXXMutator getRemToDiv .cxxRemAssignToDivAssign "cxx_rem_assign_to_div_assign"
    "Replaces %= with /=" "/=" "Replaced %= with /="

def bitwiseNotToNoop : Mutator :=
  trivialCXXMutator getBitNotToNoop .cxxBitwiseNotToNoop "cxx_bitwise_not_to_noop"
    "Replaces ~x with x" "" "Replaced ~x with x"

def unaryMinusToNoop : Mutator where
  mutatorKind := .cxxUnaryMinusToNoop
  uniqueIdentifier := "cxx_minus_to_noop"
  description := "Replaces -x with x"
  search := .lowLevelOnZero [.swapSubOperands, .swapFSubOperands]
  texts := .fixed "" "Replaced -x with x"

def getLLShiftToLRShift : List IRMutation := [.shlToLShr]

def getRShiftToLShift : List IRMutation := [.lShrToShl, .aShrToShl]

def getOrToAnd : List IRMutation := [.orToAnd]

def getAndToOr : List IRMutation := [.andToOr]

def getXorToOr : List IRMutation := [.xorToOr]

def lShiftToRShift : Mutator :=
  trivialCXXMutator getLLShiftToLRShift .cxxLShiftToRShift "cxx_lshift_to_rshift"
    "Replaces << with >>" ">>" "Replaced << with >>"

def lShiftAssignToRShiftAssign : Mutator :=
  trivialCXXMutator getLLShiftToLRShift .cxxLShiftAssignToRShiftAssign
    "cxx_lshift_assign_to_rshift_assign" "Replaces <<= with >>=" ">>=" "Replaced <<= with >>="

def rShiftToLShift : Mutator :=
  trivialCXXMutator getRShiftToLShift .cxxRShiftToLShift "cxx_rshift_to_lshift"
    "Replaces << with >>" ">>" "Replaced >> with <<"

def rShiftAssignToLShiftAssign : Mutator :=
  trivialCXXMutator getRShiftToLShift .cxxRShiftAssignToLShiftAssign
    "cxx_rshift_assign_to_lshift_assign" "Replaces >>= with <<=" "<<=" "Replaced >>= with <<="

def bitwiseOrToAnd : Mutator :=
  trivialCXXMutator getOrToAnd .cxxBitwiseOrToAnd "cxx_or_to_and" "Replaces | with &" "&"
    "Replaced | with &"

def orAssignToAndAssign : Mutator :=
  trivialCXXMutator getOrToAnd .cxxBitwiseOrAssignToAndAssign "cxx_or_assign_to_and_assign"
    "Replaces |= with &=" "&=" "Replaced |= with &="

def bitwiseAndToOr : Mutator :=
  trivialCXXMutator getAndToOr .cxxBitwiseAndToOr "cxx_and_to_or" "Replaces & with |" "|"
    "Replaced & with |"

def andAssignToOrAssign : Mutator :=
  trivialCXXMutator getAndToOr .cxxBitwiseAndAssignToOrAssign "cxx_and_assign_to_or_assign"
    "Replaces &= with |=" "|=" "Replaced &= with |="

def xorToOr : Mutator :=
  trivialCXXMutator getXorToOr .cxxBitwiseXorToOr "cxx_xor_to_or" "Replaces ^ with |" "|"
    "Replaced ^ with |"

def xorAssignToOrAssign : Mutator :=
  trivialCXXMutator getXorToOr .cxxBitwiseXorAssignToOrAssign "cxx_xor_assign_to_or_assign"
    "Replaces ^= with |=" "|=" "Replaced ^= with |="

def getLessThanToLessOrEqual : List IRMutation :=
  [.cmp .icmpSlt .icmpSle, .cmp .icmpUlt .icmpUle, .cmp .fcmpOlt .fcmpOle, .cmp .fcmpUlt .fcmpUle]

def lessThanToLessOrEqual : Mutator :=
  trivialCXXMutator getLessThanToLessOrEqual .cxxLessThanToLessOrEqual "cxx_lt_to_le"
    "Replaces < with <=" "<=" "Replaced < with <="

def getLessOrEqualToLessThan : List IRMutation :=
  [.cmp .icmpSle .icmpSlt, .cmp .icmpUle .icmpUlt, .cmp .fcmpOle .fcmpOlt, .cmp .fcmpUle .fcmpUlt]

def lessOrEqualToLessThan : Mutator :=
  trivialCXXMutator getLessOrEqualToLessThan .cxxLessOrEqualToLessThan "cxx_le_to_lt"
    "Replaces <= with <" "<" "Replaced <= with <"

def getGreaterThanToGreaterOrEqual : List IRMutation :=
  [.cmp .icmpSgt .icmpSge, .cmp .icmpUgt .icmpUge, .cmp .fcmpOgt .fcmpOge, .cmp .fcmpUgt .fcmpUge]

def greaterThanToGreaterOrEqual : Mutator :=
  trivialCXXMutator getGreaterThanToGreaterOrEqual .cxxGreaterThanToGreaterOrEqual "cxx_gt_to_ge"
    "Replaces > with >=" ">=" "Replaced > with >="

def getGreaterOrEqualToGreaterThan : List IRMutation :=
  [.cmp .icmpSge .icmpSgt, .cmp .icmpUge .icmpUgt, .cmp .fcmpOge .fcmpOgt, .cmp .fcmpUge .fcmpUgt]

def greaterOrEqualToGreaterThan : Mutator :=
  trivialCXXMutator getGreaterOrEqualToGreaterThan .cxxGreaterOrEqualToGreaterThan "cxx_ge_to_gt"
    "Replaces >= with >" ">" "Replaced >= with >"

def getEqualToNotEqual : List IRMutation :=
  [.cmp .icmpEq .icmpNe, .cmp .fcmpOeq .fcmpOne, .cmp .fcmpUeq .fcmpUne]

def equalToNotEqual : Mutator :=
  trivialCXXMutator getEqualToNotEqual .cxxEqualToNotEqual "cxx_eq_to_ne" "Replaces == with !="
    "!=" "Replaced == with !="

def getNotEqualToEqual : List IRMutation :=
  [.cmp .icmpNe .icmpEq, .cmp .fcmpOne .fcmpOeq, .cmp .fcmpUne .fcmpUeq]

def notEqualToEqual : Mutator :=
  trivialCXXMutator getNotEqualToEqual .cxxNotEqualToEqual "cxx_ne_to_eq" "Replaces != with =="
    "==" "Replaced != with =="

def getGreaterThanToLessOrEqual : List IRMutation :=
  [.cmp .icmpSgt .icmpSle, .cmp .icmpUgt .icmpUle, .cmp .fcmpOgt .fcmpOle, .cmp .fcmpUgt .fcmpUle]

def greaterThanToLessOrEqual : Mutator :=
  trivialCXXMutator getGreaterThanToLessOrEqual .cxxGreaterThanToLessOrEqual "cxx_gt_to_le"
    "Replaces > with <=" "<=" "Replaced > with <="

def getGreaterOrEqualToLessThan : List IRMutation :=
  [.cmp .icmpSge .icmpSlt, .cmp .icmpUge .icmpUlt, .cmp .fcmpOge .fcmpOlt, .cmp .fcmpUge .fcmpUlt]

def greaterOrEqualToLessThan : Mutator :=
  trivialCXXMutator getGreaterOrEqualToLessThan .cxxGreaterOrEqualToLessThan "cxx_ge_to_lt"
    "Replaces >= with <" "<" "Replaced >= with <"

def getLessThanToGreaterOrEqual : List IRMutation :=
  [.cmp .icmpSlt .icmpSge, .cmp .icmpUlt .icmpUge, .cmp .fcmpOlt .fcmpOge, .cmp .fcmpUlt .fcmpUge]

def lessThanToGreaterOrEqual : Mutator :=
  trivialCXXMutator getLessThanToGreaterOrEqual .cxxLessThanToGreaterOrEqual "cxx_lt_to_ge"
    "Replaces < with >=" ">=" "Replaced < with >="

def getLessOrEqualToGreaterThan : List IRMutation :=
  [.cmp .icmpSle .icmpSgt, .cmp .icmpUle .icmpUgt, .cmp .fcmpOle .fcmpOgt, .cmp .fcmpUle .fcmpUgt]

def lessOrEqualToGreaterThan : Mutator :=
  trivialCXXMutator getLessOrEqualToGreaterThan .cxxLessOrEqualToGreaterThan "cxx_le_to_gt"
    "Replaces <= with >" ">" "Replaced <= with >"

def getNumberMutators : List IRMutation :=
  [.storeIntReplacement 42, .storeDoubleReplacement 42, .storeFloatReplacement 42]

def numberAssignConst : Mutator :=
  trivialCXXMutator getNumberMutators .cxxAssignConst "cxx_assign_const"
    "Replaces 'a = b' with 'a = 42'" "42" "Replaced 'a = b' with 'a = 42'"

def numberInitConst : Mutator :=
  trivialCXXMutator getNumberMutators .cxxInitConst "cxx_init_const"
    "Replaces 'T a = b' with 'T a = 42'" "42" "Replaced 'T a = b' with 'T a = 42'"

def logicalAndToOr : Mutator where
  mutatorKind := .cxxLogicalAndToOr
  uniqueIdentifier := "cxx_logical_and_to_or"
  description := "Replaces && with ||"
  search := .logicalAnd
  texts := .fixed "||" "AND-OR Replacement"

def logicalOrToAnd : Mutator where
  mutatorKind := .cxxLogicalOrToAnd
  uniqueIdentifier := "cxx_logical_or_to_and"
  description := "Replaces || with &&"
  search := .logicalOr
  texts := .fixed "&&" "OR-AND Replacement"

/-! ### Pairs of branches -/

/-- A conditional branch with its position. -/
structure ConditionalBranch where
  block : Nat
  position : Nat
  ifTrue : Nat
  ifFalse : Nat
deriving DecidableEq, Repr

/-- The conditional branches of a function, in order. -/
def conditionalBranches (blocks : List Block) : List ConditionalBranch :=
  blocks.zipIdx.flatMap fun (block, b) =>
    block.zipIdx.filterMap fun (instruction, i) =>
      match instruction with
      | .condBr _ ifTrue ifFalse => some ⟨b, i, ifTrue, ifFalse⟩
      | _ => none

/-- The incoming blocks of the PHI nodes of a block. -/
def phiIncomingBlocks (blocks : List Block) (b : Nat) : List Nat :=
  (blocks[b]?.getD []).flatMap fun
    | .phi incoming _ => incoming.map Prod.snd
    | _ => []

inductive LogicalPattern where
  | pattern1 | pattern2 | pattern3
deriving DecidableEq, Repr

/-- The pattern that a later branch makes with `branch`.  The two logical mutators differ
    in the side at which the branches meet. -/
def candidatePattern (side otherSide : ConditionalBranch → Nat) (blocks : List Block)
    (branch candidate : ConditionalBranch) : Option LogicalPattern :=
  if side candidate = side branch then some .pattern1
  else if side candidate = otherSide branch then some .pattern2
  else if (phiIncomingBlocks blocks candidate.block).any (· ≠ branch.block) ∧
      candidate.block = side branch then some .pattern3
  else none

/-- The first branch after `branch` that makes a pattern with it. -/
def findPossibleMutationInBranch (side otherSide : ConditionalBranch → Nat) (blocks : List Block)
    (branch : ConditionalBranch) : Option (LogicalPattern × ConditionalBranch) :=
  ((conditionalBranches blocks).dropWhile (· ≠ branch)).tail.findSome? fun candidate =>
    (candidatePattern side otherSide blocks branch candidate).map fun pattern => (pattern, candidate)

namespace LogicalAndToOr

def findPossibleMutationInBranch (blocks : List Block) (branch : ConditionalBranch) :
    Option (LogicalPattern × ConditionalBranch) :=
  Mutators.findPossibleMutationInBranch (·.ifFalse) (·.ifTrue) blocks branch

end LogicalAndToOr

namespace LogicalOrToAnd

def findPossibleMutationInBranch (blocks : List Block) (branch : ConditionalBranch) :
    Option (LogicalPattern × ConditionalBranch) :=
  Mutators.findPossibleMutationInBranch (·.ifTrue) (·.ifFalse) blocks branch

end LogicalOrToAnd

end Mutators

end Mull
