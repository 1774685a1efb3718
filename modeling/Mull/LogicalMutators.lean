import Mathlib.Data.List.Sigma
import Mull.Callbacks
import Mull.MutationPoint

/-!
# Applying the logical mutators

A logical mutator looks for a later branch that meets the given one, and then rewires the
given branch, so that an `&&` becomes an `||` or the other way round.  Depending on where
the branches meet there are three patterns.  In the first two the branch gets a new target
and the PHI nodes there an entry for it; in the third the targets are exchanged and the
first constant of a PHI node is flipped.

The two mutators are written out twice in the source.  Here they are two sets of rules for
one procedure; the rules say which operands are compared and how the new branch is made.
-/

namespace Mull.Mutators

open IR MutationPoints Callbacks

/-! ### Rewriting -/

def isPhi : Instruction → Bool
  | .phi .. => true
  | _ => false

/-- `addIncoming`: the value that comes from block `source` also comes from `newBlock`. -/
def addIncoming (source newBlock : Nat) : Instruction → Instruction
  | .phi incoming dest =>
      match incoming.find? fun entry => entry.2 = source with
      | none => .phi incoming dest
      | some entry => .phi (incoming ++ [(entry.1, newBlock)]) dest
  | instruction => instruction

/-- The PHI nodes at the start of a block. -/
def addIncomings (source newBlock : Nat) : Block → Block
  | [] => []
  | instruction :: block =>
      if isPhi instruction then
        addIncoming source newBlock instruction :: addIncomings source newBlock block
      else instruction :: block

/-- The successors of `getTerminator`; `none` if the block has no terminator. -/
def successors? (block : Block) : Option (List Nat) :=
  block.getLast?.bind fun instruction =>
    if instruction.isTerminator then some instruction.targets else none

/-- The loop over the successors of the second branch: where the new target is one of them,
    its PHI nodes accept a jump from the first branch. -/
def updatePhis (first second : ConditionalBranch) (newTarget : Nat) (blocks : List Block) :
    Option (List Block) := do
  let block ← blocks[second.block]?
  let successors ← successors? block
  some (successors.foldl (fun blocks successor =>
    if newTarget ≠ successor then blocks
    else blocks.modify successor (addIncomings second.block first.block)) blocks)

/-- A new branch in place of `branch`. -/
def replaceBranch (branch : ConditionalBranch) (condition : Operand) (targets : Nat × Nat)
    (blocks : List Block) : List Block :=
  blocks.modify branch.block fun block =>
    block.set branch.position (.condBr condition targets.1 targets.2)

/-- A constant becomes the `i1` constant of the opposite truth value. -/
def flipConstant : Operand → Option Operand
  | .constant (.int _ value) => some (.constant (.int 1 (if value ≠ 0 then 0 else 1)))
  | _ => none

/-- The first operand of the first PHI node is flipped; `none` if there is no PHI node or
    the operand is no constant. -/
def flipFirstPhi : Block → Option Block
  | [] => none
  | .phi incoming dest :: block => do
      let entry ← incoming.head?
      let newValue ← flipConstant entry.1
      some (.phi ((newValue, entry.2) :: incoming.tail) dest :: block)
  | instruction :: block => (flipFirstPhi block).map (instruction :: ·)

/-- What the two mutators do not have in common.  The pairs are the targets for true and
    for false. -/
structure Rules where
  /-- the side at which the branches meet -/
  side : ConditionalBranch → Nat
  otherSide : ConditionalBranch → Nat
  pattern1 : ConditionalBranch → ConditionalBranch → Nat × Nat
  pattern2 : ConditionalBranch → ConditionalBranch → Nat × Nat
  /-- the target of the second branch that gets a new predecessor -/
  newTarget : ConditionalBranch → Nat

namespace Rules

variable (rules : Rules)

def findPossibleMutationInBranch (blocks : List Block) (branch : ConditionalBranch) :
    Option (LogicalPattern × ConditionalBranch) :=
  Mutators.findPossibleMutationInBranch rules.side rules.otherSide blocks branch

/-- `applyMutation` once the pattern is known; `none` is a failed assertion. -/
def applyPattern (blocks : List Block) (first : ConditionalBranch) (condition : Operand) :
    LogicalPattern × ConditionalBranch → Option (List Block)
  | (.pattern1, second) => updatePhis first second (rules.newTarget second)
      (replaceBranch first condition (rules.pattern1 first second) blocks)
  | (.pattern2, second) => updatePhis first second (rules.newTarget second)
      (replaceBranch first condition (rules.pattern2 first second) blocks)
  | (.pattern3, second) => do
      let block ← blocks[second.block]?
      let flipped ← flipFirstPhi block
      some (replaceBranch first condition (first.ifFalse, first.ifTrue)
        (blocks.set second.block flipped))

def applyMutation (address : MutationPointAddress) (blocks : List Block) : Option (List Block) :=
  match address.findInstruction blocks with
  | some (.condBr condition ifTrue ifFalse) =>
      let first := ⟨address.basicBlockIndex, address.instructionIndex, ifTrue, ifFalse⟩
      match rules.findPossibleMutationInBranch blocks first with
      | none => some blocks
      | some found => rules.applyPattern blocks first condition found
  | _ => none

end Rules

/-! In LLVM the operands of a conditional branch are the condition, the target for false
(right) and the target for true (left). -/

namespace LogicalAndToOr

def rules : Rules where
  side := ConditionalBranch.ifFalse
  otherSide := ConditionalBranch.ifTrue
  pattern1 first second := (second.ifTrue, first.ifTrue)
  pattern2 first second := (first.ifFalse, second.ifTrue)
  newTarget := ConditionalBranch.ifTrue

def applyMutation (address : MutationPointAddress) (blocks : List Block) : Option (List Block) :=
  rules.applyMutation address blocks

end LogicalAndToOr

namespace LogicalOrToAnd

def rules : Rules where
  side := ConditionalBranch.ifTrue
  otherSide := ConditionalBranch.ifFalse
  pattern1 first second := (first.ifFalse, second.ifFalse)
  pattern2 first second := (second.ifFalse, first.ifTrue)
  newTarget := ConditionalBranch.ifFalse

def applyMutation (address : MutationPointAddress) (blocks : List Block) : Option (List Block) :=
  rules.applyMutation address blocks

end LogicalOrToAnd

/-! ### The loop over the successors -/

/-- The loop does the same as many times as the new target is a successor. -/
theorem foldl_modify_eq_iterate (successors : List Nat) (newTarget : Nat) (f : Block → Block)
    (blocks : List Block) :
    successors.foldl (fun blocks successor =>
        if newTarget ≠ successor then blocks else blocks.modify successor f) blocks =
      (fun blocks : List Block => blocks.modify newTarget f)^[successors.count newTarget] blocks := by
  induction successors generalizing blocks with
  | nil => rfl
  | cons successor successors ih =>
      rw [List.foldl_cons, ih, List.count_cons]
      by_cases h : newTarget = successor
      · subst h
        simp
      · simp [h, Ne.symm h]

theorem updatePhis_eq (first second : ConditionalBranch) (newTarget : Nat) (blocks : List Block) :
    updatePhis first second newTarget blocks =
      (blocks[second.block]?.bind successors?).map fun successors =>
        (fun blocks : List Block => blocks.modify newTarget
          (addIncomings second.block first.block))^[successors.count newTarget] blocks := by
  unfold updatePhis
  cases blocks[second.block]? with
  | none => rfl
  | some block =>
      cases hsuccessors : successors? block with
      | none => simp [hsuccessors]
      | some successors =>
          simp only [Option.bind_eq_bind, Option.bind_some, hsuccessors, Option.map_some,
            foldl_modify_eq_iterate]

/-! ### Duality -/

/-- The targets for true and for false are exchanged. -/
def dualInstruction : Instruction → Instruction
  | .condBr condition ifTrue ifFalse => .condBr condition ifFalse ifTrue
  | instruction => instruction

def dualBlock (block : Block) : Block := block.map dualInstruction

def dual (blocks : List Block) : List Block := blocks.map dualBlock

def ConditionalBranch.dual (branch : ConditionalBranch) : ConditionalBranch :=
  ⟨branch.block, branch.position, branch.ifFalse, branch.ifTrue⟩

@[simp]
theorem ConditionalBranch.dual_dual (branch : ConditionalBranch) : branch.dual.dual = branch := rfl

theorem ConditionalBranch.dual_injective : Function.Injective ConditionalBranch.dual :=
  Function.LeftInverse.injective dual_dual

@[simp]
theorem dualInstruction_dualInstruction (instruction : Instruction) :
    dualInstruction (dualInstruction instruction) = instruction := by
  cases instruction <;> rfl

@[simp]
theorem isPhi_dualInstruction (instruction : Instruction) :
    isPhi (dualInstruction instruction) = isPhi instruction := by
  cases instruction <;> rfl

@[simp]
theorem isTerminator_dualInstruction (instruction : Instruction) :
    (dualInstruction instruction).isTerminator = instruction.isTerminator := by
  cases instruction <;> rfl

theorem targets_dualInstruction_perm (instruction : Instruction) :
    (dualInstruction instruction).targets.Perm instruction.targets := by
  cases instruction <;> first | exact List.Perm.refl _ | exact List.Perm.swap _ _ _

theorem dualInstruction_addIncoming (source newBlock : Nat) (instruction : Instruction) :
    addIncoming source newBlock (dualInstruction instruction) =
      dualInstruction (addIncoming source newBlock instruction) := by
  cases instruction with
  | phi incoming dest =>
      simp only [dualInstruction, addIncoming]
      cases incoming.find? fun entry => entry.2 = source <;> rfl
  | _ => rfl

theorem dualBlock_addIncomings (source newBlock : Nat) (block : Block) :
    addIncomings source newBlock (dualBlock block) =
      dualBlock (addIncomings source newBlock block) := by
  induction block with
  | nil => rfl
  | cons instruction block ih =>
      simp only [dualBlock, List.map_cons, addIncomings, isPhi_dualInstruction] at ih ⊢
      by_cases hphi : isPhi instruction
      · rw [if_pos hphi, if_pos hphi, ih, dualInstruction_addIncoming, List.map_cons]
      · rw [if_neg hphi, if_neg hphi, List.map_cons]

theorem dualBlock_flipFirstPhi (block : Block) :
    flipFirstPhi (dualBlock block) = (flipFirstPhi block).map dualBlock := by
  induction block with
  | nil => rfl
  | cons instruction block ih =>
      cases instruction with
      | phi incoming dest =>
          simp only [dualBlock, List.map_cons, dualInstruction, flipFirstPhi]
          cases incoming with
          | nil => rfl
          | cons entry incoming =>
              cases hflip : flipConstant entry.1 <;> simp [hflip, dualBlock, dualInstruction]
      | _ =>
          simp only [dualBlock, List.map_cons, dualInstruction, flipFirstPhi] at ih ⊢
          rw [ih, Option.map_map, Option.map_map]
          rfl

theorem successors?_dualBlock (block : Block) :
    (successors? (dualBlock block) = none ∧ successors? block = none) ∨
      ∃ successors successors', successors? (dualBlock block) = some successors ∧
        successors? block = some successors' ∧ successors.Perm successors' := by
  simp only [successors?, dualBlock, List.getLast?_map]
  cases block.getLast? with
  | none => exact .inl ⟨rfl, rfl⟩
  | some instruction =>
      simp only [Option.map_some, Option.bind_some, isTerminator_dualInstruction]
      cases instruction.isTerminator with
      | false => exact .inl ⟨rfl, rfl⟩
      | true => exact .inr ⟨_, _, rfl, rfl, targets_dualInstruction_perm instruction⟩

theorem getElem?_dual (blocks : List Block) (b : Nat) :
    (dual blocks)[b]? = blocks[b]?.map dualBlock := by
  simp [dual]

theorem dual_modify {f g : Block → Block} (h : ∀ block, f (dualBlock block) = dualBlock (g block))
    (blocks : List Block) (b : Nat) : (dual blocks).modify b f = dual (blocks.modify b g) := by
  refine List.ext_getElem? fun k => ?_
  simp only [List.getElem?_modify, getElem?_dual]
  cases blocks[k]? with
  | none => rfl
  | some block =>
      by_cases hk : b = k <;> simp [hk, h]

theorem dual_updatePhis (first second : ConditionalBranch) (newTarget : Nat)
    (blocks : List Block) :
    updatePhis first.dual second.dual newTarget (dual blocks) =
      (updatePhis first second newTarget blocks).map dual := by
  rw [updatePhis_eq, updatePhis_eq]
  have hiterate : ∀ (n : Nat) (blocks : List Block),
      (fun blocks : List Block => blocks.modify newTarget
          (addIncomings second.block first.block))^[n] (dual blocks) =
        dual ((fun blocks : List Block => blocks.modify newTarget
          (addIncomings second.block first.block))^[n] blocks) := by
    intro n
    induction n with
    | zero => exact fun _ => rfl
    | succ n ih =>
        intro blocks
        rw [Function.iterate_succ_apply, Function.iterate_succ_apply,
          dual_modify (dualBlock_addIncomings _ _), ih]
  simp only [ConditionalBranch.dual, getElem?_dual]
  cases blocks[second.block]? with
  | none => rfl
  | some block =>
      simp only [Option.map_some, Option.bind_some]
      rcases successors?_dualBlock block with
        ⟨hnone, hnone'⟩ | ⟨successors, successors', hdual, hblock, hperm⟩
      · rw [hnone, hnone']
        rfl
      · rw [hdual, hblock]
        simp only [Option.map_some, hperm.count_eq, hiterate]

theorem dual_replaceBranch (first : ConditionalBranch) (condition : Operand) (targets : Nat × Nat)
    (blocks : List Block) :
    replaceBranch first.dual condition targets (dual blocks) =
      dual (replaceBranch first condition targets.swap blocks) := by
  refine dual_modify (fun block => ?_) blocks first.block
  simp [dualBlock, ConditionalBranch.dual, List.map_set, dualInstruction]

@[simp]
theorem dual_dual (blocks : List Block) : dual (dual blocks) = blocks := by
  have hinstruction : dualInstruction ∘ dualInstruction = id :=
    funext dualInstruction_dualInstruction
  have hblock : dualBlock ∘ dualBlock = id := by
    funext block
    simp [dualBlock, hinstruction]
  simp [dual, hblock]

theorem map_dual_map_dual (result : Option (List Block)) :
    (result.map dual).map dual = result := by
  cases result <;> simp

theorem conditionalBranches_dual (blocks : List Block) :
    conditionalBranches (dual blocks) =
      (conditionalBranches blocks).map ConditionalBranch.dual := by
  simp only [conditionalBranches, dual, List.zipIdx_map, List.flatMap_map, List.map_flatMap]
  refine List.flatMap_congr fun entry _ => ?_
  obtain ⟨block, b⟩ := entry
  simp only [Prod.map_apply, dualBlock, List.zipIdx_map, List.filterMap_map, List.map_filterMap]
  refine List.filterMap_congr fun entry _ => ?_
  obtain ⟨instruction, i⟩ := entry
  cases instruction <;> rfl

theorem phiIncomingBlocks_dual (blocks : List Block) (b : Nat) :
    phiIncomingBlocks (dual blocks) b = phiIncomingBlocks blocks b := by
  have hblock : (dual blocks)[b]?.getD [] = dualBlock (blocks[b]?.getD []) := by
    rw [getElem?_dual]
    cases blocks[b]? <;> rfl
  rw [phiIncomingBlocks, hblock, dualBlock, List.flatMap_map]
  refine List.flatMap_congr fun instruction _ => ?_
  cases instruction <;> rfl

theorem findPossibleMutationInBranch_dual (blocks : List Block) (branch : ConditionalBranch) :
    LogicalAndToOr.findPossibleMutationInBranch (dual blocks) branch.dual =
      (LogicalOrToAnd.findPossibleMutationInBranch blocks branch).map
        (Prod.map id ConditionalBranch.dual) := by
  have hne : (fun candidate => decide (candidate ≠ branch.dual)) ∘ ConditionalBranch.dual =
      fun candidate => decide (candidate ≠ branch) := by
    funext candidate
    simp [ConditionalBranch.dual_injective.eq_iff]
  have hpattern : ∀ candidate : ConditionalBranch,
      candidatePattern (·.ifFalse) (·.ifTrue) (dual blocks) branch.dual candidate.dual =
        candidatePattern (·.ifTrue) (·.ifFalse) blocks branch candidate := by
    intro candidate
    simp only [candidatePattern, phiIncomingBlocks_dual]
    rfl
  simp only [LogicalAndToOr.findPossibleMutationInBranch,
    LogicalOrToAnd.findPossibleMutationInBranch, findPossibleMutationInBranch,
    conditionalBranches_dual, List.dropWhile_map, hne, ← List.map_tail, List.findSome?_map,
    List.map_findSome?]
  congr 1
  funext candidate
  simp only [Function.comp_apply, hpattern]
  cases candidatePattern (·.ifTrue) (·.ifFalse) blocks branch candidate <;> rfl

theorem findInstruction_dual (address : MutationPointAddress) (blocks : List Block) :
    address.findInstruction (dual blocks) = (address.findInstruction blocks).map dualInstruction := by
  simp only [MutationPointAddress.findInstruction, getElem?_dual]
  cases blocks[address.basicBlockIndex]? with
  | none => rfl
  | some block => simp [dualBlock]

theorem applyPattern_dual (blocks : List Block) (first : ConditionalBranch) (condition : Operand)
    (found : LogicalPattern × ConditionalBranch) :
    LogicalAndToOr.rules.applyPattern (dual blocks) first.dual condition
        (found.map id ConditionalBranch.dual) =
      (LogicalOrToAnd.rules.applyPattern blocks first condition found).map dual := by
  obtain ⟨pattern, second⟩ := found
  cases pattern with
  | pattern1 =>
      simp only [Rules.applyPattern, Prod.map_apply, id, dual_replaceBranch]
      exact dual_updatePhis first second _ _
  | pattern2 =>
      simp only [Rules.applyPattern, Prod.map_apply, id, dual_replaceBranch]
      exact dual_updatePhis first second _ _
  | pattern3 =>
      simp only [Rules.applyPattern, Prod.map_apply, id, ConditionalBranch.dual, getElem?_dual]
      cases blocks[second.block]? with
      | none => rfl
      | some block =>
          simp only [Option.map_some, Option.bind_eq_bind, Option.bind_some, dualBlock_flipFirstPhi]
          cases flipFirstPhi block with
          | none => rfl
          | some flipped =>
              have hset : (dual blocks).set second.block (dualBlock flipped) =
                  dual (blocks.set second.block flipped) := by
                simp [dual, List.map_set]
              simp only [Option.map_some, Option.bind_some, hset]
              exact congrArg some (dual_replaceBranch first condition _ _)

/-- **The two logical mutators are duals.**  On every function, the one finds what the other
    finds in the function with all conditional branches turned round, and applying it gives
    the same as applying the other there and turning the branches round again. -/
theorem logicalOrToAnd_dual (blocks : List Block) (address : MutationPointAddress)
    (branch : ConditionalBranch) :
    (∀ pattern second,
      LogicalOrToAnd.findPossibleMutationInBranch blocks branch = some (pattern, second) ↔
        LogicalAndToOr.findPossibleMutationInBranch (dual blocks) branch.dual =
          some (pattern, second.dual)) ∧
    (LogicalOrToAnd.findPossibleMutationInBranch blocks branch = none ↔
      LogicalAndToOr.findPossibleMutationInBranch (dual blocks) branch.dual = none) ∧
    LogicalOrToAnd.applyMutation address blocks =
      (LogicalAndToOr.applyMutation address (dual blocks)).map dual := by
  have hfind := findPossibleMutationInBranch_dual blocks
  refine ⟨?_, ?_, ?_⟩
  · intro pattern second
    rw [hfind branch]
    constructor
    · intro h
      rw [h]
      rfl
    · intro h
      obtain ⟨⟨pattern', second'⟩, hsome, heq⟩ := Option.map_eq_some_iff.mp h
      simp only [Prod.map_apply, id, Prod.mk.injEq] at heq
      rw [hsome, heq.1, ConditionalBranch.dual_injective heq.2]
  · rw [hfind branch, Option.map_eq_none_iff]
  · simp only [LogicalOrToAnd.applyMutation, LogicalAndToOr.applyMutation, Rules.applyMutation,
      findInstruction_dual]
    cases address.findInstruction blocks with
    | none => rfl
    | some instruction =>
        cases instruction with
        | condBr condition ifTrue ifFalse =>
            let first : ConditionalBranch :=
              ⟨address.basicBlockIndex, address.instructionIndex, ifTrue, ifFalse⟩
            have hfirst : LogicalAndToOr.rules.findPossibleMutationInBranch (dual blocks)
                first.dual = (LogicalOrToAnd.rules.findPossibleMutationInBranch blocks first).map
                  (Prod.map id ConditionalBranch.dual) := hfind first
            have hdual : (⟨address.basicBlockIndex, address.instructionIndex, ifFalse, ifTrue⟩ :
                ConditionalBranch) = first.dual := rfl
            simp only [Option.map_some, dualInstruction, hdual, hfirst]
            cases LogicalOrToAnd.rules.findPossibleMutationInBranch blocks first with
            | none => simp
            | some found =>
                simp only [Option.map_some, applyPattern_dual]
                exact (map_dual_map_dual _).symm
        | _ => rfl

/-! ### What the search finds -/

theorem mem_conditionalBranches {blocks : List Block} {branch : ConditionalBranch} :
    branch ∈ conditionalBranches blocks ↔ ∃ block condition, blocks[branch.block]? = some block ∧
      block[branch.position]? = some (.condBr condition branch.ifTrue branch.ifFalse) := by
  simp only [conditionalBranches, List.mem_flatMap, List.mem_filterMap, Prod.exists,
    List.mem_zipIdx_iff_getElem?]
  constructor
  · rintro ⟨block, b, hblock, instruction, i, hinstruction, hbranch⟩
    cases instruction with
    | condBr condition ifTrue ifFalse =>
        cases hbranch
        exact ⟨block, condition, hblock, hinstruction⟩
    | _ => cases hbranch
  · rintro ⟨block, condition, hblock, hinstruction⟩
    exact ⟨block, _, hblock, _, _, hinstruction, rfl⟩

theorem pairwise_zipIdx {α : Type} (l : List α) : l.zipIdx.Pairwise fun a b => a.2 ≠ b.2 :=
  List.pairwise_map.mp (List.nodup_zipIdx_map_snd l)

/-- No branch is listed twice. -/
theorem nodup_conditionalBranches (blocks : List Block) : (conditionalBranches blocks).Nodup := by
  refine List.nodup_flatMap.mpr ⟨?_, (pairwise_zipIdx blocks).imp ?_⟩
  · rintro ⟨block, b⟩ -
    refine List.Pairwise.filterMap _ ?_ (pairwise_zipIdx block)
    rintro ⟨instruction, i⟩ ⟨instruction', i'⟩ hne branch hbranch branch' hbranch' rfl
    cases instruction with
    | condBr =>
        cases hbranch
        cases instruction' with
        | condBr =>
            cases hbranch'
            exact hne rfl
        | _ => cases hbranch'
    | _ => cases hbranch
  · rintro ⟨block, b⟩ ⟨block', b'⟩ hne branch hbranch hbranch'
    simp only [List.mem_filterMap] at hbranch hbranch'
    obtain ⟨⟨instruction, i⟩, -, hbranch⟩ := hbranch
    obtain ⟨⟨instruction', i'⟩, -, hbranch'⟩ := hbranch'
    cases instruction with
    | condBr =>
        cases hbranch
        cases instruction' with
        | condBr =>
            cases hbranch'
            exact hne rfl
        | _ => cases hbranch'
    | _ => cases hbranch

/-- The second branch is another branch of the function that makes the pattern. -/
theorem Rules.mem_of_found {rules : Rules} {blocks : List Block} {first second : ConditionalBranch}
    {pattern : LogicalPattern}
    (h : rules.findPossibleMutationInBranch blocks first = some (pattern, second)) :
    second ∈ conditionalBranches blocks ∧ second ≠ first ∧
      candidatePattern rules.side rules.otherSide blocks first second = some pattern := by
  obtain ⟨candidate, hmem, hcandidate⟩ := List.exists_of_findSome?_eq_some h
  obtain ⟨found, hpattern, heq⟩ := Option.map_eq_some_iff.mp hcandidate
  cases heq
  have hsuffix := @List.dropWhile_suffix _ (conditionalBranches blocks)
    fun candidate => decide (candidate ≠ first)
  refine ⟨hsuffix.subset (List.mem_of_mem_tail hmem), ?_, hpattern⟩
  rintro rfl
  -- the list starts with the first branch, and no branch comes twice
  cases hdrop : (conditionalBranches blocks).dropWhile fun candidate => decide (candidate ≠ second)
    with
  | nil =>
      rw [hdrop] at hmem
      cases hmem
  | cons head tail =>
      have hhead : head = second := by
        have hnot := List.head?_dropWhile_not (fun candidate => decide (candidate ≠ second))
          (conditionalBranches blocks)
        rw [hdrop] at hnot
        simpa using hnot
      have hnodup := (nodup_conditionalBranches blocks).sublist hsuffix.sublist
      rw [hdrop] at hnodup hmem
      exact (List.nodup_cons.mp hnodup).1 (hhead ▸ hmem)

theorem mem_phiIncomingBlocks {blocks : List Block} {b source : Nat} :
    source ∈ phiIncomingBlocks blocks b ↔ ∃ block incoming dest, blocks[b]? = some block ∧
      Instruction.phi incoming dest ∈ block ∧ source ∈ incoming.map Prod.snd := by
  unfold phiIncomingBlocks
  cases blocks[b]? with
  | none => simp
  | some block =>
      simp only [Option.getD_some, List.mem_flatMap, Option.some.injEq]
      constructor
      · rintro ⟨instruction, hinstruction, hsource⟩
        cases instruction with
        | phi incoming dest => exact ⟨block, incoming, dest, rfl, hinstruction, hsource⟩
        | _ => cases hsource
      · rintro ⟨_, incoming, dest, rfl, hphi, hsource⟩
        exact ⟨_, hphi, hsource⟩

/-! ### Blocks with one terminator -/

theorem exists_body {block : Block} (h : WellFormedBlock block) {i : Nat}
    {instruction : Instruction} (hi : block[i]? = some instruction)
    (hterminator : instruction.isTerminator = true) :
    ∃ body, block = body ++ [instruction] ∧ i = body.length := by
  obtain ⟨body, terminator, rfl, -, hbody⟩ := h
  rcases Nat.lt_trichotomy i body.length with hlt | rfl | hgt
  · rw [List.getElem?_append_left hlt] at hi
    rw [hbody instruction (List.mem_of_getElem? hi)] at hterminator
    cases hterminator
  · rw [List.getElem?_concat_length] at hi
    cases hi
    exact ⟨body, rfl, rfl⟩
  · rw [List.getElem?_eq_none (by simp; omega)] at hi
    cases hi

theorem successors?_append {body : Block} {terminator : Instruction}
    (h : terminator.isTerminator = true) :
    successors? (body ++ [terminator]) = some terminator.targets := by
  simp [successors?, h]

/-- The successors of a block that ends with the branch. -/
theorem successors?_of_branch {blocks : List Block} (hblocks : ∀ block ∈ blocks, WellFormedBlock block)
    {branch : ConditionalBranch} (h : branch ∈ conditionalBranches blocks) :
    blocks[branch.block]?.bind successors? = some [branch.ifTrue, branch.ifFalse] := by
  obtain ⟨block, condition, hblock, hinstruction⟩ := mem_conditionalBranches.mp h
  obtain ⟨body, rfl, -⟩ := exists_body (hblocks block (List.mem_of_getElem? hblock)) hinstruction rfl
  rw [hblock, Option.bind_some, successors?_append rfl]
  rfl

/-- Different branches are in different blocks. -/
theorem block_ne_of_ne {blocks : List Block} (hblocks : ∀ block ∈ blocks, WellFormedBlock block)
    {first second : ConditionalBranch} (h : first ∈ conditionalBranches blocks)
    (h' : second ∈ conditionalBranches blocks) (hne : second ≠ first) :
    second.block ≠ first.block := by
  intro heq
  obtain ⟨block, condition, hblock, hinstruction⟩ := mem_conditionalBranches.mp h
  obtain ⟨block', condition', hblock', hinstruction'⟩ := mem_conditionalBranches.mp h'
  rw [heq, hblock] at hblock'
  cases hblock'
  have hwf := hblocks block (List.mem_of_getElem? hblock)
  obtain ⟨body, hbody, hposition⟩ := exists_body hwf hinstruction rfl
  obtain ⟨body', hbody', hposition'⟩ := exists_body hwf hinstruction' rfl
  obtain ⟨rfl, hlast⟩ := List.append_inj' (hbody.symm.trans hbody') rfl
  simp only [List.cons.injEq, Instruction.condBr.injEq, and_true] at hlast
  refine hne ?_
  cases first
  cases second
  simp_all

theorem getElem?_replaceBranch {branch : ConditionalBranch} {condition : Operand}
    {targets : Nat × Nat} {blocks : List Block} {b : Nat} (h : b ≠ branch.block) :
    (replaceBranch branch condition targets blocks)[b]? = blocks[b]? := by
  simp [replaceBranch, Ne.symm h]

/-- After the branch has been replaced, the loop over the successors runs. -/
theorem updatePhis_replaceBranch {blocks : List Block}
    (hblocks : ∀ block ∈ blocks, WellFormedBlock block) {first second : ConditionalBranch}
    (h : first ∈ conditionalBranches blocks) (h' : second ∈ conditionalBranches blocks)
    (hne : second ≠ first) (condition : Operand) (targets : Nat × Nat) (newTarget : Nat) :
    updatePhis first second newTarget (replaceBranch first condition targets blocks) =
      some ((fun blocks : List Block => blocks.modify newTarget
        (addIncomings second.block first.block))^[[second.ifTrue, second.ifFalse].count newTarget]
          (replaceBranch first condition targets blocks)) := by
  rw [updatePhis_eq, getElem?_replaceBranch (block_ne_of_ne hblocks h h' hne),
    successors?_of_branch hblocks h']
  rfl

/-! ### PHI nodes with new entries -/

theorem modify_iterate (f : Block → Block) (b n : Nat) (blocks : List Block) :
    (fun blocks : List Block => blocks.modify b f)^[n] blocks = blocks.modify b f^[n] := by
  induction n generalizing blocks with
  | zero => simp
  | succ n ih =>
      rw [Function.iterate_succ_apply, ih, List.modify_modify_eq]
      rfl

theorem isPhi_addIncoming (source newBlock : Nat) (instruction : Instruction) :
    isPhi (addIncoming source newBlock instruction) = isPhi instruction := by
  cases instruction with
  | phi incoming dest =>
      simp only [addIncoming]
      cases incoming.find? fun entry => entry.2 = source <;> rfl
  | _ => rfl

/-- A PHI node that lists the source gets `n` entries. -/
theorem addIncoming_iterate (source newBlock n : Nat) (incoming : List (Operand × Nat))
    (dest : Nat) : (addIncoming source newBlock)^[n] (.phi incoming dest) =
      match incoming.find? fun entry => entry.2 = source with
      | none => .phi incoming dest
      | some entry => .phi (incoming ++ List.replicate n (entry.1, newBlock)) dest := by
  induction n generalizing incoming with
  | zero => cases incoming.find? fun entry => entry.2 = source <;> simp
  | succ n ih =>
      rw [Function.iterate_succ_apply]
      simp only [addIncoming]
      cases hfind : incoming.find? fun entry => entry.2 = source with
      | none => simp only [ih, hfind]
      | some entry =>
          simp only [ih, List.find?_append, hfind, Option.some_or, List.append_assoc,
            List.singleton_append, List.replicate_succ]

theorem addIncoming_of_not_phi (source newBlock : Nat) {instruction : Instruction}
    (h : isPhi instruction = false) : addIncoming source newBlock instruction = instruction := by
  cases instruction with
  | phi => cases h
  | _ => rfl

theorem addIncoming_iterate_of_not_phi (source newBlock n : Nat) {instruction : Instruction}
    (h : isPhi instruction = false) :
    (addIncoming source newBlock)^[n] instruction = instruction := by
  induction n with
  | zero => rfl
  | succ n ih => rw [Function.iterate_succ_apply, addIncoming_of_not_phi source newBlock h, ih]

/-- Only a PHI node that lists the source changes. -/
theorem addIncoming_iterate_eq_iff (source newBlock : Nat) {n : Nat} (hn : n ≠ 0)
    (instruction : Instruction) : (addIncoming source newBlock)^[n] instruction = instruction ↔
      ∀ incoming dest, instruction = .phi incoming dest → source ∉ incoming.map Prod.snd := by
  cases instruction with
  | phi incoming dest =>
      rw [addIncoming_iterate]
      cases hfind : incoming.find? fun entry => entry.2 = source with
      | none =>
          simp only [true_iff]
          rintro _ _ ⟨rfl, rfl⟩ hmem
          obtain ⟨entry, hentry, rfl⟩ := List.mem_map.mp hmem
          simpa using List.find?_eq_none.mp hfind entry hentry
      | some entry =>
          have hmem : source ∈ incoming.map Prod.snd :=
            List.mem_map.mpr ⟨entry, List.mem_of_find?_eq_some hfind, by
              simpa using List.find?_some hfind⟩
          constructor
          · intro heq
            simp only [Instruction.phi.injEq, and_true] at heq
            have hlength := congrArg List.length heq
            rw [List.length_append, List.length_replicate] at hlength
            omega
          · intro hnot
            exact absurd hmem (hnot incoming dest rfl)
  | _ =>
      rw [addIncoming_iterate_of_not_phi _ _ _ rfl]
      simp

theorem addIncomings_eq_map (source newBlock : Nat) {block : Block}
    (h : ∀ instruction ∈ block.dropWhile isPhi, isPhi instruction = false) :
    addIncomings source newBlock block = block.map (addIncoming source newBlock) := by
  induction block with
  | nil => rfl
  | cons instruction block ih =>
      by_cases hphi : isPhi instruction
      · rw [List.dropWhile_cons_of_pos hphi] at h
        rw [addIncomings, if_pos hphi, ih h, List.map_cons]
      · rw [List.dropWhile_cons_of_neg hphi] at h
        rw [addIncomings, if_neg hphi]
        refine (List.map_id _).symm.trans (List.map_congr_left fun i hi => ?_)
        exact (addIncoming_of_not_phi source newBlock (h i hi)).symm

theorem addIncomings_iterate (source newBlock n : Nat) {block : Block}
    (h : ∀ instruction ∈ block.dropWhile isPhi, isPhi instruction = false) :
    (addIncomings source newBlock)^[n] block = block.map (addIncoming source newBlock)^[n] := by
  induction n generalizing block with
  | zero => simp
  | succ n ih =>
      rw [Function.iterate_succ_apply, addIncomings_eq_map source newBlock h, ih, List.map_map]
      · rfl
      · have hphi : isPhi ∘ addIncoming source newBlock = isPhi :=
          funext (isPhi_addIncoming source newBlock)
        rw [List.dropWhile_map, hphi, List.forall_mem_map]
        intro instruction hinstruction
        rw [isPhi_addIncoming]
        exact h instruction hinstruction

/-- Blocks as LLVM's verifier wants them: one terminator, at the end, and PHI nodes only at
    the start. -/
structure VerifiedBlock (block : Block) : Prop where
  wellFormed : WellFormedBlock block
  phisFirst : ∀ instruction ∈ block.dropWhile isPhi, isPhi instruction = false

theorem VerifiedBlock.set_branch {block : Block} (h : VerifiedBlock block) {i : Nat}
    {condition : Operand} {ifTrue ifFalse : Nat}
    (hi : block[i]? = some (.condBr condition ifTrue ifFalse)) (ifTrue' ifFalse' : Nat) :
    VerifiedBlock (block.set i (.condBr condition ifTrue' ifFalse')) := by
  obtain ⟨body, rfl, rfl⟩ := exists_body h.wellFormed hi rfl
  have hset : (body ++ [Instruction.condBr condition ifTrue ifFalse]).set body.length
      (.condBr condition ifTrue' ifFalse') = body ++ [.condBr condition ifTrue' ifFalse'] := by
    simp
  rw [hset]
  constructor
  · obtain ⟨body', terminator, heq, -, hbody⟩ := h.wellFormed
    obtain ⟨rfl, -⟩ := List.append_inj' heq rfl
    exact ⟨body, _, rfl, rfl, hbody⟩
  · have hphis := h.phisFirst
    intro instruction hmem
    rw [List.dropWhile_append] at hphis hmem
    split at hmem
    · rename_i hall
      have : instruction = .condBr condition ifTrue' ifFalse' := by
        simpa [isPhi] using hmem
      rw [this]
      rfl
    · rename_i hall
      rw [if_neg hall] at hphis
      rcases List.mem_append.mp hmem with hmem | hmem
      · exact hphis instruction (List.mem_append_left _ hmem)
      · rw [List.mem_singleton.mp hmem]
        rfl

/-! ### The two sets of rules -/

def logicalRules : List Rules := [LogicalAndToOr.rules, LogicalOrToAnd.rules]

/-- What both have in common: in the first pattern the branch goes on to its other side, in
    the second one to the side, and in both to the other side of the second branch. -/
structure Rules.Lawful (rules : Rules) : Prop where
  sides : ∀ branch : ConditionalBranch,
    [branch.ifTrue, branch.ifFalse].Perm [rules.side branch, rules.otherSide branch]
  newTarget : ∀ branch, rules.newTarget branch = rules.otherSide branch
  pattern1 : ∀ first second, [(rules.pattern1 first second).1, (rules.pattern1 first second).2].Perm
    [rules.otherSide first, rules.otherSide second]
  pattern2 : ∀ first second, [(rules.pattern2 first second).1, (rules.pattern2 first second).2].Perm
    [rules.side first, rules.otherSide second]
  pattern1_same : ∀ first second, rules.pattern1 first second = (first.ifTrue, first.ifFalse) ↔
    first.ifTrue = first.ifFalse ∧ rules.otherSide second = first.ifTrue
  pattern2_same : ∀ first second, rules.pattern2 first second = (first.ifTrue, first.ifFalse) →
    first.ifTrue = first.ifFalse

theorem lawful_of_mem {rules : Rules} (h : rules ∈ logicalRules) : rules.Lawful := by
  have hcases : rules = LogicalAndToOr.rules ∨ rules = LogicalOrToAnd.rules := by
    simpa [logicalRules] using h
  rcases hcases with rfl | rfl
  · exact
      { sides := fun _ => List.Perm.swap _ _ _
        newTarget := fun _ => rfl
        pattern1 := fun _ _ => List.Perm.swap _ _ _
        pattern2 := fun _ _ => List.Perm.refl _
        pattern1_same := fun first second => by
          simp only [LogicalAndToOr.rules, Prod.mk.injEq]
          exact and_comm
        pattern2_same := fun first second h => (congrArg Prod.fst h).symm }
  · exact
      { sides := fun _ => List.Perm.refl _
        newTarget := fun _ => rfl
        pattern1 := fun _ _ => List.Perm.refl _
        pattern2 := fun _ _ => List.Perm.swap _ _ _
        pattern1_same := fun first second => by
          simp only [LogicalOrToAnd.rules, Prod.mk.injEq]
          constructor
          · rintro ⟨h, h'⟩
            exact ⟨h.symm, h'.trans h⟩
          · rintro ⟨h, h'⟩
            exact ⟨h.symm, h'.trans h⟩
        pattern2_same := fun first second h => congrArg Prod.snd h }

/-! ### The rewired function -/

/-- The function with new targets for `first` and `n` new entries in the PHI nodes of
    `newTarget`. -/
def rewire (first second : ConditionalBranch) (condition : Operand) (targets : Nat × Nat)
    (newTarget n : Nat) (blocks : List Block) : List Block :=
  blocks.mapIdx fun b block =>
    let replaced := if first.block = b then
        block.set first.position (.condBr condition targets.1 targets.2)
      else block
    if newTarget = b then replaced.map (addIncoming second.block first.block)^[n] else replaced

section Rewire

variable {blocks : List Block} (hblocks : ∀ block ∈ blocks, VerifiedBlock block)
  {first second : ConditionalBranch} {condition : Operand}

theorem getElem?_rewire (targets : Nat × Nat) (newTarget n b : Nat) :
    (rewire first second condition targets newTarget n blocks)[b]? = blocks[b]?.map fun block =>
      let replaced := if first.block = b then
          block.set first.position (.condBr condition targets.1 targets.2)
        else block
      if newTarget = b then replaced.map (addIncoming second.block first.block)^[n] else replaced := by
  simp [rewire]

include hblocks

theorem updatePhis_eq_rewire {block : Block} (hfirst : blocks[first.block]? = some block)
    (hbranch : block[first.position]? = some (.condBr condition first.ifTrue first.ifFalse))
    (hsecond : second ∈ conditionalBranches blocks) (hne : second ≠ first) (targets : Nat × Nat)
    (newTarget : Nat) :
    updatePhis first second newTarget (replaceBranch first condition targets blocks) =
      some (rewire first second condition targets newTarget
        ([second.ifTrue, second.ifFalse].count newTarget) blocks) := by
  have hmem : first ∈ conditionalBranches blocks :=
    mem_conditionalBranches.mpr ⟨block, condition, hfirst, hbranch⟩
  rw [updatePhis_replaceBranch (fun block h => (hblocks block h).wellFormed) hmem hsecond hne,
    modify_iterate]
  refine congrArg some (List.ext_getElem? fun b => ?_)
  rw [getElem?_rewire, List.getElem?_modify, replaceBranch, List.getElem?_modify]
  cases hb : blocks[b]? with
  | none => simp
  | some block' =>
      have hverified := hblocks block' (List.mem_of_getElem? hb)
      -- the block stays verified, so that all its PHI nodes get the entries
      have hreplaced : VerifiedBlock (if first.block = b then
          block'.set first.position (.condBr condition targets.1 targets.2) else block') := by
        split
        · rename_i heq
          rw [heq, hb] at hfirst
          cases hfirst
          exact hverified.set_branch hbranch _ _
        · exact hverified
      simp only [Option.map_eq_map, Option.map_some, addIncomings_iterate _ _ _ hreplaced.phisFirst]

omit hblocks in
theorem rewire_ne_of_targets {block : Block} (hfirst : blocks[first.block]? = some block)
    (hbranch : block[first.position]? = some (.condBr condition first.ifTrue first.ifFalse))
    {targets : Nat × Nat} (h : targets ≠ (first.ifTrue, first.ifFalse)) (newTarget n : Nat) :
    rewire first second condition targets newTarget n blocks ≠ blocks := by
  intro heq
  have hget := @getElem?_rewire blocks first second condition targets newTarget n first.block
  rw [heq, hfirst] at hget
  simp only [Option.map_some, if_true, Option.some.injEq] at hget
  -- the instruction in the place of the branch is the new one
  have hplace : block[first.position]? = some (.condBr condition targets.1 targets.2) := by
    have hset : (block.set first.position (.condBr condition targets.1 targets.2))[first.position]? =
        some (.condBr condition targets.1 targets.2) := by
      rw [List.getElem?_set_self]
      exact (List.getElem?_eq_some_iff.mp hbranch).1
    rw [hget]
    split
    · rw [List.getElem?_map, hset, Option.map_some, addIncoming_iterate_of_not_phi _ _ _ rfl]
    · exact hset
  rw [hbranch] at hplace
  simp only [Option.some.injEq, Instruction.condBr.injEq, true_and] at hplace
  exact h (Prod.ext hplace.1.symm hplace.2.symm)

omit hblocks in
/-- With the old targets the function changes only if a PHI node gets an entry. -/
theorem rewire_same_eq_iff {block : Block} (hfirst : blocks[first.block]? = some block)
    (hbranch : block[first.position]? = some (.condBr condition first.ifTrue first.ifFalse))
    (newTarget : Nat) {n : Nat} (hn : n ≠ 0) :
    rewire first second condition (first.ifTrue, first.ifFalse) newTarget n blocks = blocks ↔
      second.block ∉ phiIncomingBlocks blocks newTarget := by
  -- the branch is replaced by itself
  have hget : ∀ b, (rewire first second condition (first.ifTrue, first.ifFalse) newTarget n
      blocks)[b]? = blocks[b]?.map fun block =>
        if newTarget = b then block.map (addIncoming second.block first.block)^[n] else block := by
    intro b
    rw [getElem?_rewire]
    cases hb : blocks[b]? with
    | none => rfl
    | some block' =>
        have hset : (if first.block = b then
            block'.set first.position (.condBr condition first.ifTrue first.ifFalse) else block') =
            block' := by
          split
          · rename_i heq
            rw [heq, hb] at hfirst
            cases hfirst
            obtain ⟨hlt, heq⟩ := List.getElem?_eq_some_iff.mp hbranch
            rw [← heq, List.set_getElem_self]
          · rfl
        simp only [Option.map_some, hset]
  constructor
  · intro heq hmem
    obtain ⟨block', incoming, dest, hblock', hphi, hsource⟩ := mem_phiIncomingBlocks.mp hmem
    have hmap := hget newTarget
    rw [heq, hblock', Option.map_some, if_pos rfl, Option.some.injEq] at hmap
    have hsame := List.map_inj_left.mp (hmap.symm.trans (List.map_id block').symm) _ hphi
    exact (addIncoming_iterate_eq_iff _ _ hn _).mp hsame incoming dest rfl hsource
  · intro hnot
    refine List.ext_getElem? fun b => (hget b).trans ?_
    cases hb : blocks[b]? with
    | none => rfl
    | some block' =>
        rw [Option.map_some]
        split
        · rename_i heq
          subst heq
          refine congrArg some ((List.map_congr_left fun instruction hinstruction => ?_).trans
            (List.map_id block'))
          refine (addIncoming_iterate_eq_iff _ _ hn _).mpr ?_
          rintro incoming dest rfl hsource
          exact hnot (mem_phiIncomingBlocks.mpr ⟨block', incoming, dest, hb, hinstruction, hsource⟩)
        · rfl

end Rewire

/-! ### Flipping a PHI node -/

/-- The first operand of the first PHI node of a block. -/
def firstPhiOperand? : Block → Option Operand
  | [] => none
  | .phi incoming _ :: _ => incoming.head?.map Prod.fst
  | _ :: block => firstPhiOperand? block

/-- The first PHI node is flipped in its place. -/
theorem flipFirstPhi_eq_some {block flipped : Block} (h : flipFirstPhi block = some flipped) :
    ∃ before width value source incoming dest after,
      block = before ++ .phi ((.constant (.int width value), source) :: incoming) dest :: after ∧
      (∀ instruction ∈ before, isPhi instruction = false) ∧
      flipped = before ++ .phi ((.constant (.int 1 (if value ≠ 0 then 0 else 1)), source) ::
        incoming) dest :: after := by
  induction block generalizing flipped with
  | nil => cases h
  | cons instruction block ih =>
      cases instruction with
      | phi incoming dest =>
          simp only [flipFirstPhi, Option.bind_eq_bind, Option.bind_eq_some_iff] at h
          obtain ⟨⟨operand, source⟩, hhead, newValue, hflip, heq⟩ := h
          obtain ⟨incoming, rfl⟩ := List.head?_eq_some_iff.mp hhead
          cases heq
          unfold flipConstant at hflip
          split at hflip
          case h_1 width value hoperand =>
            cases hflip
            subst hoperand
            exact ⟨[], width, value, source, incoming, dest, block, rfl, by simp, rfl⟩
          case h_2 => cases hflip
      | _ =>
          simp only [flipFirstPhi, Option.map_eq_some_iff] at h
          obtain ⟨rest, hrest, rfl⟩ := h
          obtain ⟨before, width, value, source, incoming, dest, after, rfl, hbefore, rfl⟩ := ih hrest
          exact ⟨_ :: before, width, value, source, incoming, dest, after, rfl,
            List.forall_mem_cons.mpr ⟨rfl, hbefore⟩, rfl⟩

theorem flipFirstPhi_isSome_iff (block : Block) : (flipFirstPhi block).isSome ↔
    ∃ width value, firstPhiOperand? block = some (.constant (.int width value)) := by
  induction block with
  | nil => simp [flipFirstPhi, firstPhiOperand?]
  | cons instruction block ih =>
      cases instruction with
      | phi incoming dest =>
          cases incoming with
          | nil => simp [flipFirstPhi, firstPhiOperand?]
          | cons entry incoming =>
              obtain ⟨operand, source⟩ := entry
              simp only [flipFirstPhi, firstPhiOperand?, List.head?_cons, Option.bind_eq_bind,
                Option.bind_some, Option.map_some, Option.some.injEq]
              unfold flipConstant
              split
              · simp
              · rename_i hnot
                simp only [Option.bind_none, Option.isSome_none, Bool.false_eq_true, false_iff]
                rintro ⟨width, value, heq⟩
                exact hnot width value heq
      | _ => simpa [flipFirstPhi, firstPhiOperand?] using ih

theorem flipped_ne {block flipped : Block} (h : flipFirstPhi block = some flipped) :
    flipped ≠ block := by
  obtain ⟨before, width, value, source, incoming, dest, after, rfl, -, rfl⟩ :=
    flipFirstPhi_eq_some h
  intro heq
  simp only [List.append_cancel_left_eq, List.cons.injEq, Instruction.phi.injEq, Prod.mk.injEq,
    Operand.constant.injEq, Constant.int.injEq, and_true] at heq
  have hvalue := heq.2
  split at hvalue <;> omega

/-! ### When a mutation that was found can be applied -/

/-- Nothing would change: both branches go to one block only, and no PHI node there lists
    the second one. -/
def NothingToRewire (rules : Rules) (blocks : List Block) (first second : ConditionalBranch) : Prop :=
  first.ifTrue = first.ifFalse ∧ rules.otherSide second = first.ifTrue ∧
    second.block ∉ phiIncomingBlocks blocks first.ifTrue

/-- In the first pattern there is something to rewire; in the third one the first operand
    of the first PHI node in the block of the second branch is an integer constant. -/
def Applicable (rules : Rules) (blocks : List Block) (first : ConditionalBranch) :
    LogicalPattern × ConditionalBranch → Prop
  | (.pattern1, second) => ¬ NothingToRewire rules blocks first second
  | (.pattern2, _) => True
  | (.pattern3, second) => ∃ width value,
      blocks[second.block]?.bind firstPhiOperand? = some (.constant (.int width value))

theorem candidatePattern_eq_some {rules : Rules} {blocks : List Block}
    {first second : ConditionalBranch} {pattern : LogicalPattern}
    (h : candidatePattern rules.side rules.otherSide blocks first second = some pattern) :
    (pattern = .pattern1 ∧ rules.side second = rules.side first) ∨
    (pattern = .pattern2 ∧ rules.side second ≠ rules.side first ∧
      rules.side second = rules.otherSide first) ∨
    (pattern = .pattern3 ∧ rules.side second ≠ rules.side first ∧
      rules.side second ≠ rules.otherSide first ∧
      (∃ source ∈ phiIncomingBlocks blocks second.block, source ≠ first.block) ∧
      second.block = rules.side first) := by
  unfold candidatePattern at h
  split at h
  case isTrue hside =>
    cases h
    exact .inl ⟨rfl, hside⟩
  case isFalse hside =>
    split at h
    case isTrue hother =>
      cases h
      exact .inr (.inl ⟨rfl, hside, hother⟩)
    case isFalse hother =>
      split at h
      case isTrue hphi =>
        cases h
        exact .inr (.inr ⟨rfl, hside, hother, by simpa using hphi.1, hphi.2⟩)
      case isFalse => cases h

section Applying

variable {rules : Rules} (hrules : rules.Lawful) {blocks : List Block}
  (hblocks : ∀ block ∈ blocks, VerifiedBlock block) {first second : ConditionalBranch}
  {condition : Operand} {block : Block} (hfirst : blocks[first.block]? = some block)
  (hbranch : block[first.position]? = some (.condBr condition first.ifTrue first.ifFalse))

include hblocks hfirst hbranch

/-- What the first two patterns give. -/
theorem applyPattern_rewires {pattern : LogicalPattern}
    (hfound : rules.findPossibleMutationInBranch blocks first = some (pattern, second))
    {targets : Nat × Nat} (hpattern : pattern = .pattern1 ∧ targets = rules.pattern1 first second ∨
      pattern = .pattern2 ∧ targets = rules.pattern2 first second) :
    rules.applyPattern blocks first condition (pattern, second) =
      some (rewire first second condition targets (rules.newTarget second)
        ([second.ifTrue, second.ifFalse].count (rules.newTarget second)) blocks) := by
  obtain ⟨hsecond, hne, -⟩ := Rules.mem_of_found hfound
  rcases hpattern with ⟨rfl, rfl⟩ | ⟨rfl, rfl⟩
  · exact updatePhis_eq_rewire hblocks hfirst hbranch hsecond hne _ _
  · exact updatePhis_eq_rewire hblocks hfirst hbranch hsecond hne _ _

include hrules

/-- A mutation that was found passes the assertions and changes the function if and only if
    it is applicable. -/
theorem changes_iff {found : LogicalPattern × ConditionalBranch}
    (hfound : rules.findPossibleMutationInBranch blocks first = some found) :
    (∃ blocks', rules.applyPattern blocks first condition found = some blocks' ∧
      blocks' ≠ blocks) ↔ Applicable rules blocks first found := by
  obtain ⟨pattern, second⟩ := found
  obtain ⟨hsecond, hne, hpattern⟩ := Rules.mem_of_found hfound
  have hcount : [second.ifTrue, second.ifFalse].count (rules.newTarget second) ≠ 0 := by
    rw [(hrules.sides second).count_eq, hrules.newTarget]
    simp [List.count_cons]
  rcases candidatePattern_eq_some hpattern with ⟨rfl, hside⟩ | ⟨rfl, hside, hother⟩ | ⟨rfl, -⟩
  · rw [applyPattern_rewires hblocks hfirst hbranch hfound (.inl ⟨rfl, rfl⟩)]
    simp only [Option.some.injEq, exists_eq_left', Applicable, NothingToRewire]
    by_cases hsame : rules.pattern1 first second = (first.ifTrue, first.ifFalse)
    · -- only the PHI nodes can change
      rw [hsame, ne_eq, rewire_same_eq_iff hfirst hbranch _ hcount, hrules.newTarget]
      obtain ⟨htargets, htarget⟩ := (hrules.pattern1_same first second).mp hsame
      rw [htarget]
      simp [htargets]
    · refine iff_of_true (rewire_ne_of_targets hfirst hbranch hsame _ _) ?_
      rintro ⟨htargets, htarget, -⟩
      exact hsame ((hrules.pattern1_same first second).mpr ⟨htargets, htarget⟩)
  · rw [applyPattern_rewires hblocks hfirst hbranch hfound (.inr ⟨rfl, rfl⟩)]
    simp only [Option.some.injEq, exists_eq_left', Applicable, iff_true]
    refine rewire_ne_of_targets hfirst hbranch (fun hsame => hside ?_) _ _
    -- both sides of the first branch would be one block, and the first pattern would apply
    have htargets := hrules.pattern2_same first second hsame
    have hsides : rules.side first = rules.otherSide first := by
      have hperm := hrules.sides first
      rw [htargets] at hperm
      have hleft := hperm.symm.subset (@List.mem_cons_self _ (rules.side first) _)
      have hright := hperm.symm.subset
        (List.mem_cons_of_mem (rules.side first) (List.mem_singleton_self (rules.otherSide first)))
      simp only [List.mem_cons, List.not_mem_nil, or_false, or_self] at hleft hright
      rw [hleft, hright]
    rw [hother, hsides]
  · obtain ⟨block', condition', hblock', -⟩ := mem_conditionalBranches.mp hsecond
    have hmem : first ∈ conditionalBranches blocks :=
      mem_conditionalBranches.mpr ⟨block, condition, hfirst, hbranch⟩
    have hdifferent := block_ne_of_ne (fun block h => (hblocks block h).wellFormed) hmem hsecond hne
    simp only [Rules.applyPattern, Applicable, hblock', Option.bind_eq_bind, Option.bind_some,
      ← flipFirstPhi_isSome_iff]
    cases hflip : flipFirstPhi block' with
    | none => simp
    | some flipped =>
        simp only [Option.bind_some, Option.some.injEq, exists_eq_left', Option.isSome_some, iff_true]
        intro heq
        have hget := congrArg (·[second.block]?) heq
        simp only [getElem?_replaceBranch hdifferent, hblock',
          List.getElem?_set_self (List.getElem?_eq_some_iff.mp hblock').1, Option.some.injEq] at hget
        exact flipped_ne hflip hget

end Applying

theorem cloneFunction_blocks {m : Module} {f : Nat} {function copy : Function}
    (hfunction : m.functions[f]? = some function)
    (hcopy : (m.cloneFunction f).1.functions[(m.cloneFunction f).2]? = some copy) :
    copy.blocks = function.blocks := by
  simp only [Module.cloneFunction, hfunction, List.getElem?_concat_length, Option.some.injEq] at hcopy
  rw [← hcopy]

/-- **A logical mutation that was found can be applied to a copy of the function if and only
    if there is something to rewire, or a constant to flip.**  The search finds the same in
    the copy. -/
theorem found_applies_iff {rules : Rules} (hrules : rules ∈ logicalRules) {m : Module} {f : Nat}
    {function copy : Function} (hfunction : m.functions[f]? = some function)
    (hcopy : (m.cloneFunction f).1.functions[(m.cloneFunction f).2]? = some copy)
    (hblocks : ∀ block ∈ function.blocks, VerifiedBlock block) {address : MutationPointAddress}
    {condition : Operand} {ifTrue ifFalse : Nat}
    (hbranch : address.findInstruction function.blocks = some (.condBr condition ifTrue ifFalse))
    {found : LogicalPattern × ConditionalBranch}
    (hfound : rules.findPossibleMutationInBranch function.blocks
      ⟨address.basicBlockIndex, address.instructionIndex, ifTrue, ifFalse⟩ = some found) :
    rules.findPossibleMutationInBranch copy.blocks
      ⟨address.basicBlockIndex, address.instructionIndex, ifTrue, ifFalse⟩ = some found ∧
    ((∃ blocks', rules.applyMutation address copy.blocks = some blocks' ∧ blocks' ≠ copy.blocks) ↔
      Applicable rules function.blocks
        ⟨address.basicBlockIndex, address.instructionIndex, ifTrue, ifFalse⟩ found) := by
  rw [cloneFunction_blocks hfunction hcopy]
  refine ⟨hfound, ?_⟩
  obtain ⟨block, hblock, hinstruction⟩ := Option.bind_eq_some_iff.mp hbranch
  rw [Rules.applyMutation, hbranch]
  simp only [hfound]
  exact changes_iff (lawful_of_mem hrules) hblocks hblock hinstruction hfound

/-- `return a && b`, with an exit for each truth value. -/
def conjunction : Function where
  name := "conjunction"
  type := ⟨.int 1, [.int 1, .int 1], false⟩
  blocks :=
    [[.condBr (.argument 0) 1 3], [.condBr (.argument 1) 2 3],
      [.ret (some (.constant (.int 1 1)))], [.ret (some (.constant (.int 1 0)))]]

/-- `if (c) x = y; if (x) …`, after the variable `x` has become a PHI node. -/
def conditionalAssignment : Function where
  name := "conditional_assignment"
  type := ⟨.int 1, [.int 1, .int 1, .int 1], false⟩
  blocks :=
    [[.condBr (.argument 0) 1 2], [.br 2],
      [.phi [(.argument 1, 0), (.argument 2, 1)] 0, .condBr (.register 0) 3 4],
      [.ret (some (.constant (.int 1 1)))], [.ret (some (.constant (.int 1 0)))]]

theorem verifiedBlock_singleton {terminator : Instruction} (h : terminator.isTerminator = true) :
    VerifiedBlock [terminator] := by
  refine ⟨⟨[], terminator, rfl, h, by simp⟩, ?_⟩
  cases terminator with
  | phi => cases h
  | _ => simp [isPhi]

theorem verified_conjunction : ∀ block ∈ conjunction.blocks, VerifiedBlock block := by
  simp only [conjunction, List.forall_mem_cons, List.not_mem_nil, false_imp_iff, implies_true,
    and_true]
  exact ⟨verifiedBlock_singleton rfl, verifiedBlock_singleton rfl, verifiedBlock_singleton rfl,
    verifiedBlock_singleton rfl⟩

theorem verified_conditionalAssignment :
    ∀ block ∈ conditionalAssignment.blocks, VerifiedBlock block := by
  simp only [conditionalAssignment, List.forall_mem_cons, List.not_mem_nil, false_imp_iff,
    implies_true, and_true]
  refine ⟨verifiedBlock_singleton rfl, verifiedBlock_singleton rfl, ⟨⟨[_], _, rfl, rfl, ?_⟩, ?_⟩,
    verifiedBlock_singleton rfl, verifiedBlock_singleton rfl⟩
  · simp [Instruction.isTerminator]
  · decide

/-- The `&&` can be replaced in a copy of the function. -/
theorem found_applies_conjunction : ∃ blocks', LogicalAndToOr.rules.applyMutation ⟨0, 0, 0⟩
    conjunction.blocks = some blocks' ∧ blocks' ≠ conjunction.blocks := by
  refine (@found_applies_iff LogicalAndToOr.rules (by simp [logicalRules])
    ⟨"m", [conjunction], []⟩ 0 conjunction _ rfl rfl verified_conjunction ⟨0, 0, 0⟩ (.argument 0) 1 3
    rfl (.pattern1, ⟨1, 0, 2, 3⟩) (by decide)).2.mpr ?_
  rintro ⟨htargets, -⟩
  exact absurd htargets (by decide)

/-- The search finds the third pattern, and the first operand of the PHI node is not a
    constant. -/
theorem not_found_applies_conditionalAssignment :
    (∀ block ∈ conditionalAssignment.blocks, VerifiedBlock block) ∧
    LogicalAndToOr.rules.findPossibleMutationInBranch conditionalAssignment.blocks ⟨0, 0, 1, 2⟩ =
      some (.pattern3, ⟨2, 1, 3, 4⟩) ∧
    LogicalAndToOr.applyMutation ⟨0, 0, 0⟩ conditionalAssignment.blocks = none :=
  ⟨verified_conditionalAssignment, by decide, by decide⟩

end Mull.Mutators
