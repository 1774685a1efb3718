import Mull.LogicalMutators

/-!
# PHI nodes after a logical mutation

A PHI node of a block has one entry for every edge into the block.  The first two patterns
of the logical mutators give one of the two edges of a branch a new target.  The block that
gains the edge also gains the entries; in the block that loses it the entries stay.  The
third pattern leaves the edges alone and puts an `i1` constant in the place of another one.

So the PHI nodes are as they should be exactly if the block that loses an edge has none,
and the constant that is flipped was an `i1` (`phis_stay_iff`).
-/

namespace Mull.Mutators

open IR MutationPoints Callbacks

/-! ### Edges -/

/-- How many edges lead from block `source` to block `b`. -/
def edges (blocks : List Block) (source b : Nat) : Nat :=
  ((blocks[source]?.bind successors?).getD []).count b

/-- Every PHI node lists a block as often as it has edges from there. -/
def PhisConsistent (blocks : List Block) : Prop :=
  ∀ b block, blocks[b]? = some block → ∀ incoming dest, Instruction.phi incoming dest ∈ block →
    ∀ source, (incoming.map Prod.snd).count source = edges blocks source b

def hasPhi (blocks : List Block) (b : Nat) : Bool := (blocks[b]?.getD []).any isPhi

theorem hasPhi_iff {blocks : List Block} {b : Nat} : hasPhi blocks b ↔
    ∃ block incoming dest, blocks[b]? = some block ∧ Instruction.phi incoming dest ∈ block := by
  unfold hasPhi
  cases blocks[b]? with
  | none => simp
  | some block =>
      simp only [Option.getD_some, List.any_eq_true, Option.some.injEq]
      constructor
      · rintro ⟨instruction, hmem, hphi⟩
        cases instruction with
        | phi incoming dest => exact ⟨block, incoming, dest, rfl, hmem⟩
        | _ => cases hphi
      · rintro ⟨_, incoming, dest, rfl, hmem⟩
        exact ⟨_, hmem, rfl⟩

/-! ### Types -/

def Constant.type? : Constant → Option Ty
  | .int width _ => some (.int width)
  | .float _ => some .float
  | .null => some .pointer
  | .undef => none

def instructionAt (blocks : List Block) (b i : Nat) : Option Instruction :=
  blocks[b]?.bind fun block => block[i]?

/-- A constant of a PHI node is replaced only by one of the same type, which is that of the
    PHI node. -/
def TypesKept (blocks blocks' : List Block) : Prop :=
  ∀ (b i k : Nat) (incoming incoming' : List (Operand × Nat)) (dest dest' source source' : Nat)
    (c c' : Constant), instructionAt blocks b i = some (.phi incoming dest) →
    instructionAt blocks' b i = some (.phi incoming' dest') →
    incoming[k]? = some (.constant c, source) → incoming'[k]? = some (.constant c', source') →
    Constant.type? c' = Constant.type? c

/-! ### A branch with new targets -/

theorem set_branch {body : Block} {condition : Operand} {ifTrue ifFalse : Nat} (targets : Nat × Nat) :
    (body ++ [Instruction.condBr condition ifTrue ifFalse]).set body.length
      (.condBr condition targets.1 targets.2) = body ++ [.condBr condition targets.1 targets.2] := by
  simp

theorem successors?_map_addIncoming (source newBlock n : Nat) {block : Block}
    (h : WellFormedBlock block) :
    successors? (block.map (addIncoming source newBlock)^[n]) = successors? block := by
  obtain ⟨body, terminator, rfl, hterminator, -⟩ := h
  have hphi : isPhi terminator = false := by
    cases terminator with
    | phi => cases hterminator
    | _ => rfl
  rw [List.map_append, List.map_singleton, addIncoming_iterate_of_not_phi _ _ _ hphi,
    successors?_append hterminator, successors?_append hterminator]

section Rewired

variable {blocks : List Block} (hblocks : ∀ block ∈ blocks, VerifiedBlock block)
  {first second : ConditionalBranch} {condition : Operand} {block : Block}
  (hfirst : blocks[first.block]? = some block)
  (hbranch : block[first.position]? = some (.condBr condition first.ifTrue first.ifFalse))

include hblocks hfirst hbranch

theorem edges_first (b : Nat) :
    edges blocks first.block b = [first.ifTrue, first.ifFalse].count b := by
  have hmem : first ∈ conditionalBranches blocks :=
    mem_conditionalBranches.mpr ⟨block, condition, hfirst, hbranch⟩
  rw [edges, successors?_of_branch (fun block h => (hblocks block h).wellFormed) hmem]
  rfl

/-- Only the edges of the first branch are others. -/
theorem edges_rewire (targets : Nat × Nat) (newTarget n source b : Nat) :
    edges (rewire first second condition targets newTarget n blocks) source b =
      if first.block = source then [targets.1, targets.2].count b else edges blocks source b := by
  unfold edges
  rw [getElem?_rewire]
  cases hsource : blocks[source]? with
  | none =>
      have hne : first.block ≠ source := by
        rintro rfl
        rw [hfirst] at hsource
        cases hsource
      simp [hne]
  | some block' =>
      have hverified := hblocks block' (List.mem_of_getElem? hsource)
      by_cases heq : first.block = source
      · subst heq
        rw [hfirst] at hsource
        cases hsource
        have hreplaced := hverified.set_branch hbranch targets.1 targets.2
        obtain ⟨body, rfl, hposition⟩ := exists_body hverified.wellFormed hbranch rfl
        rw [hposition, set_branch] at hreplaced
        simp only [Option.map_some, if_true, Option.bind_some, hposition, set_branch]
        split
        · rw [successors?_map_addIncoming _ _ _ hreplaced.wellFormed, successors?_append rfl]
          rfl
        · rw [successors?_append rfl]
          rfl
      · simp only [Option.map_some, if_neg heq, Option.bind_some]
        split
        · rw [successors?_map_addIncoming _ _ _ hverified.wellFormed]
        · rfl

/-- The PHI nodes of the new target have `n` rounds of new entries, all others are as they
    were. -/
theorem phi_mem_rewire (targets : Nat × Nat) (newTarget n b : Nat) {block' : Block}
    (hblock' : blocks[b]? = some block') {rewired : Block}
    (hrewired : (rewire first second condition targets newTarget n blocks)[b]? = some rewired)
    (incoming' : List (Operand × Nat)) (dest' : Nat) :
    Instruction.phi incoming' dest' ∈ rewired ↔
      ∃ incoming dest, Instruction.phi incoming dest ∈ block' ∧
        (if newTarget = b then
          (addIncoming second.block first.block)^[n] (.phi incoming dest)
        else .phi incoming dest) = .phi incoming' dest' := by
  rw [getElem?_rewire, hblock', Option.map_some, Option.some.injEq] at hrewired
  -- replacing the branch keeps the PHI nodes
  have hreplaced : ∀ incoming dest, Instruction.phi incoming dest ∈ (if first.block = b then
      block'.set first.position (.condBr condition targets.1 targets.2) else block') ↔
      Instruction.phi incoming dest ∈ block' := by
    intro incoming dest
    split
    · rename_i heq
      have hsame : block' = block := Option.some.inj (hblock'.symm.trans (heq ▸ hfirst))
      have hverified := hblocks block (List.mem_of_getElem? hfirst)
      obtain ⟨body, hbody, hposition⟩ := exists_body hverified.wellFormed hbranch rfl
      rw [hsame, hbody, hposition, set_branch]
      simp
    · rfl
  subst hrewired
  by_cases heq : newTarget = b
  · simp only [if_pos heq, List.mem_map]
    constructor
    · rintro ⟨instruction, hmem, hphi⟩
      cases instruction with
      | phi incoming dest => exact ⟨incoming, dest, (hreplaced _ _).mp hmem, hphi⟩
      | _ =>
          rw [addIncoming_iterate_of_not_phi _ _ _ rfl] at hphi
          cases hphi
    · rintro ⟨incoming, dest, hmem, hphi⟩
      exact ⟨_, (hreplaced _ _).mpr hmem, hphi⟩
  · simp only [if_neg heq]
    rw [hreplaced]
    constructor
    · intro hmem
      exact ⟨incoming', dest', hmem, rfl⟩
    · rintro ⟨incoming, dest, hmem, hphi⟩
      exact hphi ▸ hmem

omit hblocks hfirst hbranch in
/-- After `n` rounds the first block is listed `n` times more. -/
theorem addIncoming_iterate_of_mem {source newBlock n : Nat} {incoming : List (Operand × Nat)}
    (h : source ∈ incoming.map Prod.snd) (dest : Nat) :
    ∃ operand, (addIncoming source newBlock)^[n] (.phi incoming dest) =
      .phi (incoming ++ List.replicate n (operand, newBlock)) dest := by
  obtain ⟨entry, hentry, rfl⟩ := List.mem_map.mp h
  rw [addIncoming_iterate]
  cases hfind : incoming.find? fun other => other.2 = entry.2 with
  | none =>
      have hnot := List.find?_eq_none.mp hfind entry hentry
      simp at hnot
  | some found => exact ⟨found.1, rfl⟩

omit hfirst hbranch in
/-- Where the second branch goes, the PHI nodes list it. -/
theorem second_mem_incoming (hconsistent : PhisConsistent blocks)
    (hsecond : second ∈ conditionalBranches blocks) {target : Nat}
    (htarget : target ∈ [second.ifTrue, second.ifFalse]) {block' : Block}
    (hblock' : blocks[target]? = some block') {incoming : List (Operand × Nat)} {dest : Nat}
    (hphi : Instruction.phi incoming dest ∈ block') : second.block ∈ incoming.map Prod.snd := by
  rw [← List.count_pos_iff, hconsistent target block' hblock' incoming dest hphi, edges,
    successors?_of_branch (fun block h => (hblocks block h).wellFormed) hsecond, Option.getD_some]
  exact List.count_pos_iff.mpr htarget

omit hfirst hbranch in
/-- How often a PHI node lists a block after `n` rounds. -/
theorem exists_entries (hconsistent : PhisConsistent blocks)
    (hsecond : second ∈ conditionalBranches blocks) {newTarget : Nat}
    (htarget : newTarget ∈ [second.ifTrue, second.ifFalse]) (n : Nat) {b : Nat} {block' : Block}
    (hblock' : blocks[b]? = some block') {incoming : List (Operand × Nat)} {dest : Nat}
    (hphi : Instruction.phi incoming dest ∈ block') :
    ∃ incoming', (if newTarget = b then
        (addIncoming second.block first.block)^[n] (.phi incoming dest)
      else .phi incoming dest) = .phi incoming' dest ∧
      ∀ source, (incoming'.map Prod.snd).count source = edges blocks source b +
        if newTarget = b ∧ first.block = source then n else 0 := by
  have hentries := hconsistent b block' hblock' incoming dest hphi
  by_cases heq : newTarget = b
  · obtain ⟨operand, hadded⟩ := addIncoming_iterate_of_mem
      (second_mem_incoming hblocks hconsistent hsecond htarget (heq ▸ hblock') hphi) dest
    refine ⟨_, by rw [if_pos heq, hadded], fun source => ?_⟩
    rw [List.map_append, List.count_append, hentries, List.map_replicate, List.count_replicate]
    simp [heq]
  · refine ⟨incoming, by rw [if_neg heq], fun source => ?_⟩
    simp [heq, hentries]

/-- The branch loses its edge to `lost` and gains one to `newTarget`.  The entries there
    are as many as they should be if no PHI node is at `lost`, and only then. -/
theorem phisConsistent_rewire_iff (hconsistent : PhisConsistent blocks)
    (hsecond : second ∈ conditionalBranches blocks) {lost keep newTarget : Nat}
    {targets : Nat × Nat} (hold : [first.ifTrue, first.ifFalse].Perm [lost, keep])
    (hnew : [targets.1, targets.2].Perm [keep, newTarget])
    (htargets : [second.ifTrue, second.ifFalse].Perm [lost, newTarget]) :
    PhisConsistent (rewire first second condition targets newTarget
      ([second.ifTrue, second.ifFalse].count newTarget) blocks) ↔ hasPhi blocks lost = false := by
  have hedges := @edges_rewire _ hblocks _ second _ _ hfirst hbranch targets newTarget
    ([second.ifTrue, second.ifFalse].count newTarget)
  have hfirstEdges := edges_first hblocks hfirst hbranch
  have htarget : newTarget ∈ [second.ifTrue, second.ifFalse] := htargets.mem_iff.mpr (by simp)
  rw [htargets.count_eq] at hedges ⊢
  simp only [hnew.count_eq] at hedges
  simp only [hold.count_eq] at hfirstEdges
  constructor
  · intro hrewired
    by_contra hphi
    rw [Bool.not_eq_false, hasPhi_iff] at hphi
    obtain ⟨block', incoming, dest, hblock', hmem⟩ := hphi
    obtain ⟨incoming', hphi', hentries⟩ := @exists_entries _ hblocks first _ hconsistent hsecond _
      htarget ([lost, newTarget].count newTarget) _ _ hblock' _ _ hmem
    obtain ⟨rewired, hget⟩ : ∃ rewired, (rewire first second condition targets newTarget
        ([lost, newTarget].count newTarget) blocks)[lost]? = some rewired := by
      rw [getElem?_rewire, hblock']
      exact ⟨_, rfl⟩
    have hmem' := (phi_mem_rewire hblocks hfirst hbranch targets newTarget _ lost hblock' hget
      incoming' dest).mpr ⟨incoming, dest, hmem, hphi'⟩
    have hlost := hrewired lost rewired hget incoming' dest hmem' first.block
    rw [hentries, hedges, if_pos rfl, hfirstEdges] at hlost
    simp only [List.count_cons, List.count_nil, beq_iff_eq, and_true, if_true] at hlost
    split_ifs at hlost <;> omega
  · intro hnone b rewired hget incoming' dest' hphi source
    obtain ⟨block', hblock'⟩ : ∃ block', blocks[b]? = some block' := by
      rw [getElem?_rewire] at hget
      obtain ⟨block', hblock', -⟩ := Option.map_eq_some_iff.mp hget
      exact ⟨block', hblock'⟩
    obtain ⟨incoming, dest, hmem, hphi'⟩ :=
      (phi_mem_rewire hblocks hfirst hbranch targets newTarget _ b hblock' hget incoming' dest').mp hphi
    obtain ⟨incoming'', hphi'', hentries⟩ := @exists_entries _ hblocks first _ hconsistent hsecond _
      htarget ([lost, newTarget].count newTarget) _ _ hblock' _ _ hmem
    obtain ⟨rfl, -⟩ : incoming' = incoming'' ∧ dest' = dest := by
      simpa using hphi'.symm.trans hphi''
    have hb : lost ≠ b := by
      rintro rfl
      rw [hasPhi_iff.mpr ⟨block', incoming, dest, hblock', hmem⟩] at hnone
      cases hnone
    rw [hentries, hedges]
    by_cases hsource : first.block = source
    · subst hsource
      rw [hfirstEdges, if_pos rfl]
      simp only [List.count_cons, List.count_nil, beq_iff_eq, and_true, if_true]
      split_ifs <;> omega
    · simp [hsource]

omit hblocks in
/-- New entries come after the old ones, so that no constant is replaced. -/
theorem typesKept_rewire (targets : Nat × Nat) (newTarget n : Nat) :
    TypesKept blocks (rewire first second condition targets newTarget n blocks) := by
  intro b i k incoming incoming' dest dest' source source' c c' hphi hphi' hk hk'
  obtain ⟨block', hblock', hinstruction⟩ := Option.bind_eq_some_iff.mp hphi
  rw [instructionAt, getElem?_rewire, hblock', Option.map_some, Option.bind_some] at hphi'
  -- the instruction in the place of the PHI node, once the branch has been replaced
  have hreplaced : (if first.block = b then
      block'.set first.position (.condBr condition targets.1 targets.2) else block')[i]? =
      some (.phi incoming dest) := by
    split
    · rename_i heq
      have hsame : block' = block := Option.some.inj (hblock'.symm.trans (heq ▸ hfirst))
      have hne : first.position ≠ i := by
        rintro rfl
        rw [hsame, hbranch] at hinstruction
        cases hinstruction
      rw [List.getElem?_set_ne hne, hinstruction]
    · exact hinstruction
  have hprefix : ∃ more, incoming' = incoming ++ more := by
    by_cases htarget : newTarget = b
    · simp only [if_pos htarget] at hphi'
      rw [List.getElem?_map, hreplaced, Option.map_some, addIncoming_iterate] at hphi'
      cases hfind : incoming.find? fun entry => entry.2 = second.block with
      | none =>
          rw [hfind] at hphi'
          cases hphi'
          exact ⟨[], by simp⟩
      | some entry =>
          rw [hfind] at hphi'
          cases hphi'
          exact ⟨_, rfl⟩
    · simp only [if_neg htarget] at hphi'
      rw [hreplaced] at hphi'
      cases hphi'
      exact ⟨[], by simp⟩
  obtain ⟨more, rfl⟩ := hprefix
  rw [List.getElem?_append_left (List.getElem?_eq_some_iff.mp hk).1, hk] at hk'
  cases hk'
  rfl

end Rewired

/-! ### A flipped PHI node -/

theorem firstPhiOperand?_append {before after : Block}
    (h : ∀ instruction ∈ before, isPhi instruction = false) :
    firstPhiOperand? (before ++ after) = firstPhiOperand? after := by
  induction before with
  | nil => rfl
  | cons instruction before ih =>
      rw [List.forall_mem_cons] at h
      cases instruction with
      | phi => cases h.1
      | _ => exact ih h.2

section Flipped

variable {blocks : List Block} (hblocks : ∀ block ∈ blocks, VerifiedBlock block)
  {first second : ConditionalBranch} {condition : Operand} {block : Block}
  (hfirst : blocks[first.block]? = some block)
  (hbranch : block[first.position]? = some (.condBr condition first.ifTrue first.ifFalse))
  {other flipped : Block} (hother : blocks[second.block]? = some other)
  (hdifferent : second.block ≠ first.block) (hflip : flipFirstPhi other = some flipped)

/-- The function with the targets of `first` exchanged and a PHI node flipped. -/
def exchanged (first second : ConditionalBranch) (condition : Operand) (flipped : Block)
    (blocks : List Block) : List Block :=
  replaceBranch first condition (first.ifFalse, first.ifTrue) (blocks.set second.block flipped)

include hfirst hother hdifferent in
theorem getElem?_exchanged (b : Nat) :
    (exchanged first second condition flipped blocks)[b]? =
      if b = first.block then
        some (block.set first.position (.condBr condition first.ifFalse first.ifTrue))
      else if b = second.block then some flipped
      else blocks[b]? := by
  rw [exchanged, replaceBranch, List.getElem?_modify]
  by_cases hb : b = first.block
  · subst hb
    simp [List.getElem?_set_ne hdifferent, hfirst]
  · by_cases hb' : b = second.block
    · subst hb'
      rw [List.getElem?_set_self (List.getElem?_eq_some_iff.mp hother).1]
      simp [hb, Ne.symm hb]
    · rw [List.getElem?_set_ne (Ne.symm hb')]
      simp [hb, hb', Ne.symm hb]

include hblocks hfirst hbranch hother hdifferent hflip

theorem edges_exchanged (source b : Nat) :
    edges (exchanged first second condition flipped blocks) source b = edges blocks source b := by
  rw [edges, getElem?_exchanged hfirst hother hdifferent]
  by_cases hsource : source = first.block
  · subst hsource
    have hverified := hblocks block (List.mem_of_getElem? hfirst)
    obtain ⟨body, hbody, hposition⟩ := exists_body hverified.wellFormed hbranch rfl
    rw [edges_first hblocks hfirst hbranch, if_pos rfl, hbody, hposition,
      set_branch (first.ifFalse, first.ifTrue), Option.bind_some, successors?_append rfl]
    exact (List.Perm.swap first.ifTrue first.ifFalse []).count_eq b
  · rw [if_neg hsource, edges]
    by_cases hsource' : source = second.block
    · -- the PHI node is not the last instruction of its block
      subst hsource'
      obtain ⟨before, width, value, from', incoming, dest, after, rfl, -, rfl⟩ :=
        flipFirstPhi_eq_some hflip
      obtain ⟨body, terminator, hbody, hterminator, -⟩ :=
        (hblocks _ (List.mem_of_getElem? hother)).wellFormed
      have hafter : after ≠ [] := by
        rintro rfl
        obtain ⟨-, hlast⟩ := List.append_inj' hbody rfl
        cases hlast
        cases hterminator
      rw [if_pos rfl, hother]
      simp [successors?, List.getLast?_append, List.getLast?_cons, List.getLast?_eq_some_getLast hafter]
    · rw [if_neg hsource']

/-- A PHI node lists the same blocks as before. -/
theorem exists_phi_of_exchanged {b : Nat} {block' : Block}
    (hblock' : (exchanged first second condition flipped blocks)[b]? = some block')
    {incoming' : List (Operand × Nat)} {dest' : Nat}
    (hphi : Instruction.phi incoming' dest' ∈ block') :
    ∃ original incoming dest, blocks[b]? = some original ∧
      Instruction.phi incoming dest ∈ original ∧
      incoming'.map Prod.snd = incoming.map Prod.snd := by
  rw [getElem?_exchanged hfirst hother hdifferent] at hblock'
  split at hblock'
  · rename_i hb
    cases hblock'
    have hverified := hblocks block (List.mem_of_getElem? hfirst)
    obtain ⟨body, hbody, hposition⟩ := exists_body hverified.wellFormed hbranch rfl
    rw [hbody, hposition, set_branch (first.ifFalse, first.ifTrue)] at hphi
    refine ⟨block, incoming', dest', hb ▸ hfirst, ?_, rfl⟩
    rw [hbody]
    simpa using hphi
  · split at hblock'
    · rename_i hb
      cases hblock'
      obtain ⟨before, width, value, source, incoming, dest, after, rfl, -, rfl⟩ :=
        flipFirstPhi_eq_some hflip
      rcases List.mem_append.mp hphi with hmem | hmem
      · exact ⟨_, incoming', dest', hb ▸ hother, List.mem_append_left _ hmem, rfl⟩
      · rcases List.mem_cons.mp hmem with heq | hmem
        · cases heq
          exact ⟨_, (.constant (.int width value), source) :: incoming, dest', hb ▸ hother,
            List.mem_append_right _ List.mem_cons_self, rfl⟩
        · exact ⟨_, incoming', dest', hb ▸ hother,
            List.mem_append_right _ (List.mem_cons_of_mem _ hmem), rfl⟩
    · exact ⟨block', incoming', dest', hblock', hphi, rfl⟩

theorem phisConsistent_exchanged (hconsistent : PhisConsistent blocks) :
    PhisConsistent (exchanged first second condition flipped blocks) := by
  intro b block' hblock' incoming' dest' hphi source
  obtain ⟨original, incoming, dest, horiginal, hmem, hsame⟩ :=
    exists_phi_of_exchanged hblocks hfirst hbranch hother hdifferent hflip hblock' hphi
  rw [hsame, hconsistent b original horiginal incoming dest hmem source,
    edges_exchanged hblocks hfirst hbranch hother hdifferent hflip]

omit hblocks hother hflip in
/-- No other PHI node changes. -/
theorem instructionAt_exchanged_of_ne {before after : Block} {phi : Instruction}
    (hother : blocks[second.block]? = some (before ++ phi :: after)) (phi' : Instruction) {b i : Nat}
    (hplace : ¬ (b = second.block ∧ i = before.length)) {incoming : List (Operand × Nat)}
    {dest : Nat} (hphi : instructionAt blocks b i = some (.phi incoming dest)) :
    instructionAt (exchanged first second condition (before ++ phi' :: after) blocks) b i =
      some (.phi incoming dest) := by
  obtain ⟨original, horiginal, hinstruction⟩ := Option.bind_eq_some_iff.mp hphi
  rw [instructionAt, getElem?_exchanged hfirst hother hdifferent]
  split
  · rename_i hb
    cases (hb ▸ horiginal).symm.trans hfirst
    have hne : first.position ≠ i := by
      rintro rfl
      cases hbranch.symm.trans hinstruction
    rw [Option.bind_some, List.getElem?_set_ne hne, hinstruction]
  · split
    · rename_i hb
      cases (hb ▸ horiginal).symm.trans hother
      have hset : before ++ phi' :: after = (before ++ phi :: after).set before.length phi' := by
        simp
      rw [Option.bind_some, hset, List.getElem?_set_ne (fun heq => hplace ⟨hb, heq.symm⟩),
        hinstruction]
    · rw [horiginal, Option.bind_some, hinstruction]

omit hblocks in
/-- The constant has the type of the PHI node if it replaces an `i1`. -/
theorem typesKept_exchanged_iff : TypesKept blocks (exchanged first second condition flipped blocks) ↔
    ∃ value, firstPhiOperand? other = some (.constant (.int 1 value)) := by
  obtain ⟨before, width, value, source, rest, dest, after, rfl, hbefore, rfl⟩ :=
    flipFirstPhi_eq_some hflip
  let flippedPhi : Instruction :=
    .phi ((.constant (.int 1 (if value ≠ 0 then 0 else 1)), source) :: rest) dest
  have hold : instructionAt blocks second.block before.length =
      some (.phi ((.constant (.int width value), source) :: rest) dest) := by
    rw [instructionAt, hother]
    simp
  have hnew : instructionAt (exchanged first second condition (before ++ flippedPhi :: after)
      blocks) second.block before.length = some flippedPhi := by
    rw [instructionAt, getElem?_exchanged hfirst hother hdifferent, if_neg hdifferent, if_pos rfl]
    simp
  rw [firstPhiOperand?_append hbefore]
  constructor
  · intro hkept
    have htype := hkept second.block before.length 0 _ _ dest dest source source _ _ hold hnew rfl rfl
    simp only [Constant.type?, Option.some.injEq, Ty.int.injEq] at htype
    exact ⟨value, by rw [← htype]; rfl⟩
  · rintro ⟨value', hvalue⟩
    simp only [firstPhiOperand?, List.head?_cons, Option.map_some, Option.some.injEq,
      Operand.constant.injEq, Constant.int.injEq] at hvalue
    obtain ⟨rfl, -⟩ := hvalue
    intro b i k incoming incoming' dest₁ dest₂ source₁ source₂ c c' hphi hphi' hk hk'
    by_cases hplace : b = second.block ∧ i = before.length
    · -- the flipped PHI node: its first constant stays an `i1`
      obtain ⟨rfl, rfl⟩ := hplace
      cases hold.symm.trans hphi
      obtain ⟨rfl, -⟩ := Instruction.phi.inj (Option.some.inj (hnew.symm.trans hphi'))
      cases k with
      | zero =>
          cases hk
          cases hk'
          rfl
      | succ k =>
          rw [List.getElem?_cons_succ] at hk hk'
          cases hk.symm.trans hk'
          rfl
    · have hsame := instructionAt_exchanged_of_ne hfirst hbranch hdifferent hother
        flippedPhi hplace hphi
      obtain ⟨rfl, -⟩ := Instruction.phi.inj (Option.some.inj (hsame.symm.trans hphi'))
      cases hk.symm.trans hk'
      rfl

end Flipped

/-! ### When the PHI nodes stay consistent -/

/-- The block that loses an edge has no PHI node; in the third pattern the constant that is
    flipped is an `i1`. -/
def PhisStay (rules : Rules) (blocks : List Block) (first : ConditionalBranch) :
    LogicalPattern × ConditionalBranch → Prop
  | (.pattern1, _) => hasPhi blocks (rules.side first) = false
  | (.pattern2, _) => hasPhi blocks (rules.otherSide first) = false
  | (.pattern3, second) => ∃ value,
      blocks[second.block]?.bind firstPhiOperand? = some (.constant (.int 1 value))

/-- **A logical mutator keeps the PHI nodes consistent if and only if the block that loses
    an edge has none, and a flipped constant was an `i1`.** -/
theorem phis_stay_iff {rules : Rules} (hrules : rules ∈ logicalRules) {blocks blocks' : List Block}
    (hblocks : ∀ block ∈ blocks, VerifiedBlock block) (hconsistent : PhisConsistent blocks)
    {address : MutationPointAddress} {condition : Operand} {ifTrue ifFalse : Nat}
    (hbranch : address.findInstruction blocks = some (.condBr condition ifTrue ifFalse))
    {found : LogicalPattern × ConditionalBranch}
    (hfound : rules.findPossibleMutationInBranch blocks
      ⟨address.basicBlockIndex, address.instructionIndex, ifTrue, ifFalse⟩ = some found)
    (happly : rules.applyMutation address blocks = some blocks') :
    PhisConsistent blocks' ∧ TypesKept blocks blocks' ↔
      PhisStay rules blocks
        ⟨address.basicBlockIndex, address.instructionIndex, ifTrue, ifFalse⟩ found := by
  have hlawful := lawful_of_mem hrules
  obtain ⟨block, hblock, hinstruction⟩ := Option.bind_eq_some_iff.mp hbranch
  rw [Rules.applyMutation, hbranch] at happly
  simp only [hfound] at happly
  generalize hfirst : (⟨address.basicBlockIndex, address.instructionIndex, ifTrue, ifFalse⟩ :
    ConditionalBranch) = first at hfound happly ⊢
  replace hblock : blocks[first.block]? = some block := hfirst ▸ hblock
  replace hinstruction : block[first.position]? =
      some (.condBr condition first.ifTrue first.ifFalse) := hfirst ▸ hinstruction
  obtain ⟨pattern, second⟩ := found
  obtain ⟨hsecond, hne, hpattern⟩ := Rules.mem_of_found hfound
  have hmem : first ∈ conditionalBranches blocks :=
    mem_conditionalBranches.mpr ⟨block, condition, hblock, hinstruction⟩
  have hsides := hlawful.sides second
  rcases candidatePattern_eq_some hpattern with ⟨rfl, hside⟩ | ⟨rfl, -, hother⟩ | ⟨rfl, -⟩
  · -- the edge to the side is lost
    rw [applyPattern_rewires hblocks hblock hinstruction hfound (.inl ⟨rfl, rfl⟩)] at happly
    cases happly
    rw [hlawful.newTarget, and_iff_left (typesKept_rewire hblock hinstruction _ _ _)]
    exact phisConsistent_rewire_iff hblocks hblock hinstruction hconsistent hsecond
      (hlawful.sides first) (hlawful.pattern1 first second) (hside ▸ hsides)
  · -- the edge to the other side is lost
    rw [applyPattern_rewires hblocks hblock hinstruction hfound (.inr ⟨rfl, rfl⟩)] at happly
    cases happly
    rw [hlawful.newTarget, and_iff_left (typesKept_rewire hblock hinstruction _ _ _)]
    exact phisConsistent_rewire_iff hblocks hblock hinstruction hconsistent hsecond
      ((hlawful.sides first).trans (List.Perm.swap _ _ _)) (hlawful.pattern2 first second)
      (hother ▸ hsides)
  · obtain ⟨other, condition', hother, -⟩ := mem_conditionalBranches.mp hsecond
    have hdifferent := block_ne_of_ne (fun block h => (hblocks block h).wellFormed) hmem hsecond hne
    simp only [Rules.applyPattern, hother, Option.bind_eq_bind, Option.bind_some,
      Option.bind_eq_some_iff] at happly
    obtain ⟨flipped, hflip, heq⟩ := happly
    cases heq
    have htypes := typesKept_exchanged_iff hblock hinstruction hother hdifferent hflip
    rw [PhisStay, hother, Option.bind_some, ← htypes]
    exact and_iff_right
      (phisConsistent_exchanged hblocks hblock hinstruction hother hdifferent hflip hconsistent)

/-- `return a && b`, with one exit that has a PHI node, as compilers make it. -/
def conjunctionPhi : List Block :=
  [[.condBr (.argument 0) 1 3], [.condBr (.argument 1) 2 3], [.br 3],
    [.phi [(.constant (.int 32 0), 0), (.constant (.int 32 0), 1), (.constant (.int 32 1), 2)] 0,
      .ret (some (.register 0))]]

theorem verified_conjunctionPhi : ∀ block ∈ conjunctionPhi, VerifiedBlock block := by
  simp only [conjunctionPhi, List.forall_mem_cons, List.not_mem_nil, false_imp_iff, implies_true,
    and_true]
  refine ⟨verifiedBlock_singleton rfl, verifiedBlock_singleton rfl, verifiedBlock_singleton rfl,
    ⟨⟨[_], _, rfl, rfl, ?_⟩, ?_⟩⟩
  · simp [Instruction.isTerminator]
  · decide

theorem phisConsistent_of_no_phi {blocks : List Block}
    (h : ∀ block ∈ blocks, ∀ instruction ∈ block, isPhi instruction = false) :
    PhisConsistent blocks := by
  intro b block hblock incoming dest hphi
  cases h block (List.mem_of_getElem? hblock) _ hphi

theorem phisConsistent_conjunctionPhi : PhisConsistent conjunctionPhi := by
  intro b block hblock incoming dest hphi source
  have hexit : b = 3 := by
    by_contra hne
    match b, hblock, hne with
    | 0, hblock, _ | 1, hblock, _ | 2, hblock, _ =>
        cases hblock
        simp at hphi
    | b + 4, hblock, _ => cases hblock
  subst hexit
  cases hblock
  simp only [List.mem_cons, Instruction.phi.injEq, List.not_mem_nil, or_false, reduceCtorEq] at hphi
  obtain ⟨rfl, -⟩ := hphi
  match source with
  | 0 | 1 | 2 | 3 => decide
  | source + 4 =>
      have hout : conjunctionPhi[source + 4]? = none := rfl
      rw [edges, hout]
      simp

/-- Without PHI nodes the exits of `a && b` stay as they are. -/
theorem phis_stay_conjunction : ∃ blocks',
    LogicalAndToOr.applyMutation ⟨0, 0, 0⟩ conjunction.blocks = some blocks' ∧
    PhisConsistent blocks' ∧ TypesKept conjunction.blocks blocks' := by
  refine ⟨_, rfl, ?_⟩
  refine (@phis_stay_iff LogicalAndToOr.rules (by simp [logicalRules]) conjunction.blocks _
    verified_conjunction (phisConsistent_of_no_phi (by decide)) ⟨0, 0, 0⟩ (.argument 0) 1 3 rfl
    (.pattern1, ⟨1, 0, 2, 3⟩) (by decide) rfl).mpr ?_
  show hasPhi conjunction.blocks 3 = false
  decide

/-- The exit keeps its entry for a block that does not go there any more. -/
theorem not_phis_stay_conjunctionPhi : ∃ blocks',
    (∀ block ∈ conjunctionPhi, VerifiedBlock block) ∧ PhisConsistent conjunctionPhi ∧
    LogicalAndToOr.rules.findPossibleMutationInBranch conjunctionPhi ⟨0, 0, 1, 3⟩ =
      some (.pattern1, ⟨1, 0, 2, 3⟩) ∧
    LogicalAndToOr.applyMutation ⟨0, 0, 0⟩ conjunctionPhi = some blocks' ∧
    ¬ PhisConsistent blocks' := by
  refine ⟨_, verified_conjunctionPhi, phisConsistent_conjunctionPhi, by decide, rfl, ?_⟩
  intro hconsistent
  have hentry := hconsistent 3 _ rfl _ 0 List.mem_cons_self 0
  revert hentry
  decide

end Mull.Mutators
