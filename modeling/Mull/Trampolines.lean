import Mull.Schemata
import Mull.Semantics

/-!
# Calls through trampolines

The body that a mutated function gets loads the address of the function to be called, calls
it and returns the result.  For a function with a result and without variadic arguments that
is all of the call (`forwards_whole_call_iff`).

A module in which some functions have such bodies behaves like the one in which the
functions have the bodies that the trampolines point to (`behaviour_eq`).  Its stack has one
more activation for each call that goes through a trampoline.
-/

namespace Mull.Trampolines

open IR Mutators MutationPoints Schemata Semantics StutterSimulation

/-! ### The body of a trampoline -/

section Body

variable {T : Target} {slots : String → Option Nat} {function : Function} {trampoline : String}
  {g : Nat}

/-- The activation of a trampoline that has loaded the address of `g` and now calls it. -/
def waiting (args : List T.Val) (g : Nat) : Activation T :=
  ((Activation.start args).write 0 (.code g)).next

theorem execute_load (hslot : slots trampoline = some g) (args : List T.Val) (world : T.World) :
    (Activation.start args).execute slots [trampolineBlock function trampoline] world =
      .goOn (waiting args g) world := by
  simp [Activation.execute, Activation.instruction?, Activation.start, trampolineBlock,
    Activation.executeInstruction, Activation.loadFrom, hslot, waiting]

/-- The arguments that the trampoline passes on. -/
theorem map_argument (activation : Activation T) {n : Nat} (hn : n ≤ activation.args.length) :
    ((List.range n).map Operand.argument).map activation.value = activation.args.take n := by
  refine List.ext_getElem? fun i => ?_
  rw [List.map_map, List.getElem?_map, List.getElem?_take]
  by_cases hi : i < n
  · rw [List.getElem?_range hi, if_pos hi, Option.map_some,
      List.getElem?_eq_getElem (by omega : i < activation.args.length)]
    simp [Activation.value, Activation.eval, Content.toVal, List.getD_eq_getElem?_getD,
      List.getElem?_eq_getElem (by omega : i < activation.args.length)]
  · rw [if_neg hi, List.getElem?_eq_none (by simpa using hi), Option.map_none]

theorem execute_call (args : List T.Val) (hargs : function.type.params.length ≤ args.length)
    (world : T.World) :
    (waiting args g).execute slots [trampolineBlock function trampoline] world =
      .call (.code g) (args.take function.type.params.length) world := by
  have hmap := @map_argument _ (waiting args g) function.type.params.length hargs
  simp only [Activation.execute, Activation.instruction?, waiting, Activation.start,
    Activation.write, Activation.next, trampolineBlock] at hmap ⊢
  simp [Activation.executeInstruction, Activation.eval, hmap]

theorem afterCall_returned (args : List T.Val) (value : T.Val) (world : T.World) :
    (waiting args g).afterCall [trampolineBlock function trampoline] (.returned value) world =
      .goOn ((waiting args g).write 1 (.value value)).next world := rfl

theorem afterCall_unwound (args : List T.Val) (exception : T.Val) (world : T.World) :
    (waiting args g).afterCall [trampolineBlock function trampoline] (.unwound exception) world =
      .leave (.unwound exception) world := rfl

theorem execute_ret (args : List T.Val) (value : T.Val) (world : T.World) :
    (((waiting args g).write 1 (.value value)).next).execute slots
      [trampolineBlock function trampoline] world = .leave (.returned value) world := rfl

end Body

/-! ### The whole call -/

section Forwarding

variable {T : Target}

/-- A value is returned exactly if the function has a result. -/
def WellTyped (type : FunctionType) (blocks : List Block) : Prop :=
  ∀ block ∈ blocks, ∀ value, Instruction.ret value ∈ block → (value.isSome ↔ type.result ≠ .void)

/-- The activation goes on by itself until it is `last` and has the given effect. -/
inductive Leads (slots : String → Option Nat) (blocks : List Block) :
    Activation T → T.World → Activation T → Effect T → Prop where
  | last {activation : Activation T} {world : T.World} {effect : Effect T}
      (h : activation.execute slots blocks world = effect) :
      Leads slots blocks activation world activation effect
  | next {activation activation' last : Activation T} {world world' : T.World} {effect : Effect T}
      (h : activation.execute slots blocks world = .goOn activation' world')
      (hrest : Leads slots blocks activation' world' last effect) :
      Leads slots blocks activation world last effect

/-- The body calls `g` with the same arguments, and ends as that call ends. -/
def Forwards (slots : String → Option Nat) (blocks : List Block) (g : Nat) (args : List T.Val)
    (world : T.World) : Prop :=
  ∃ activation : Activation T,
    Leads slots blocks (.start args) world activation (.call (.code g) args world) ∧
    ∀ (outcome : Outcome T.Val) (world' : T.World),
      activation.afterCall blocks outcome world' = .leave outcome world' ∨
      ∃ activation' last, activation.afterCall blocks outcome world' = .goOn activation' world' ∧
        Leads slots blocks activation' world' last (.leave outcome world')

theorem wellTyped_trampoline_iff {function : Function} {trampoline : String} :
    WellTyped function.type [trampolineBlock function trampoline] ↔
      function.type.result ≠ .void := by
  constructor
  · intro h
    exact (h _ (List.mem_singleton_self _) (some (.register 1)) (by simp [trampolineBlock])).mp rfl
  · intro hresult block hblock value hret
    obtain rfl := List.mem_singleton.mp hblock
    simp only [trampolineBlock, List.mem_cons, reduceCtorEq, Instruction.ret.injEq, false_or,
      List.not_mem_nil, or_false] at hret
    simp [hret, hresult]

theorem forwards_trampoline_iff {function : Function} {trampoline : String}
    {slots : String → Option Nat} {g : Nat} (hslot : slots trampoline = some g) {args : List T.Val}
    (hargs : accepts function.type args.length) (world : T.World) :
    Forwards slots [trampolineBlock function trampoline] g args world ↔
      args.length = function.type.params.length := by
  have hlength : function.type.params.length ≤ args.length := by
    unfold accepts at hargs
    split at hargs <;> simp only [decide_eq_true_eq] at hargs <;> omega
  constructor
  · rintro ⟨activation, hleads, -⟩
    -- the first instruction loads, the second one is the call
    cases hleads with
    | last h =>
        rw [execute_load hslot] at h
        cases h
    | next h hrest =>
        rw [execute_load hslot] at h
        cases h
        cases hrest with
        | last h' =>
            rw [execute_call args hlength] at h'
            have htake : args.take function.type.params.length = args := by
              injection h'
            have := congrArg List.length htake
            rw [List.length_take] at this
            omega
        | next h' =>
            rw [execute_call args hlength] at h'
            cases h'
  · intro heq
    refine ⟨waiting args g, .next (execute_load hslot args world) (.last ?_), ?_⟩
    · rw [execute_call args hlength, ← heq, List.take_length]
    · rintro (value | exception) world'
      · exact .inr ⟨_, _, afterCall_returned args value world', .last (execute_ret args value world')⟩
      · exact .inl (afterCall_unwound args exception world')

/-- A machine that compares integers.  There is no code outside of the module. -/
def integers : Target where
  Val := Int
  World := Unit
  External := Unit
  constant
    | .int _ value => value
    | _ => 0
  functionAddress f := f
  globalAddress _ := 0
  noValue := 0
  compute opcode operands _ world :=
    match opcode, operands with
    | .icmp 32, [x, y] => some (if x = y then 1 else 0, world)
    | .icmp 33, [x, y] => some (if x = y then 0 else 1, world)
    | _, _ => none
  load _ _ := none
  isTrue value := value ≠ 0
  isCase value c := match c with
    | .int _ expected => value = expected
    | _ => false
  asFunction _ := none
  catchException _ world := world
  enter _ _ := ()
  enterAddress _ _ := ()
  externalStep _ world := (.trap, world)
  resume _ _ := ()

/-- A module with one function, whose body has been deleted. -/
def declared (type : FunctionType) : Module where
  identifier := "testee.bc"
  functions := [⟨"testee", type, []⟩]
  globals := []

/-- A comparison of the function is negated. -/
def testeePoint (type : FunctionType) : MutationPoint :=
  MutationPoint.create negateConditionMutator (some (.cmp .icmpEq .icmpNe)) ⟨0, 0, 0⟩ (.compute (.icmp 32) [] 0) 0
    ⟨declared type, "testee"⟩

/-- The points of the function. -/
def testeePoints (type : FunctionType) : MutationPointsMap := [(0, [(testeePoint type, 0)])]

/-- What the last pass makes of `testee`. -/
def redirectedTestee (type : FunctionType) : Module :=
  insertTrampolines "testee" (testeePoints type) (declared type)

end Forwarding
/-! ### What an activation leaves as it is -/

section Execution

variable {T : Target} {slots : String → Option Nat} {blocks : List Block}

/-- The operand refers to a function or a variable of the module. -/
def RefersTo (m : Module) : Operand → Prop
  | .function f => f < m.functions.length
  | .global name => name ∈ m.globals
  | _ => True

def Closed (m : Module) (blocks : List Block) : Prop :=
  ∀ block ∈ blocks, ∀ instruction ∈ block, ∀ operand ∈ instruction.operands, RefersTo m operand

/-- The address is one of the first `n` functions, if it is that of a function. -/
def InModule (n : Nat) (content : Content T) : Prop := ∀ f, content = .code f → f < n

/-- The registers hold no other addresses. -/
def RegistersInModule (n : Nat) (activation : Activation T) : Prop :=
  ∀ r, InModule n (activation.registers r)

/-- The arguments are the same, and no other addresses have come in. -/
def Keeps (n : Nat) (activation : Activation T) : Effect T → Prop
  | .goOn activation' _ => activation'.args = activation.args ∧ RegistersInModule n activation'
  | .call callee _ _ => InModule n callee
  | .leave .. | .trap _ => True

theorem inModule_value (n : Nat) (value : T.Val) : InModule n (.value value : Content T) := by
  intro f h
  cases h

theorem registersInModule_start (n : Nat) (args : List T.Val) :
    RegistersInModule n (Activation.start args) := fun _ => inModule_value n _

theorem RegistersInModule.write {n : Nat} {activation : Activation T}
    (h : RegistersInModule n activation) {content : Content T} (hcontent : InModule n content)
    (dest : Nat) : RegistersInModule n (activation.write dest content) := by
  intro r
  by_cases hr : r = dest
  · subst hr
    simpa [Activation.write] using hcontent
  · simpa [Activation.write, Function.update_of_ne hr] using h r

theorem RegistersInModule.eval {m : Module} {activation : Activation T}
    (h : RegistersInModule m.functions.length activation) {operand : Operand}
    (hoperand : RefersTo m operand) : InModule m.functions.length (activation.eval operand) := by
  cases operand with
  | register r => exact h r
  | function f =>
      intro f' heq
      cases heq
      exact hoperand
  | _ => exact inModule_value _ _

theorem phiValues_inModule {m : Module} {activation : Activation T}
    (h : RegistersInModule m.functions.length activation) {source : Nat} {block : Block}
    (hblock : ∀ instruction ∈ block, ∀ operand ∈ instruction.operands, RefersTo m operand)
    {values : List (Nat × Content T)} (hvalues : activation.phiValues source block = some values) :
    ∀ value ∈ values, InModule m.functions.length value.2 := by
  induction block generalizing values with
  | nil =>
      cases hvalues
      simp
  | cons instruction block ih =>
      obtain ⟨hinstruction, hrest⟩ := List.forall_mem_cons.mp hblock
      cases instruction with
      | phi incoming dest =>
          simp only [Activation.phiValues, Option.bind_eq_bind, Option.bind_eq_some_iff] at hvalues
          obtain ⟨entry, hentry, rest, hvalues, heq⟩ := hvalues
          cases heq
          refine List.forall_mem_cons.mpr ⟨h.eval (hinstruction _ ?_), ih hrest hvalues⟩
          exact List.mem_map_of_mem (List.mem_of_find?_eq_some hentry)
      | _ =>
          cases hvalues
          simp

theorem foldl_write {n : Nat} {activation : Activation T} (h : RegistersInModule n activation)
    {values : List (Nat × Content T)} (hvalues : ∀ value ∈ values, InModule n value.2) :
    (values.foldl (fun activation value => activation.write value.1 value.2) activation).args =
      activation.args ∧
    RegistersInModule n
      (values.foldl (fun activation value => activation.write value.1 value.2) activation) := by
  induction values generalizing activation with
  | nil => exact ⟨rfl, h⟩
  | cons value values ih =>
      obtain ⟨hvalue, hrest⟩ := List.forall_mem_cons.mp hvalues
      exact ih (h.write hvalue value.1) hrest

theorem keeps_jump {m : Module} (hclosed : Closed m blocks) {activation : Activation T}
    (h : RegistersInModule m.functions.length activation) (target : Nat) (world : T.World) :
    Keeps m.functions.length activation (activation.jump blocks target world) := by
  unfold Activation.jump
  cases hvalues : blocks[target]?.bind (activation.phiValues activation.block) with
  | none => trivial
  | some values =>
      obtain ⟨block, hblock, hvalues⟩ := Option.bind_eq_some_iff.mp hvalues
      exact foldl_write h
        (phiValues_inModule h (hclosed block (List.mem_of_getElem? hblock)) hvalues)

theorem instruction?_operands {m : Module} (hclosed : Closed m blocks) {activation : Activation T}
    {instruction : Instruction} (hinstruction : activation.instruction? blocks = some instruction) :
    ∀ operand ∈ instruction.operands, RefersTo m operand := by
  obtain ⟨block, hblock, hget⟩ := Option.bind_eq_some_iff.mp hinstruction
  exact hclosed block (List.mem_of_getElem? hblock) instruction (List.mem_of_getElem? hget)

/-- Where no trampoline is mentioned, the trampolines do not matter. -/
theorem execute_slots {m : Module} (hclosed : Closed m blocks)
    (hslots : ∀ name ∈ m.globals, slots name = none) (activation : Activation T)
    (world : T.World) :
    activation.execute slots blocks world = activation.execute noSlots blocks world := by
  unfold Activation.execute
  cases hinstruction : activation.instruction? blocks with
  | none => rfl
  | some instruction =>
      cases instruction with
      | load pointer dest =>
          have hpointer := instruction?_operands hclosed hinstruction pointer (List.mem_singleton_self _)
          have hload : activation.loadFrom slots pointer world =
              activation.loadFrom noSlots pointer world := by
            cases pointer with
            | global name => simp only [Activation.loadFrom, hslots name hpointer, noSlots]
            | _ => rfl
          simp only [Activation.executeInstruction, hload]
      | ret value => cases value <;> rfl
      | _ => rfl

theorem keeps_execute {m : Module} (hclosed : Closed m blocks) {activation : Activation T}
    (h : RegistersInModule m.functions.length activation) (world : T.World) :
    Keeps m.functions.length activation (activation.execute noSlots blocks world) := by
  unfold Activation.execute
  cases hinstruction : activation.instruction? blocks with
  | none => trivial
  | some instruction =>
      have hoperands := instruction?_operands hclosed hinstruction
      cases instruction with
      | compute opcode operands dest =>
          simp only [Activation.executeInstruction]
          split
          · trivial
          · exact ⟨rfl, h.write (inModule_value _ _) dest⟩
      | load pointer dest =>
          simp only [Activation.executeInstruction]
          split
          · trivial
          · rename_i content hcontent
            have hvalue : InModule m.functions.length content := by
              have hmap : (T.load (activation.value pointer) world).map Content.value =
                  some content := by
                cases pointer <;> exact hcontent
              obtain ⟨value, -, rfl⟩ := Option.map_eq_some_iff.mp hmap
              exact inModule_value _ _
            exact ⟨rfl, h.write hvalue dest⟩
      | call callee args dest => exact h.eval (hoperands callee (by simp [Instruction.operands]))
      | invoke callee args normal unwind dest =>
          exact h.eval (hoperands callee (by simp [Instruction.operands]))
      | br target => exact keeps_jump hclosed h _ _
      | condBr condition ifTrue ifFalse => exact keeps_jump hclosed h _ _
      | switch value default cases => exact keeps_jump hclosed h _ _
      | ret value => cases value <;> trivial
      | _ => trivial

theorem keeps_afterCall {m : Module} (hclosed : Closed m blocks) {activation : Activation T}
    (h : RegistersInModule m.functions.length activation) (outcome : Outcome T.Val)
    (world : T.World) :
    Keeps m.functions.length activation (activation.afterCall blocks outcome world) := by
  unfold Activation.afterCall
  split
  · exact ⟨rfl, h.write (inModule_value _ _) _⟩
  · trivial
  · exact keeps_jump hclosed (h.write (inModule_value _ _) _) _ _
  · exact keeps_jump hclosed h _ _
  · trivial

/-- An activation that ends does not change the world. -/
theorem world_of_execute_leave {activation : Activation T} {world world' : T.World}
    {outcome : Outcome T.Val}
    (h : activation.execute slots blocks world = .leave outcome world') : world' = world := by
  unfold Activation.execute at h
  cases hinstruction : activation.instruction? blocks with
  | none => simp [hinstruction] at h
  | some instruction =>
      simp only [hinstruction] at h
      have hjump : ∀ target, activation.jump blocks target world ≠ .leave outcome world' := by
        intro target
        unfold Activation.jump
        split <;> simp
      cases instruction with
      | ret value =>
          cases value <;>
          · injection h with _ hworld
            exact hworld.symm
      | resume operand =>
          injection h with _ hworld
          exact hworld.symm
      | br target => exact absurd h (hjump _)
      | condBr condition ifTrue ifFalse => exact absurd h (hjump _)
      | switch value default cases => exact absurd h (hjump _)
      | compute opcode operands dest =>
          simp only [Activation.executeInstruction] at h
          split at h <;> cases h
      | load pointer dest =>
          simp only [Activation.executeInstruction] at h
          split at h <;> cases h
      | _ => cases h

theorem world_of_afterCall_leave {activation : Activation T} {world world' : T.World}
    {outcome outcome' : Outcome T.Val}
    (h : activation.afterCall blocks outcome world = .leave outcome' world') : world' = world := by
  have hjump : ∀ (activation : Activation T) target (world₁ : T.World),
      activation.jump blocks target world₁ ≠ .leave outcome' world' := by
    intro activation target world₁
    unfold Activation.jump
    split <;> simp
  unfold Activation.afterCall at h
  split at h
  · cases h
  · injection h with _ hworld
    exact hworld.symm
  · exact absurd h (hjump _ _ _)
  · exact absurd h (hjump _ _ _)
  · cases h

end Execution

/-! ### Modules with trampolines -/

/-- Some functions of `m` have become trampolines in `m'`: where `redirect` gives a variable
    and a function, the variable holds the address of the function, which has the body that
    `m` has. -/
structure Redirects (slots : String → Option Nat) (redirect : Nat → Option (String × Nat))
    (m m' : Module) : Prop where
  closed : ∀ function ∈ m.functions, Closed m function.blocks
  globals : ∀ name ∈ m.globals, slots name = none
  kept : ∀ k < m.functions.length, redirect k = none → m'.functions[k]? = m.functions[k]?
  redirected : ∀ k trampoline g, redirect k = some (trampoline, g) →
    slots trampoline = some g ∧ ∃ function copy, m.functions[k]? = some function ∧
      function.blocks ≠ [] ∧ function.type.variadic = false ∧
      m'.functions[k]? = some { function with blocks := [trampolineBlock function trampoline] } ∧
      m'.functions[g]? = some copy ∧ copy.type = function.type ∧ copy.blocks = function.blocks

section Simulation

variable {T : Target} {slots : String → Option Nat} {redirect : Nat → Option (String × Nat)}
  {m m' : Module}

/-- Where a call of function `k` ends up. -/
def landing (redirect : Nat → Option (String × Nat)) (k : Nat) : Nat :=
  ((redirect k).map Prod.snd).getD k

/-- The activation of the trampoline, if there is one. -/
def below (redirect : Nat → Option (String × Nat)) (k : Nat) (args : List T.Val) : List (Frame T) :=
  match redirect k with
  | none => []
  | some (_, g) => [.code k (waiting args g)]

/-- An activation of `m`, with the trampoline that it has been called through. -/
def liftFrame (redirect : Nat → Option (String × Nat)) : Frame T → List (Frame T)
  | .code k activation => .code (landing redirect k) activation :: below redirect k activation.args
  | .external external => [.external external]

def lift (redirect : Nat → Option (String × Nat)) (stack : List (Frame T)) : List (Frame T) :=
  stack.flatMap (liftFrame redirect)

def liftState (redirect : Nat → Option (String × Nat)) (state : State T) : State T :=
  match state with
  | .running stack world => .running (lift redirect stack) world
  | .returning outcome stack world => .returning outcome (lift redirect stack) world
  | .trapped world => .trapped world

/-- The activations are of functions of the module, and hold no other addresses. -/
def StackInModule (n : Nat) (stack : List (Frame T)) : Prop :=
  ∀ k activation, Frame.code k activation ∈ stack → k < n ∧ RegistersInModule n activation

def StateInModule (n : Nat) (state : State T) : Prop :=
  match state with
  | .running stack _ | .returning _ stack _ => StackInModule n stack
  | .trapped _ => True

/-- The states that belong together.  In between, the trampoline enters its function or
    leaves it. -/
inductive Related (redirect : Nat → Option (String × Nat)) (m : Module) :
    Nat → State T → State T → Prop where
  | matched {state : State T} (hstate : StateInModule m.functions.length state) :
      Related redirect m 3 state (liftState redirect state)
  | entering {k g : Nat} {trampoline : String} {args : List T.Val} {stack : List (Frame T)}
      {world : T.World} (hredirect : redirect k = some (trampoline, g))
      (hargs : m.functions[k]?.map (fun function => function.type.params.length) = some args.length)
      (hstack : StackInModule m.functions.length stack) :
      Related redirect m 5 (.running (.code k (.start args) :: stack) world)
        (.running (.code k (.start args) :: lift redirect stack) world)
  | loaded {k g : Nat} {trampoline : String} {args : List T.Val} {stack : List (Frame T)}
      {world : T.World} (hredirect : redirect k = some (trampoline, g))
      (hargs : m.functions[k]?.map (fun function => function.type.params.length) = some args.length)
      (hstack : StackInModule m.functions.length stack) :
      Related redirect m 4 (.running (.code k (.start args) :: stack) world)
        (.running (.code k (waiting args g) :: lift redirect stack) world)
  | leaving {k g : Nat} {trampoline : String} {args : List T.Val} {outcome : Outcome T.Val}
      {state : State T} {stack : List (Frame T)} {world : T.World}
      (hredirect : redirect k = some (trampoline, g))
      (hstep : step m noSlots state = some (.returning outcome stack world))
      (hobserve : observe state = .running world)
      (hstack : StackInModule m.functions.length stack) :
      Related redirect m 2 state
        (.returning outcome (.code k (waiting args g) :: lift redirect stack) world)
  | result {k g : Nat} {trampoline : String} {args : List T.Val} {value : T.Val}
      {state : State T} {stack : List (Frame T)} {world : T.World}
      (hredirect : redirect k = some (trampoline, g))
      (hstep : step m noSlots state = some (.returning (.returned value) stack world))
      (hobserve : observe state = .running world)
      (hstack : StackInModule m.functions.length stack) :
      Related redirect m 1 state (.running
        (.code k ((waiting args g).write 1 (.value value)).next :: lift redirect stack) world)

theorem lift_cons (frame : Frame T) (stack : List (Frame T)) :
    lift redirect (frame :: stack) = liftFrame redirect frame ++ lift redirect stack := rfl

theorem below_of_some {k g : Nat} {trampoline : String} (h : redirect k = some (trampoline, g))
    (args : List T.Val) : below redirect k args = [.code k (waiting args g)] := by
  simp [below, h]

theorem stackInModule_cons {n k : Nat} {activation : Activation T} {stack : List (Frame T)} :
    StackInModule n (.code k activation :: stack) ↔
      (k < n ∧ RegistersInModule n activation) ∧ StackInModule n stack := by
  constructor
  · intro h
    exact ⟨h k activation List.mem_cons_self,
      fun k' activation' hmem => h k' activation' (List.mem_cons_of_mem _ hmem)⟩
  · rintro ⟨hframe, hstack⟩ k' activation' hmem
    rcases List.mem_cons.mp hmem with heq | hmem
    · cases heq
      exact hframe
    · exact hstack k' activation' hmem

theorem stackInModule_external {n : Nat} {external : T.External} {stack : List (Frame T)} :
    StackInModule n (.external external :: stack) ↔ StackInModule n stack := by
  constructor
  · intro h k activation hmem
    exact h k activation (List.mem_cons_of_mem _ hmem)
  · intro h k activation hmem
    rcases List.mem_cons.mp hmem with heq | hmem
    · cases heq
    · exact h k activation hmem

namespace Redirects

variable (h : Redirects slots redirect m m')

include h

/-- The function that a call ends up in has the body of the one that was called. -/
theorem body_landing {k : Nat} (hk : k < m.functions.length) :
    body m' (landing redirect k) = body m k := by
  cases hredirect : redirect k with
  | none => simp only [landing, hredirect, Option.map_none, Option.getD_none, body, h.kept k hk hredirect]
  | some entry =>
      obtain ⟨trampoline, g⟩ := entry
      obtain ⟨-, function, copy, hfunction, -, -, -, hcopy, -, hblocks⟩ :=
        h.redirected k trampoline g hredirect
      simp [landing, hredirect, body, hfunction, hcopy, hblocks]

theorem closed_body (k : Nat) : Closed m (body m k) := by
  unfold body
  cases hfunction : m.functions[k]? with
  | none =>
      intro block hblock
      cases hblock
  | some function => exact h.closed function (List.mem_of_getElem? hfunction)

theorem body_trampoline {k g : Nat} {trampoline : String}
    (hredirect : redirect k = some (trampoline, g)) :
    slots trampoline = some g ∧ ∃ function, m.functions[k]? = some function ∧
      body m' k = [trampolineBlock function trampoline] := by
  obtain ⟨hslot, function, copy, hfunction, -, -, htrampoline, -⟩ :=
    h.redirected k trampoline g hredirect
  exact ⟨hslot, function, hfunction, by simp [body, htrampoline]⟩

/-- A call leads to related states. -/
theorem related_call (haddress : ∀ value f, T.asFunction value = some f → f < m.functions.length)
    {callee : Content T} (hcallee : InModule m.functions.length callee) (args : List T.Val)
    {stack : List (Frame T)} (hstack : StackInModule m.functions.length stack) (world : T.World) :
    ∃ n, Related redirect m n (call m callee args stack world)
      (call m' callee args (lift redirect stack) world) := by
  unfold call
  cases hcallee? : callee.function? with
  | none => exact ⟨3, @Related.matched T redirect m (.running (.external _ :: stack) world)
      (stackInModule_external.mpr hstack)⟩
  | some f =>
      have hf : f < m.functions.length := by
        cases callee with
        | code f' =>
            cases hcallee?
            exact hcallee f rfl
        | value v => exact haddress v f hcallee?
      simp only [List.getElem?_eq_getElem hf]
      cases hredirect : redirect f with
      | none =>
          rw [h.kept f hf hredirect, List.getElem?_eq_getElem hf]
          simp only
          by_cases haccepts : accepts m.functions[f].type args.length
          · rw [if_pos haccepts, if_pos haccepts]
            split
            · exact ⟨3, @Related.matched T redirect m (.running (.external _ :: stack) world)
                (stackInModule_external.mpr hstack)⟩
            · have hlift : lift redirect (.code f (.start args) :: stack) =
                  .code f (.start args) :: lift redirect stack := by
                simp [lift_cons, liftFrame, landing, below, hredirect]
              rw [← hlift]
              exact ⟨3, @Related.matched T redirect m (.running (.code f (.start args) :: stack) world)
                (stackInModule_cons.mpr ⟨⟨hf, registersInModule_start _ args⟩, hstack⟩)⟩
          · rw [if_neg haccepts, if_neg haccepts]
            exact ⟨3, @Related.matched T redirect m (.trapped world) trivial⟩
      | some entry =>
          obtain ⟨trampoline, g⟩ := entry
          obtain ⟨-, function, copy, hfunction, hblocks, hfixed, htrampoline, -⟩ :=
            h.redirected f trampoline g hredirect
          obtain rfl : m.functions[f] = function :=
            Option.some.inj ((List.getElem?_eq_getElem hf).symm.trans hfunction)
          have hdefined : m.functions[f].isDeclaration = false := by
            simpa [Function.isDeclaration] using hblocks
          have hdefined' : ({ m.functions[f] with
              blocks := [trampolineBlock m.functions[f] trampoline] } : Function).isDeclaration =
              false := rfl
          simp only [htrampoline, hdefined, hdefined', Bool.false_eq_true, if_false]
          split
          · rename_i haccepts
            simp only [accepts, hfixed, Bool.false_eq_true, if_false, decide_eq_true_eq] at haccepts
            exact ⟨5, .entering hredirect (by simp [hfunction, haccepts]) hstack⟩
          · exact ⟨3, @Related.matched T redirect m (.trapped world) trivial⟩

/-- An activation on top of the stack has the same effect in both modules. -/
theorem progress_effect (haddress : ∀ value f, T.asFunction value = some f → f < m.functions.length)
    {effect : Effect T} {k : Nat} {activation : Activation T}
    {stack : List (Frame T)} {state : State T} {world : T.World}
    (hstep : step m noSlots state = some (effect.apply m k activation stack))
    (hstep' : step m' slots (liftState redirect state) = some (effect.apply m' (landing redirect k)
      activation (below redirect k activation.args ++ lift redirect stack)))
    (hobserve : observe state = .running world)
    (hleave : ∀ outcome world', effect = .leave outcome world' → world' = world)
    (hkeeps : Keeps m.functions.length activation effect)
    (hstack : StackInModule m.functions.length (.code k activation :: stack)) :
    (∃ state₁ state₂ n, step m noSlots state = some state₁ ∧
      step m' slots (liftState redirect state) = some state₂ ∧ Related redirect m n state₁ state₂) ∨
    ∃ state₂ n, step m' slots (liftState redirect state) = some state₂ ∧
      Related redirect m n state state₂ ∧ n < 3 := by
  obtain ⟨⟨hk, -⟩, hrest⟩ := stackInModule_cons.mp hstack
  cases effect with
  | goOn activation' world' =>
      obtain ⟨hargs, hregisters⟩ := hkeeps
      refine .inl ⟨_, _, 3, hstep, hstep', ?_⟩
      have hlift : liftState redirect (.running (.code k activation' :: stack) world') =
          .running (.code (landing redirect k) activation' ::
            (below redirect k activation.args ++ lift redirect stack)) world' := by
        rw [← hargs]
        rfl
      rw [Effect.apply, Effect.apply, ← hlift]
      exact .matched (stackInModule_cons.mpr ⟨⟨hk, hregisters⟩, hrest⟩)
  | call callee args world' =>
      obtain ⟨n, hrelated⟩ := h.related_call haddress hkeeps args hstack world'
      exact .inl ⟨_, _, n, hstep, hstep', hrelated⟩
  | leave outcome world' =>
      obtain rfl := hleave outcome world' rfl
      cases hredirect : redirect k with
      | none =>
          refine .inl ⟨_, _, 3, hstep, hstep', ?_⟩
          have hbelow : below redirect k activation.args ++ lift redirect stack =
              lift redirect stack := by
            simp [below, hredirect]
          rw [Effect.apply, Effect.apply, hbelow]
          exact @Related.matched T redirect m (.returning outcome stack world') hrest
      | some entry =>
          -- the trampoline is left later
          obtain ⟨trampoline, g⟩ := entry
          refine .inr ⟨_, 2, hstep', ?_, by omega⟩
          rw [Effect.apply, below_of_some hredirect]
          exact .leaving hredirect hstep hobserve hrest
  | trap world' =>
      exact .inl ⟨_, _, 3, hstep, hstep', @Related.matched T redirect m (.trapped world') trivial⟩

theorem progress_matched (haddress : ∀ value f, T.asFunction value = some f → f < m.functions.length)
    {state : State T} (hstate : StateInModule m.functions.length state) :
    (∃ state₁ state₂ n, step m noSlots state = some state₁ ∧
      step m' slots (liftState redirect state) = some state₂ ∧ Related redirect m n state₁ state₂) ∨
    (step m noSlots state = none ∧ step m' slots (liftState redirect state) = none) ∨
    ∃ state₂ n, step m' slots (liftState redirect state) = some state₂ ∧
      Related redirect m n state state₂ ∧ n < 3 := by
  cases state with
  | trapped world => exact .inr (.inl ⟨rfl, rfl⟩)
  | running stack world =>
      match stack, hstate with
      | [], _ => exact .inr (.inl ⟨rfl, rfl⟩)
      | .code k activation :: stack, hstate =>
          obtain ⟨⟨hk, hregisters⟩, -⟩ := stackInModule_cons.mp hstate
          have hexecute := execute_slots (h.closed_body k) h.globals activation world
          refine (h.progress_effect haddress rfl ?_ rfl (fun outcome world' => world_of_execute_leave)
            (keeps_execute (h.closed_body k) hregisters world) hstate).imp_right .inr
          rw [← hexecute, ← h.body_landing hk]
          rfl
      | .external external :: stack, hstate =>
          have hstack := stackInModule_external.mp hstate
          refine .inl ?_
          simp only [liftState, lift_cons, liftFrame, List.singleton_append, step]
          cases haction : T.externalStep external world with
          | mk action world' =>
              cases action with
              | goOn external' =>
                  exact ⟨_, _, 3, rfl, rfl, @Related.matched T redirect m
                    (.running (.external external' :: stack) world')
                    (stackInModule_external.mpr hstack)⟩
              | call callee args external' =>
                  obtain ⟨n, hrelated⟩ := h.related_call haddress (inModule_value _ callee) args
                    (@stackInModule_external _ _ external' _ |>.mpr hstack) world'
                  exact ⟨_, _, n, rfl, rfl, hrelated⟩
              | leave outcome =>
                  exact ⟨_, _, 3, rfl, rfl, @Related.matched T redirect m
                    (.returning outcome stack world') hstack⟩
              | trap =>
                  exact ⟨_, _, 3, rfl, rfl, @Related.matched T redirect m (.trapped world') trivial⟩
  | returning outcome stack world =>
      match stack, hstate with
      | [], _ => exact .inr (.inl ⟨rfl, rfl⟩)
      | .code k activation :: stack, hstate =>
          obtain ⟨⟨hk, hregisters⟩, -⟩ := stackInModule_cons.mp hstate
          refine (h.progress_effect haddress rfl ?_ rfl (fun outcome world' => world_of_afterCall_leave)
            (keeps_afterCall (h.closed_body k) hregisters outcome world) hstate).imp_right .inr
          rw [← h.body_landing hk]
          rfl
      | .external external :: stack, hstate =>
          exact .inl ⟨_, _, 3, rfl, rfl, @Related.matched T redirect m
            (.running (.external (T.resume external outcome) :: stack) world)
            (stackInModule_external.mpr (stackInModule_external.mp hstate))⟩

theorem simulation (haddress : ∀ value f, T.asFunction value = some f → f < m.functions.length) :
    Simulation (step m noSlots) (step m' slots) observe observe (Related (T := T) redirect m) where
  label {n state state'} hrelated := by
    cases hrelated with
    | matched hstate =>
        cases state with
        | returning outcome stack world =>
            cases stack with
            | nil => rfl
            | cons frame stack => cases frame <;> rfl
        | _ => rfl
    | entering => rfl
    | loaded => rfl
    | leaving _ _ hobserve => exact hobserve
    | result _ _ hobserve => exact hobserve
  progress {n state state'} hrelated := by
    cases hrelated with
    | matched hstate => exact h.progress_matched haddress hstate
    | @entering k g trampoline args stack world hredirect hargs hstack =>
        obtain ⟨hslot, function, hfunction, hbody⟩ := h.body_trampoline hredirect
        refine .inr (.inr ⟨_, 4, ?_, .loaded hredirect hargs hstack, by omega⟩)
        rw [step, hbody, execute_load hslot]
        rfl
    | @loaded k g trampoline args stack world hredirect hargs hstack =>
        obtain ⟨hslot, function, copy, hfunction, hblocks, hfixed, htrampoline, hcopy, htype, hsame⟩ :=
          h.redirected k trampoline g hredirect
        have hbody : body m' k = [trampolineBlock function trampoline] := by
          simp [body, htrampoline]
        have hlength : function.type.params.length = args.length := by simpa [hfunction] using hargs
        have hk := (List.getElem?_eq_some_iff.mp hfunction).1
        refine .inr (.inr ⟨_, 3, ?_, @Related.matched T redirect m
          (.running (.code k (.start args) :: stack) world)
          (stackInModule_cons.mpr ⟨⟨hk, registersInModule_start _ args⟩, hstack⟩), by omega⟩)
        have hdefined : copy.isDeclaration = false := by
          simpa [Function.isDeclaration, hsame] using hblocks
        have haccepts : accepts copy.type args.length = true := by
          simp [accepts, htype, hfixed, hlength]
        rw [step, hbody, execute_call args hlength.le, hlength, List.take_length]
        simp [Effect.apply, Semantics.call, Content.function?, hcopy, haccepts, hdefined, liftState,
          lift_cons, liftFrame, landing, below, hredirect, Activation.start]
    | @leaving k g trampoline args outcome state stack world hredirect hstep hobserve hstack =>
        obtain ⟨-, function, -, hbody⟩ := h.body_trampoline hredirect
        cases outcome with
        | returned value =>
            refine .inr (.inr ⟨.running (.code k ((waiting args g).write 1 (.value value)).next ::
              lift redirect stack) world, 1, ?_, .result hredirect hstep hobserve hstack, by omega⟩)
            rw [step, hbody, afterCall_returned]
            rfl
        | unwound exception =>
            refine .inl ⟨_, _, 3, hstep, ?_, @Related.matched T redirect m
              (.returning (.unwound exception) stack world) hstack⟩
            rw [step, hbody, afterCall_unwound]
            rfl
    | @result k g trampoline args value state stack world hredirect hstep hobserve hstack =>
        obtain ⟨-, function, -, hbody⟩ := h.body_trampoline hredirect
        refine .inl ⟨_, _, 3, hstep, ?_, @Related.matched T redirect m
          (.returning (.returned value) stack world) hstack⟩
        rw [step, hbody, execute_ret]
        rfl

/-- **A module with trampolines behaves like the one whose functions have the bodies that the
    trampolines lead to.** -/
theorem behaviour_eq (haddress : ∀ value f, T.asFunction value = some f → f < m.functions.length)
    {f : Nat} (hf : f < m.functions.length) (args : List T.Val) (world : T.World) :
    behaviour T m' slots f args world = behaviour T m noSlots f args world := by
  have hcode : InModule m.functions.length (Content.code f : Content T) := by
    rintro f' ⟨⟩
    exact hf
  have hempty : StackInModule m.functions.length ([] : List (Frame T)) := by
    intro k activation hmem
    cases hmem
  obtain ⟨n, hrelated⟩ := h.related_call haddress hcode args hempty world
  exact ((h.simulation haddress).shown_eq hrelated).symm

end Redirects

end Simulation

end Mull.Trampolines
