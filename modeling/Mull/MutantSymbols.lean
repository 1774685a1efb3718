import Mull.MutationsFinder
import Mull.SchemataLayout

/-!
# The mutant that is run

To run a mutant, the address of its clone is looked up by the identifier of its point.
The files of the program are loaded together, so the lookup is among all definitions of
all prepared modules.  It finds the clone of the point, and only it, if the identifiers
are distinct and no function is named by one of them already.
-/

namespace Mull.MutantSymbols

open IR Mutators MutatorsFactory MutationPoints MutationsFinder Schemata

section Symbols

variable (mutation : BodyMutation) (addressOf : Nat → Nat → Nat) (mangling : String)
  (program : Program) (points : List MutationPoint)

/-- File `b` after the preparation of all points. -/
def preparedBitcode (b : Nat) : Option Prepared :=
  program.bitcode[b]?.map (prepare mutation (addressOf b) (pointersOf points b))

/-- The loaded program has a definition under that name: function `f` of file `b`. -/
def IsSymbol (symbol : String) (b f : Nat) : Prop :=
  ∃ (prepared : Prepared) (function : Function),
    preparedBitcode mutation addressOf program points b = some prepared ∧
    prepared.module.functions[f]? = some function ∧ function.isDeclaration = false ∧
    mangling ++ function.name = symbol

/-- The symbol that is looked up for point `p` is its clone: the body of its function
    with its own mutation.  No other point has that clone. -/
structure OwnMutation (p : Nat) (point : MutationPoint) (prepared : Prepared) (f : Nat) :
    Prop where
  bitcode : preparedBitcode mutation addressOf program points point.bitcode = some prepared
  clone : prepared.mutatedFunction p = some f
  symbol : ∀ b g, IsSymbol mutation addressOf mangling program points
    (mangling ++ point.uniqueIdentifier) b g ↔ b = point.bitcode ∧ g = f
  body : prepared.module.functions[f]?.map Function.blocks =
    some (mutation.apply point (body program (point.bitcode, point.originalFunction)))
  other : ∀ q point', points[q]? = some point' → point'.bitcode = point.bitcode →
    prepared.mutatedFunction q = some f → q = p

/-- No symbol of a point's file, and no definition of the program, is named by the
    identifier of the point. -/
def NamesFree : Prop :=
  ∀ point ∈ points, ∀ (b : Nat) (bitcode : Bitcode), program.bitcode[b]? = some bitcode →
    (b = point.bitcode → point.uniqueIdentifier ∉ bitcode.module.names) ∧
    ∀ function ∈ bitcode.module.functions, function.isDeclaration = false →
      function.name ≠ point.uniqueIdentifier

end Symbols

/-- Distinct points have distinct identifiers; and whichever points the filters keep,
    each of them is run with its own mutation. -/
def EachRunsItsOwn (mutation : BodyMutation) (addressOf : Nat → Nat → Nat) (mangling : String)
    (program : Program) (points : List MutationPoint) : Prop :=
  (points.map (·.uniqueIdentifier)).Nodup ∧
    ∀ kept : List MutationPoint, kept.Sublist points → ∀ p point, kept[p]? = some point →
      ∃ prepared f, OwnMutation mutation addressOf mangling program kept p point prepared f

/-! ### Points and files -/

section Files

variable {mutation : BodyMutation} {addressOf : Nat → Nat → Nat} {mangling : String}
  {program : Program} {points : List MutationPoint}

theorem mem_pointersOf {b : Nat} {pointer : Pointer} :
    pointer ∈ pointersOf points b ↔
      points[pointer.2]? = some pointer.1 ∧ pointer.1.bitcode = b := by
  rw [pointersOf, List.mem_filter, List.mem_zipIdx_iff_getElem?, decide_eq_true_iff]

theorem pointersOf_nodup (points : List MutationPoint) (b : Nat) :
    ((pointersOf points b).map Prod.snd).Nodup := by
  have hall : (points.zipIdx.map Prod.snd).Nodup := by
    rw [List.zipIdx_map_snd]
    exact List.nodup_range'
  exact hall.sublist (List.filter_sublist.map _)

/-- The function of a found point is there, and has a body. -/
theorem Found.function_exists {point : MutationPoint} (h : Found program point) :
    ∃ (bitcode : Bitcode) (function : Function), program.bitcode[point.bitcode]? = some bitcode ∧
      bitcode.module.functions[point.originalFunction]? = some function ∧
      function.blocks ≠ [] ∧ body program (point.bitcode, point.originalFunction) = function.blocks := by
  obtain ⟨bitcode, hbitcode, -⟩ := h.bitcode
  have hinstruction := h.instruction
  simp only [body, hbitcode, Option.bind_some] at hinstruction ⊢
  cases hfunction : bitcode.module.functions[point.originalFunction]? with
  | none => simp [hfunction, MutationPointAddress.findInstruction] at hinstruction
  | some function =>
      refine ⟨bitcode, function, rfl, hfunction, ?_, rfl⟩
      intro hempty
      simp [hfunction, hempty, MutationPointAddress.findInstruction] at hinstruction

theorem pointers_valid (hfound : ∀ point ∈ points, Found program point) {b : Nat}
    {bitcode : Bitcode} (hb : program.bitcode[b]? = some bitcode) :
    ∀ pointer ∈ pointersOf points b,
      pointer.1.originalFunction < bitcode.module.functions.length := by
  intro pointer hpointer
  obtain ⟨hget, hbitcode⟩ := mem_pointersOf.mp hpointer
  obtain ⟨bitcode', function, hb', hfunction, -⟩ :=
    Found.function_exists (hfound _ (List.mem_of_getElem? hget))
  rw [hbitcode, hb] at hb'
  obtain rfl := Option.some.inj hb'
  exact (List.getElem?_eq_some_iff.mp hfunction).1

/-- A definition stays a definition, under the same name. -/
theorem isSymbol_of_definition (hfound : ∀ point ∈ points, Found program point) {b k : Nat}
    {bitcode : Bitcode} {function : Function} (hb : program.bitcode[b]? = some bitcode)
    (hfunction : bitcode.module.functions[k]? = some function)
    (hbody : function.isDeclaration = false) :
    IsSymbol mutation addressOf mangling program points (mangling ++ function.name) b k := by
  obtain ⟨names, hlayout, -⟩ := @exists_layout (addressOf b) _ bitcode mutation
    (pointersOf_nodup points b) (pointers_valid hfound hb)
  have hget := hlayout.original k (List.getElem?_eq_some_iff.mp hfunction).1
  rw [hfunction, Option.map_some] at hget
  refine ⟨_, _, by rw [preparedBitcode, hb, Option.map_some], hget, ?_, ?_⟩
  · split
    · rfl
    · exact hbody
  · split <;> rfl

/-- The clone of a point, at its position. -/
theorem exists_clone (addressOf : Nat → Nat → Nat) (hfound : ∀ point ∈ points, Found program point)
    {p : Nat} {point : MutationPoint} (hp : points[p]? = some point) :
    ∃ bitcode, program.bitcode[point.bitcode]? = some bitcode ∧
      ∃ j : Nat, (clonedPointers (addressOf point.bitcode) (pointersOf points point.bitcode))[j]? =
        some (point, p) := by
  obtain ⟨bitcode, -, hb, -⟩ := Found.function_exists (hfound _ (List.mem_of_getElem? hp))
  have hpointer : (point, p) ∈ pointersOf points point.bitcode := mem_pointersOf.mpr ⟨hp, rfl⟩
  obtain ⟨j, hj⟩ := List.getElem?_of_mem (mem_clonedPointers.mpr hpointer)
  exact ⟨bitcode, hb, j, hj⟩

/-- If every point is run with its own mutation, the names were free. -/
theorem namesFree_of_own (hfound : ∀ point ∈ points, Found program point)
    (hown : ∀ p point, points[p]? = some point → ∃ prepared f,
      OwnMutation mutation addressOf mangling program points p point prepared f) :
    NamesFree program points := by
  intro point hpoint b bitcode hb
  obtain ⟨p, hp⟩ := List.getElem?_of_mem hpoint
  obtain ⟨prepared, f, hown⟩ := hown p point hp
  obtain ⟨bitcode', hb', j, hj⟩ := exists_clone addressOf hfound hp
  obtain ⟨names, hlayout, -⟩ := @exists_layout (addressOf point.bitcode) _ bitcode' mutation
    (pointersOf_nodup points point.bitcode) (pointers_valid hfound hb')
  obtain ⟨hclone, hget⟩ := hlayout.clone j _ hj
  obtain rfl : prepare mutation (addressOf point.bitcode) (pointersOf points point.bitcode)
      bitcode' = prepared := by
    have hprepared := hown.bitcode
    rw [preparedBitcode, hb', Option.map_some] at hprepared
    exact Option.some.inj hprepared
  obtain rfl : clonePosition bitcode' j = f := Option.some.inj (hclone.symm.trans hown.clone)
  constructor
  · -- the clone has got the name that it asked for
    rintro rfl
    rw [hb'] at hb
    obtain rfl := Option.some.inj hb
    obtain ⟨prepared, function, hprepared, hfunction, -, hname⟩ :=
      (hown.symbol point.bitcode _).mpr ⟨rfl, rfl⟩
    rw [preparedBitcode, hb', Option.map_some] at hprepared
    obtain rfl := Option.some.inj hprepared
    rw [hfunction] at hget
    obtain ⟨original, -, heq⟩ := Option.map_eq_some_iff.mp hget.symm
    have hsame : names.clone j = point.uniqueIdentifier := by
      rw [← (String.append_right_inj _).mp hname, ← heq]
    obtain ⟨taken, htaken, hsub⟩ := hlayout.cloneName j _ hj
    rw [hsame] at htaken
    exact fun hmem => Module.uniqueName_eq_iff.mp htaken.symm (hsub _ hmem)
  · intro function hfunction hbody hname
    obtain ⟨k, hk⟩ := List.getElem?_of_mem hfunction
    have hsymbol := @isSymbol_of_definition mutation addressOf mangling program points hfound b k
      bitcode function hb hk hbody
    rw [hname] at hsymbol
    obtain ⟨rfl, hsame⟩ := (hown.symbol b k).mp hsymbol
    rw [hb'] at hb
    obtain rfl := Option.some.inj hb
    have hlt := (List.getElem?_eq_some_iff.mp hk).1
    simp only [clonePosition] at hsame
    omega

theorem freshClones_of_free (hnodup : (points.map (·.uniqueIdentifier)).Nodup)
    (hfree : NamesFree program points) {b : Nat} {bitcode : Bitcode}
    (hb : program.bitcode[b]? = some bitcode) : FreshClones (pointersOf points b) bitcode where
  nodup := by
    have hall : (points.zipIdx.map (·.1.uniqueIdentifier)).Nodup := by
      have hmap : points.zipIdx.map (·.1.uniqueIdentifier) = points.map (·.uniqueIdentifier) := by
        conv_rhs => rw [← List.zipIdx_map_fst 0 points, List.map_map]
        rfl
      rwa [hmap]
    exact hall.sublist (List.filter_sublist.map _)
  fresh pointer hpointer := by
    obtain ⟨hget, hbitcode⟩ := mem_pointersOf.mp hpointer
    exact (hfree _ (List.mem_of_getElem? hget) b bitcode hb).1 hbitcode.symm

/-- A point with the identifier of another one is that point. -/
theorem position_eq (hnodup : (points.map (·.uniqueIdentifier)).Nodup) {p q : Nat}
    {point point' : MutationPoint} (hp : points[p]? = some point) (hq : points[q]? = some point')
    (h : point.uniqueIdentifier = point'.uniqueIdentifier) : p = q := by
  refine (List.getElem?_inj ?_ hnodup).mp ?_
  · rw [List.length_map]
    exact (List.getElem?_eq_some_iff.mp hp).1
  · rw [List.getElem?_map, List.getElem?_map, hp, hq, Option.map_some, Option.map_some, h]

/-- A function that has a body after the preparation had one before. -/
theorem isDeclaration_original (hfound : ∀ point ∈ points, Found program point) {b g : Nat}
    {bitcode : Bitcode} (hb : program.bitcode[b]? = some bitcode) {original : Function}
    (horiginal : bitcode.module.functions[g]? = some original) {blocks : List Block}
    (hbody : Function.isDeclaration (if g ∈ originals (addressOf b) (pointersOf points b) then
      { original with blocks := blocks } else original) = false) :
    original.isDeclaration = false := by
  by_cases hmutated : g ∈ originals (addressOf b) (pointersOf points b)
  · obtain ⟨pointer, hpointer, rfl⟩ := mem_originals.mp hmutated
    obtain ⟨hget, hbitcode⟩ := mem_pointersOf.mp hpointer
    obtain ⟨bitcode', function, hb', hfunction', hblocks, -⟩ :=
      Found.function_exists (hfound _ (List.mem_of_getElem? hget))
    rw [hbitcode, hb] at hb'
    obtain rfl := Option.some.inj hb'
    obtain rfl := Option.some.inj (horiginal.symm.trans hfunction')
    simpa [Function.isDeclaration] using hblocks
  · simpa only [hmutated, if_false] using hbody

/-- The only definition under the identifier of a point is its clone. -/
theorem symbol_eq (hfound : ∀ point ∈ points, Found program point)
    (hnodup : (points.map (·.uniqueIdentifier)).Nodup) (hfree : NamesFree program points)
    {p : Nat} {point : MutationPoint} (hp : points[p]? = some point) {b g : Nat}
    (h : IsSymbol mutation addressOf mangling program points (mangling ++ point.uniqueIdentifier) b g) :
    b = point.bitcode ∧ ∀ bitcode j, program.bitcode[point.bitcode]? = some bitcode →
      (clonedPointers (addressOf point.bitcode) (pointersOf points point.bitcode))[j]? =
        some (point, p) → g = clonePosition bitcode j := by
  obtain ⟨prepared, function, hprepared, hfunction, hbody, hname⟩ := h
  have hsame : function.name = point.uniqueIdentifier := (String.append_right_inj _).mp hname
  obtain ⟨bitcode, hb, rfl⟩ := Option.map_eq_some_iff.mp hprepared
  obtain ⟨names, hlayout, hexact, -⟩ := @exists_layout (addressOf b) _ bitcode mutation
    (pointersOf_nodup points b) (pointers_valid hfound hb)
  rcases hlayout.position_cases (List.getElem?_eq_some_iff.mp hfunction).1 with
    hg | ⟨j, pointer, hj, rfl⟩ | ⟨i, k, hi, rfl⟩
  · -- an original function keeps its name, and had a body before
    rw [hlayout.original g hg] at hfunction
    obtain ⟨original, horiginal, rfl⟩ := Option.map_eq_some_iff.mp hfunction
    have hname : original.name = point.uniqueIdentifier := by
      rw [← hsame]
      split <;> rfl
    have hdefined := @isDeclaration_original addressOf _ _ hfound _ _ _ hb _ horiginal _ hbody
    exact absurd hname ((hfree point (List.mem_of_getElem? hp) b bitcode hb).2 original
      (List.mem_of_getElem? horiginal) hdefined)
  · -- a clone belongs to the point whose identifier it has
    rw [(hlayout.clone j pointer hj).2] at hfunction
    obtain ⟨original, -, rfl⟩ := Option.map_eq_some_iff.mp hfunction
    have hidentifier : pointer.1.uniqueIdentifier = point.uniqueIdentifier := by
      rw [← hexact (freshClones_of_free hnodup hfree hb) j pointer hj]
      exact hsame
    obtain ⟨hget, hbitcode⟩ := mem_pointersOf.mp (mem_clonedPointers.mp (List.mem_of_getElem? hj))
    obtain hposition := position_eq hnodup hget hp hidentifier
    obtain rfl : pointer = (point, p) := by
      rw [hposition, hp] at hget
      exact Prod.ext (Option.some.inj hget).symm hposition
    obtain rfl : point.bitcode = b := hbitcode
    refine ⟨rfl, fun bitcode' j' hb' hj' => ?_⟩
    rw [hb] at hb'
    obtain rfl := Option.some.inj hb'
    have hflat : (clonedPointers (addressOf point.bitcode)
        (pointersOf points point.bitcode)).Nodup :=
      .of_map _ (nodup_clonedPointers (pointersOf_nodup points point.bitcode))
    rw [(List.getElem?_inj (List.getElem?_eq_some_iff.mp hj).1 hflat).mp (hj.trans hj'.symm)]
  · -- a copy has another name
    rw [hlayout.copy i k hi] at hfunction
    obtain ⟨original, -, rfl⟩ := Option.map_eq_some_iff.mp hfunction
    obtain ⟨taken, htaken⟩ := hlayout.copyName i k hi
    have hpoint := hfound point (List.mem_of_getElem? hp)
    obtain ⟨bitcode', -, hidentifier⟩ := hpoint.bitcode
    have hcopy : names.copy i = point.uniqueIdentifier := hsame
    exact absurd (htaken.symm.trans (hcopy.trans hidentifier))
      (uniqueIdentifier_ne_original hpoint.mutator taken)

/-- With distinct identifiers and free names, every point is run with its own mutation. -/
theorem own_of_free (hfound : ∀ point ∈ points, Found program point)
    (hnodup : (points.map (·.uniqueIdentifier)).Nodup) (hfree : NamesFree program points)
    {p : Nat} {point : MutationPoint} (hp : points[p]? = some point) :
    ∃ prepared f, OwnMutation mutation addressOf mangling program points p point prepared f := by
  obtain ⟨bitcode, hb, j, hj⟩ := exists_clone addressOf hfound hp
  obtain ⟨bitcode', function, hb', hfunction, hblocks, hbody⟩ :=
    Found.function_exists (hfound point (List.mem_of_getElem? hp))
  rw [hb] at hb'
  obtain rfl := Option.some.inj hb'
  obtain ⟨names, hlayout, hexact, -⟩ := @exists_layout (addressOf point.bitcode) _ bitcode mutation
    (pointersOf_nodup points point.bitcode) (pointers_valid hfound hb)
  obtain ⟨hclone, hget⟩ := hlayout.clone j _ hj
  rw [hfunction, Option.map_some] at hget
  have hname := hexact (freshClones_of_free hnodup hfree hb) j _ hj
  refine ⟨_, clonePosition bitcode j, by rw [preparedBitcode, hb, Option.map_some], hclone, ?_, ?_, ?_⟩
  · intro b g
    constructor
    · intro hsymbol
      obtain ⟨rfl, hposition⟩ := symbol_eq hfound hnodup hfree hp hsymbol
      exact ⟨rfl, hposition bitcode j hb hj⟩
    · rintro ⟨rfl, rfl⟩
      refine ⟨_, _, by rw [preparedBitcode, hb, Option.map_some], hget, ?_, by rw [hname]⟩
      simpa [Function.isDeclaration] using mutation.nonempty point _ hblocks
  · rw [hget, hbody]
    rfl
  · intro q point' hq hbitcode hsame
    have hpointer : (point', q) ∈ pointersOf points point.bitcode :=
      mem_pointersOf.mpr ⟨hq, hbitcode⟩
    obtain ⟨j', hj'⟩ := List.getElem?_of_mem
      ((@mem_clonedPointers (addressOf point.bitcode) _ _).mpr hpointer)
    have hclone' := (hlayout.clone j' _ hj').1
    rw [hsame] at hclone'
    obtain rfl : j = j' := by
      have := Option.some.inj hclone'
      simp only [clonePosition] at this
      omega
    rw [hj] at hj'
    exact (Prod.ext_iff.mp (Option.some.inj hj')).2.symm

end Files

/-! ### The points of the finder -/

section Finder

variable {irm : IRMutation → Instruction → Bool} {mutation : BodyMutation}
  {addressOf : Nat → Nat → Nat} {mangling : String} {program : Program}

theorem eachRunsItsOwn_iff {mutators : List Mutator} {functions : List FunctionUnderTest}
    (hselected : Selected program functions)
    (hmutators : ∀ mutator ∈ mutators, mutator ∈ registered) (hnodup : mutators.Nodup) :
    EachRunsItsOwn mutation addressOf mangling program
        (getMutationPoints irm program mutators functions) ↔
      OneMutationEach irm program mutators functions ∧
        NamesFree program (getMutationPoints irm program mutators functions) := by
  have hfound : ∀ point ∈ getMutationPoints irm program mutators functions, Found program point :=
    fun point hpoint => found_of_mem hselected hmutators hpoint
  constructor
  · rintro ⟨hdistinct, hown⟩
    exact ⟨(nodup_identifiers_iff hselected hmutators hnodup).mp hdistinct,
      namesFree_of_own hfound (hown _ (List.Sublist.refl _))⟩
  · rintro ⟨hone, hfree⟩
    have hdistinct := (nodup_identifiers_iff hselected hmutators hnodup).mpr hone
    refine ⟨hdistinct, fun kept hkept p point hp => ?_⟩
    exact own_of_free (fun point hpoint => hfound point (hkept.subset hpoint))
      (hdistinct.sublist (hkept.map _)) (fun point hpoint => hfree point (hkept.subset hpoint)) hp

end Finder

/-! ### A call with two constants -/

/-- `main` calls `sum` with the given arguments. -/
def callModule (arguments : List Operand) : Module where
  identifier := "sum.bc"
  functions :=
    [⟨"main", ⟨.void, [], false⟩, [[.call (.function 1) arguments 0, .ret none]]⟩,
      ⟨"sum", ⟨.int 32, [.int 32, .int 32], false⟩, []⟩]
  globals := []

def callProgram (arguments : List Operand) : Program where
  bitcode := [⟨callModule arguments, "sum_d41d8cd9"⟩]
  distinct := List.nodup_singleton _

/-- No mutation of the library applies. -/
def noneApplies (_ : IRMutation) (_ : Instruction) : Bool := false

/-- Zeros become the given value, and all others zero. -/
def replaceConstant (value : Nat) : Operand → Operand
  | .constant (.int width old) => .constant (.int width (if old = 0 then value else 0))
  | operand => operand

/-- The replacement of an integer among the arguments of a call. -/
def replaceScalar : BodyMutation where
  apply point blocks :=
    match point.irMutator with
    | some (.constIntReplacement value position) =>
        blocks.modify point.address.basicBlockIndex fun block =>
          block.modify point.address.instructionIndex fun
            | .call callee arguments dest =>
                .call callee (arguments.modify position (replaceConstant value)) dest
            | instruction => instruction
    | _ => blocks
  nonempty point blocks h := by
    split
    · rwa [Ne, List.modify_eq_nil_iff]
    · exact h

/-- `main` is reached by a test. -/
def reachesMain : List ReachableFunction := [⟨(0, 0), 0, 0⟩]

/-- `main` with its two instructions. -/
def mainUnderTest : FunctionUnderTest := ⟨(0, 0), [(0, 0)], [⟨0, 0, 0⟩, ⟨0, 0, 1⟩]⟩

theorem functionsUnderTest_callProgram (arguments : List Operand) :
    functionsUnderTest (callProgram arguments) reachesMain [] [] = [mainUnderTest] := rfl

/-- The functions of the program have shorter names than its mutants. -/
theorem namesFree_callProgram (arguments : List Operand) {points : List MutationPoint}
    (hfound : ∀ point ∈ points, Found (callProgram arguments) point) :
    NamesFree (callProgram arguments) points := by
  intro point hpoint b bitcode hb
  obtain ⟨bitcode', hb', hidentifier⟩ := (hfound point hpoint).bitcode
  have hmem : ∀ x ∈ (callProgram arguments).bitcode, x = ⟨callModule arguments, "sum_d41d8cd9"⟩ :=
    fun x hx => List.mem_singleton.mp hx
  obtain rfl := hmem _ (List.mem_of_getElem? hb)
  obtain rfl := hmem _ (List.mem_of_getElem? hb')
  have hlong : 4 < point.uniqueIdentifier.length := by
    rw [hidentifier, uniqueIdentifier]
    simp only [String.length_append]
    have : "sum_d41d8cd9".length = 12 := by decide
    omega
  have hshort : ∀ name ∈ (callModule arguments).names, name.length ≤ 4 := by
    intro name hname
    simp only [callModule, Module.names, List.map_cons, List.map_nil, List.append_nil, List.mem_cons,
      List.not_mem_nil, or_false] at hname
    rcases hname with rfl | rfl <;> decide
  refine ⟨fun _ hmem => ?_, fun function hfunction _ hname => ?_⟩
  · have := hshort _ hmem
    omega
  · have := hshort _ (List.mem_append_left _ (List.mem_map_of_mem hfunction))
    rw [hname] at this
    omega

end Mull.MutantSymbols
