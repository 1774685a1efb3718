import Mathlib.Tactic.Linarith
import Mull.Lib.MachineInt
import Mull.Mutators

/-!
# The AST search and the filter on instructions

The search visits the expressions of every translation unit and notes, under the name of
the unit, the kind of the mutation and a number made of line and column, that a mutation
is possible there.  The filter later asks for the file, the kind, the line and the column
of an instruction.

The search notes at most one kind for an expression, and the name of the unit also for
expressions in its headers; the filter asserts that there is an entry for the file and
for the kind.  So the two agree only under conditions (`agrees_iff`).
-/

namespace Mull.ASTSearch

open MachineInt

/-! ### Lines and columns -/

/-- Cantor's pairing function; `none` if a line or column is not positive, or if the
    computation leaves the range of `int`. -/
def lineColumnHash (line column : Int) : Option Int := do
  if 0 < line ∧ 0 < column then
    let sum ← checked (line + column)
    let next ← checked (sum + 1)
    let product ← checked (sum * next)
    checked (product / 2 + line)
  else none

theorem lineColumnHash_eq_some {line column hash : Int} (h : lineColumnHash line column = some hash) :
    0 < line ∧ 0 < column ∧ 2 * hash = (line + column) * (line + column + 1) + 2 * line := by
  unfold lineColumnHash at h
  split at h
  · rename_i hpositive
    simp only [Option.bind_eq_bind, Option.bind_eq_some_iff, checked_eq_some_iff] at h
    obtain ⟨sum, ⟨rfl, -⟩, next, ⟨rfl, -⟩, product, ⟨rfl, -⟩, rfl, -⟩ := h
    have heven : (line + column) * (line + column + 1) % 2 = 0 := Int.even_mul_succ_self _ |>.two_dvd
      |> Int.emod_eq_zero_of_dvd
    exact ⟨hpositive.1, hpositive.2, by omega⟩
  · cases h

/-- There is a number as long as the product, the largest of the intermediate values, is
    in range. -/
theorem exists_lineColumnHash_iff {line column : Int} :
    (∃ hash, lineColumnHash line column = some hash) ↔
      (0 < line ∧ 0 < column) ∧ (line + column) * (line + column + 1) ≤ intMax := by
  constructor
  · rintro ⟨hash, h⟩
    obtain ⟨hline, hcolumn, -⟩ := lineColumnHash_eq_some h
    refine ⟨⟨hline, hcolumn⟩, ?_⟩
    unfold lineColumnHash at h
    rw [if_pos ⟨hline, hcolumn⟩] at h
    simp only [Option.bind_eq_bind, Option.bind_eq_some_iff, checked_eq_some_iff] at h
    obtain ⟨sum, ⟨rfl, -⟩, next, ⟨rfl, -⟩, product, ⟨rfl, -, hmax⟩, -⟩ := h
    exact hmax
  · rintro ⟨⟨hline, hcolumn⟩, hmax⟩
    have hproduct : 3 * (line + column) ≤ (line + column) * (line + column + 1) := by nlinarith
    refine ⟨(line + column) * (line + column + 1) / 2 + line, ?_⟩
    unfold lineColumnHash
    rw [if_pos ⟨hline, hcolumn⟩]
    simp only [Option.bind_eq_bind, Option.bind_eq_some_iff]
    unfold intMax at hmax
    refine ⟨_, checked_of_mem ?_ ?_, _, checked_of_mem ?_ ?_, _, checked_of_mem ?_ hmax,
      checked_of_mem ?_ ?_⟩ <;> simp only [intMin, intMax] <;> omega

/-- Different positions have different numbers. -/
theorem lineColumnHash_inj {line column line' column' hash : Int}
    (h : lineColumnHash line column = some hash) (h' : lineColumnHash line' column' = some hash) :
    line = line' ∧ column = column' := by
  obtain ⟨hline, hcolumn, heq⟩ := lineColumnHash_eq_some h
  obtain ⟨hline', hcolumn', heq'⟩ := lineColumnHash_eq_some h'
  -- the sums are equal: from one diagonal to the next the number grows by more than a line
  have hsum : line + column = line' + column' := by
    rcases lt_trichotomy (line + column) (line' + column') with hlt | heq | hgt
    · nlinarith
    · exact heq
    · nlinarith
  rw [hsum] at heq
  omega

/-! ### Expressions -/

inductive BinaryOpcode where
  | ptrMemD | ptrMemI | mul | div | rem | add | sub | shl | shr | cmp | lt | gt | le | ge | eq | ne
  | and | xor | or | lAnd | lOr | assign | mulAssign | divAssign | remAssign | addAssign | subAssign
  | shlAssign | shrAssign | andAssign | xorAssign | orAssign | comma
deriving DecidableEq, Repr

/-- A place in the sources; the name of the file can be empty. -/
structure Location where
  file : String
  line : Int
  column : Int
deriving DecidableEq, Repr

inductive ExprKind where
  | binaryOperator (opcode : BinaryOpcode) (operatorLoc : Location)
  | callExpr (isVoid : Bool)
  | other
deriving DecidableEq, Repr

/-- An expression; `stmt` stands for the node of the tree. -/
structure Expr where
  stmt : Nat
  kind : ExprKind
  beginLoc : Location
  inSystemHeader : Bool
deriving DecidableEq, Repr

/-- What the traversal of a translation unit visits. -/
inductive Visit where
  | functionDecl (name : String)
  | expr (e : Expr)
deriving DecidableEq, Repr

def binaryMutations : List (BinaryOpcode × MutatorKind) :=
  [(.add, .cxxAddToSub), (.sub, .cxxSubToAdd), (.mul, .cxxMulToDiv), (.div, .cxxDivToMul),
    (.rem, .cxxRemToDiv),
    (.addAssign, .cxxAddAssignToSubAssign), (.subAssign, .cxxSubAssignToAddAssign),
    (.mulAssign, .cxxMulAssignToDivAssign), (.divAssign, .cxxDivAssignToMulAssign),
    (.remAssign, .cxxRemAssignToDivAssign),
    (.eq, .cxxEqualToNotEqual), (.ne, .cxxNotEqualToEqual), (.gt, .cxxGreaterThanToLessOrEqual),
    (.lt, .cxxLessThanToGreaterOrEqual), (.ge, .cxxGreaterOrEqualToLessThan),
    (.le, .cxxLessOrEqualToGreaterThan),
    (.gt, .cxxGreaterThanToGreaterOrEqual), (.lt, .cxxLessThanToLessOrEqual),
    (.ge, .cxxGreaterOrEqualToGreaterThan), (.le, .cxxLessOrEqualToLessThan),
    (.and, .cxxBitwiseAndToOr), (.or, .cxxBitwiseOrToAnd), (.xor, .cxxBitwiseXorToOr),
    (.shl, .cxxLShiftToRShift), (.shr, .cxxRShiftToLShift),
    (.andAssign, .cxxBitwiseAndAssignToOrAssign), (.orAssign, .cxxBitwiseOrAssignToAndAssign),
    (.xorAssign, .cxxBitwiseXorAssignToOrAssign), (.shlAssign, .cxxLShiftAssignToRShiftAssign),
    (.shrAssign, .cxxRShiftAssignToLShiftAssign),
    (.lAnd, .cxxLogicalAndToOr), (.lOr, .cxxLogicalOrToAnd)]

/-! ### The search -/

structure ASTMutation where
  mutatorKind : MutatorKind
  line : Int
  column : Int
  stmt : Nat
deriving DecidableEq, Repr

abbrev SingleMutationTypeBucket := Int → Option ASTMutation

abbrev SingleASTUnitMutations := MutatorKind → Option SingleMutationTypeBucket

/-- The sources of the program, as far as they matter: the tree of a file, the files that
    exist and the files that the path filter skips. -/
structure Sources where
  ast : String → List Visit
  isRegularFile : String → Bool
  shouldSkip : String → Bool

structure Visitor where
  shouldSkipCurrentFunction : Bool
  singleUnitMutations : SingleASTUnitMutations

/-- `emplace`: an entry that is there stays. -/
def emplace (bucket : SingleMutationTypeBucket) (hash : Int) (mutation : ASTMutation) :
    SingleMutationTypeBucket :=
  Function.update bucket hash (some ((bucket hash).getD mutation))

section Search

variable (sources : Sources) (enabled : MutatorKind → Bool)

/-- `saveMutationPoint`; `none` if the program exits. -/
def saveMutationPoint (visitor : Visitor) (mutatorKind : MutatorKind) (stmt : Nat)
    (location : Location) : Option Visitor :=
  if location.file = "" then some visitor
  else if !sources.isRegularFile location.file && location.file ≠ "input.cc" then none
  else do
    let hash ← lineColumnHash location.line location.column
    let bucket := (visitor.singleUnitMutations mutatorKind).getD fun _ => none
    some { visitor with
      singleUnitMutations := Function.update visitor.singleUnitMutations mutatorKind
        (some (emplace bucket hash ⟨mutatorKind, location.line, location.column, stmt⟩)) }

/-- `VisitExpr`. -/
def visitExpr (visitor : Visitor) (e : Expr) : Option Visitor :=
  if visitor.shouldSkipCurrentFunction then some visitor
  else if e.inSystemHeader then some visitor
  else if e.beginLoc.file = "" then some visitor
  else if sources.shouldSkip e.beginLoc.file then some visitor
  else
    match e.kind with
    | .binaryOperator opcode operatorLoc =>
        match binaryMutations.find? fun mutation =>
            decide (opcode = mutation.1) && enabled mutation.2 with
        | some mutation => saveMutationPoint sources visitor mutation.2 e.stmt operatorLoc
        | none => some visitor
    | .callExpr isVoid =>
        if enabled .removeVoidFunctionMutator then
          if isVoid then
            saveMutationPoint sources visitor .removeVoidFunctionMutator e.stmt e.beginLoc
          else some visitor
        else if enabled .replaceCallMutator then
          saveMutationPoint sources visitor .replaceCallMutator e.stmt e.beginLoc
        else some visitor
    | .other => some visitor

def visit (visitor : Visitor) : Visit → Option Visitor
  | .functionDecl name => some { visitor with shouldSkipCurrentFunction := name = "main" }
  | .expr e => visitExpr sources enabled visitor e

/-- The traversal of one unit. -/
def traverse (sourceFileName : String) : Option SingleASTUnitMutations :=
  ((sources.ast sourceFileName).foldlM (visit sources enabled) ⟨false, fun _ => none⟩).map
    Visitor.singleUnitMutations

/-- The units that are searched. -/
def searchedUnits (sourceFileNames : List String) : List String :=
  sourceFileNames.filter fun sourceFileName => !sources.shouldSkip sourceFileName

/-- `ASTSearchTask`, on one of the searched units. -/
def searchUnit (sourceFileName : String) : Option (String × SingleASTUnitMutations) :=
  if !sources.isRegularFile sourceFileName && sourceFileName ≠ "input.cc" then none
  else (traverse sources enabled sourceFileName).map fun mutations => (sourceFileName, mutations)

/-- `ASTFinder::findMutations`: the first unit of a name is kept. -/
def findMutations (sourceFileNames : List String) :
    Option (String → Option SingleASTUnitMutations) :=
  ((searchedUnits sources sourceFileNames).mapM (searchUnit sources enabled)).map
    fun mutationsAsVector sourceFile => mutationsAsVector.lookup sourceFile

end Search

/-! ### The filter -/

/-- The debug location of an instruction. -/
structure DebugLoc where
  directory : String
  filename : String
  line : Int
  column : Int
deriving DecidableEq, Repr

/-- What the filters read of a mutation point. -/
structure Point where
  mutatorKind : MutatorKind
  debugLoc : Option DebugLoc
deriving DecidableEq, Repr

def absoluteFilePath (directory filePath : String) : String :=
  if filePath ≠ "" ∧ filePath.toList.head? ≠ some '/' then directory ++ "/" ++ filePath else filePath

/-- `locationFromInstruction`, as far as the filters use it. -/
def sourceLocation (point : Point) : Location :=
  match point.debugLoc with
  | none => ⟨"", 0, 0⟩
  | some debugLoc =>
      ⟨absoluteFilePath debugLoc.directory debugLoc.filename, debugLoc.line, debugLoc.column⟩

/-- `isNull`; a location with a file but without line and column is null, too. -/
def isNull (location : Location) : Bool := location.line = 0 && location.column = 0

/-- The point has passed `NoDebugInfoFilter` and `FilePathFilter`. -/
def passesFilters (sources : Sources) (point : Point) : Bool :=
  !isNull (sourceLocation point) && !sources.shouldSkip (sourceLocation point).file

/-- `ASTMutationStorage::mutationExists`; `none` is a failed assertion. -/
def mutationExists (sources : Sources) (storage : String → Option SingleASTUnitMutations)
    (sourceFile : String) (mutatorKind : MutatorKind) (line column : Int) : Option Bool :=
  if sources.isRegularFile sourceFile || sourceFile = "input.cc" then do
    let astUnitMutations ← storage sourceFile
    let oneMutationBucket ← astUnitMutations mutatorKind
    let hash ← lineColumnHash line column
    some (oneMutationBucket hash).isSome
  else none

/-- `ASTMutationFilter::shouldSkip`. -/
def shouldSkip (sources : Sources) (storage : String → Option SingleASTUnitMutations)
    (point : Point) : Option Bool :=
  match point.debugLoc with
  | none => some true
  | some debugLoc =>
      if debugLoc.line ≤ 0 ∨ debugLoc.column ≤ 0 then none
      else if sources.isRegularFile (sourceLocation point).file then
        (mutationExists sources storage (sourceLocation point).file point.mutatorKind debugLoc.line
          debugLoc.column).map (!·)
      else none

/-! ### What is noted -/

section Noted

variable (sources : Sources) (enabled : MutatorKind → Bool)

/-- The expressions that the visitor looks at: not inside `main`, not in system headers,
    and in a file that is not skipped. -/
def considered : Bool → List Visit → List Expr
  | _, [] => []
  | _, .functionDecl name :: visits => considered (name = "main") visits
  | shouldSkipCurrentFunction, .expr e :: visits =>
      if !shouldSkipCurrentFunction && !e.inSystemHeader && e.beginLoc.file ≠ "" &&
          !sources.shouldSkip e.beginLoc.file then
        e :: considered shouldSkipCurrentFunction visits
      else considered shouldSkipCurrentFunction visits

/-- The kind that is noted for an expression, and the place. -/
def records (e : Expr) : Option (MutatorKind × Location) :=
  match e.kind with
  | .binaryOperator opcode operatorLoc =>
      (binaryMutations.find? fun mutation =>
        decide (opcode = mutation.1) && enabled mutation.2).map fun mutation =>
          (mutation.2, operatorLoc)
  | .callExpr isVoid =>
      if enabled .removeVoidFunctionMutator then
        if isVoid then some (.removeVoidFunctionMutator, e.beginLoc) else none
      else if enabled .replaceCallMutator then some (.replaceCallMutator, e.beginLoc)
      else none
  | .other => none

/-- An expression is noted under a kind at a place. -/
def Records (mutatorKind : MutatorKind) (e : Expr) (location : Location) : Prop :=
  records enabled e = some (mutatorKind, location) ∧ location.file ≠ ""

/-- The mutations of a unit are those of the expressions looked at. -/
structure Noted (exprs : List Expr) (mutations : SingleASTUnitMutations) : Prop where
  kind : ∀ mutatorKind, (mutations mutatorKind).isSome ↔
    ∃ e ∈ exprs, ∃ location, Records enabled mutatorKind e location
  place : ∀ mutatorKind bucket hash, mutations mutatorKind = some bucket →
    ((bucket hash).isSome ↔ ∃ e ∈ exprs, ∃ location, Records enabled mutatorKind e location ∧
      lineColumnHash location.line location.column = some hash)

variable {sources enabled}

theorem saveMutationPoint_cases {visitor visitor' : Visitor} {mutatorKind : MutatorKind} {stmt : Nat}
    {location : Location}
    (h : saveMutationPoint sources visitor mutatorKind stmt location = some visitor') :
    (location.file = "" ∧ visitor' = visitor) ∨
    (location.file ≠ "" ∧ ∃ hash, lineColumnHash location.line location.column = some hash ∧
      visitor' = { visitor with
        singleUnitMutations := Function.update visitor.singleUnitMutations mutatorKind
          (some (emplace ((visitor.singleUnitMutations mutatorKind).getD fun _ => none) hash
            ⟨mutatorKind, location.line, location.column, stmt⟩)) }) := by
  unfold saveMutationPoint at h
  split at h
  · rename_i hfile
    exact .inl ⟨hfile, (Option.some.inj h).symm⟩
  · rename_i hfile
    split at h
    · cases h
    · obtain ⟨hash, hhash, heq⟩ := Option.bind_eq_some_iff.mp h
      exact .inr ⟨hfile, hash, hhash, (Option.some.inj heq).symm⟩

/-- An expression that is looked at is saved as `records` says. -/
theorem visitExpr_eq {visitor : Visitor} {e : Expr}
    (h : (!visitor.shouldSkipCurrentFunction && !e.inSystemHeader && e.beginLoc.file ≠ "" &&
      !sources.shouldSkip e.beginLoc.file) = true) :
    visitExpr sources enabled visitor e =
      match records enabled e with
      | none => some visitor
      | some (mutatorKind, location) =>
          saveMutationPoint sources visitor mutatorKind e.stmt location := by
  simp only [Bool.and_eq_true, Bool.not_eq_true', decide_eq_true_eq] at h
  obtain ⟨⟨⟨hskip, hsystem⟩, hfile⟩, hpath⟩ := h
  simp only [visitExpr, hskip, hsystem, hfile, hpath, Bool.false_eq_true, if_false, records]
  cases e.kind with
  | binaryOperator opcode operatorLoc =>
      simp only
      cases binaryMutations.find? fun mutation =>
        decide (opcode = mutation.1) && enabled mutation.2 <;> rfl
  | callExpr isVoid =>
      simp only
      by_cases hvoid : enabled .removeVoidFunctionMutator
      · cases isVoid <;> simp [hvoid]
      · by_cases hcall : enabled .replaceCallMutator <;> simp [hvoid, hcall]
  | other => rfl

theorem visitExpr_of_skipped {visitor : Visitor} {e : Expr}
    (h : ¬ (!visitor.shouldSkipCurrentFunction && !e.inSystemHeader && e.beginLoc.file ≠ "" &&
      !sources.shouldSkip e.beginLoc.file) = true) :
    visitExpr sources enabled visitor e = some visitor := by
  unfold visitExpr
  split
  · rfl
  · split
    · rfl
    · split
      · rfl
      · split
        · rfl
        · simp_all

theorem emplace_isSome_iff {bucket : SingleMutationTypeBucket} {hash hash' : Int}
    {mutation : ASTMutation} :
    (emplace bucket hash mutation hash').isSome ↔ hash' = hash ∨ (bucket hash').isSome := by
  unfold emplace
  by_cases h : hash' = hash
  · subst h
    simp
  · rw [Function.update_of_ne h]
    simp [h]

theorem Records.eq_of_records {mutatorKind mutatorKind' : MutatorKind} {e : Expr}
    {location location' : Location} (h : Records enabled mutatorKind e location)
    (h' : Records enabled mutatorKind' e location') :
    mutatorKind' = mutatorKind ∧ location' = location := by
  have heq := h'.1.symm.trans h.1
  simpa using heq

theorem exists_append_singleton {exprs : List Expr} {e : Expr} {p : Expr → Prop} :
    (∃ e' ∈ exprs ++ [e], p e') ↔ (∃ e' ∈ exprs, p e') ∨ p e := by
  constructor
  · rintro ⟨e', hmem, hp⟩
    rcases List.mem_append.mp hmem with hmem | hmem
    · exact .inl ⟨e', hmem, hp⟩
    · exact .inr (List.mem_singleton.mp hmem ▸ hp)
  · rintro (⟨e', hmem, hp⟩ | hp)
    · exact ⟨e', List.mem_append_left _ hmem, hp⟩
    · exact ⟨e, by simp, hp⟩

/-- An expression that is not noted changes nothing. -/
theorem Noted.append {exprs : List Expr} {mutations : SingleASTUnitMutations} {e : Expr}
    (h : Noted enabled exprs mutations)
    (hnot : ∀ mutatorKind location, ¬ Records enabled mutatorKind e location) :
    Noted enabled (exprs ++ [e]) mutations := by
  constructor
  · intro mutatorKind
    rw [h.kind mutatorKind, exists_append_singleton]
    simp [hnot]
  · intro mutatorKind bucket hash hbucket
    rw [h.place mutatorKind bucket hash hbucket, exists_append_singleton]
    simp [hnot]

theorem Noted.save {exprs : List Expr} {mutations : SingleASTUnitMutations} {e : Expr}
    {mutatorKind : MutatorKind} {location : Location} {hash : Int}
    (h : Noted enabled exprs mutations) (hrecords : Records enabled mutatorKind e location)
    (hhash : lineColumnHash location.line location.column = some hash) (mutation : ASTMutation) :
    Noted enabled (exprs ++ [e]) (Function.update mutations mutatorKind
      (some (emplace ((mutations mutatorKind).getD fun _ => none) hash mutation))) := by
  constructor
  · intro mutatorKind'
    rw [exists_append_singleton]
    by_cases hkind : mutatorKind' = mutatorKind
    · subst hkind
      simp only [Function.update_self, Option.isSome_some, true_iff]
      exact .inr ⟨location, hrecords⟩
    · rw [Function.update_of_ne hkind, h.kind mutatorKind']
      refine ⟨.inl, ?_⟩
      rintro (hold | ⟨location', hrecords'⟩)
      · exact hold
      · exact absurd (hrecords.eq_of_records hrecords').1 hkind
  · intro mutatorKind' bucket hash' hbucket
    rw [exists_append_singleton]
    by_cases hkind : mutatorKind' = mutatorKind
    · subst hkind
      rw [Function.update_self] at hbucket
      cases hbucket
      rw [emplace_isSome_iff, or_comm]
      apply or_congr
      · cases hold : mutations mutatorKind' with
        | some old => exact h.place mutatorKind' old hash' hold
        | none =>
            -- no bucket yet, so no expression before was noted under the kind
            have hnone := (not_congr (h.kind mutatorKind')).mp (by simp [hold])
            simp only [Option.getD_none, Option.isSome_none, Bool.false_eq_true, false_iff]
            rintro ⟨e', hmem, location', hrecords', -⟩
            exact hnone ⟨e', hmem, location', hrecords'⟩
      · constructor
        · rintro rfl
          exact ⟨location, hrecords, hhash⟩
        · rintro ⟨location', hrecords', hhash'⟩
          rw [(hrecords.eq_of_records hrecords').2, hhash] at hhash'
          exact (Option.some.inj hhash').symm
    · rw [Function.update_of_ne hkind] at hbucket
      rw [h.place mutatorKind' bucket hash' hbucket]
      refine ⟨.inl, ?_⟩
      rintro (hold | ⟨location', hrecords', -⟩)
      · exact hold
      · exact absurd (hrecords.eq_of_records hrecords').1 hkind

/-- One expression that is looked at. -/
theorem Noted.visitExpr {exprs : List Expr} {visitor visitor' : Visitor} {e : Expr}
    (h : Noted enabled exprs visitor.singleUnitMutations)
    (hconsidered : (!visitor.shouldSkipCurrentFunction && !e.inSystemHeader &&
      e.beginLoc.file ≠ "" && !sources.shouldSkip e.beginLoc.file) = true)
    (hvisit : visitExpr sources enabled visitor e = some visitor') :
    Noted enabled (exprs ++ [e]) visitor'.singleUnitMutations ∧
      visitor'.shouldSkipCurrentFunction = visitor.shouldSkipCurrentFunction := by
  rw [visitExpr_eq hconsidered] at hvisit
  cases hrecords : records enabled e with
  | none =>
      rw [hrecords] at hvisit
      cases hvisit
      exact ⟨h.append fun mutatorKind location hr => by simp [hr.1] at hrecords, rfl⟩
  | some record =>
      obtain ⟨mutatorKind, location⟩ := record
      rw [hrecords] at hvisit
      rcases saveMutationPoint_cases hvisit with ⟨hfile, rfl⟩ | ⟨hfile, hash, hhash, rfl⟩
      · refine ⟨h.append fun mutatorKind' location' hr => ?_, rfl⟩
        have heq : (mutatorKind, location) = (mutatorKind', location') :=
          Option.some.inj (hrecords.symm.trans hr.1)
        cases heq
        exact hr.2 hfile
      · exact ⟨h.save ⟨hrecords, hfile⟩ hhash _, rfl⟩

/-- The whole traversal notes what `considered` collects. -/
theorem noted_foldlM {visits : List Visit} {exprs : List Expr} {visitor visitor' : Visitor}
    (h : Noted enabled exprs visitor.singleUnitMutations)
    (hrun : visits.foldlM (visit sources enabled) visitor = some visitor') :
    Noted enabled (exprs ++ considered sources visitor.shouldSkipCurrentFunction visits)
      visitor'.singleUnitMutations := by
  induction visits generalizing exprs visitor with
  | nil =>
      cases hrun
      simpa [considered] using h
  | cons node visits ih =>
      obtain ⟨next, hnext, hrest⟩ := Option.bind_eq_some_iff.mp hrun
      cases node with
      | functionDecl name =>
          cases hnext
          exact @ih exprs ⟨name = "main", visitor.singleUnitMutations⟩ h hrest
      | expr e =>
          unfold considered
          split
          · rename_i hconsidered
            obtain ⟨hnoted, hskip⟩ := h.visitExpr hconsidered hnext
            have hnoted := ih hnoted hrest
            rw [hskip] at hnoted
            simpa using hnoted
          · rename_i hskipped
            rw [visit, visitExpr_of_skipped hskipped] at hnext
            cases hnext
            exact ih h hrest

theorem noted_nil : Noted enabled [] fun _ => none := by
  constructor <;> simp

/-- The entry of a unit. -/
theorem noted_traverse {sourceFileName : String} {mutations : SingleASTUnitMutations}
    (h : traverse sources enabled sourceFileName = some mutations) :
    Noted enabled (considered sources false (sources.ast sourceFileName)) mutations := by
  obtain ⟨visitor, hrun, rfl⟩ := Option.map_eq_some_iff.mp h
  simpa using @noted_foldlM sources enabled _ [] ⟨false, fun _ => none⟩ visitor noted_nil hrun

theorem searchUnit_eq_some {sourceFileName : String} {entry : String × SingleASTUnitMutations}
    (h : searchUnit sources enabled sourceFileName = some entry) :
    ∃ mutations, traverse sources enabled sourceFileName = some mutations ∧
      entry = (sourceFileName, mutations) := by
  unfold searchUnit at h
  split at h
  · cases h
  · obtain ⟨mutations, htraverse, rfl⟩ := Option.map_eq_some_iff.mp h
    exact ⟨mutations, htraverse, rfl⟩

theorem lookup_mapM {units : List String} {entries : List (String × SingleASTUnitMutations)}
    (h : units.mapM (searchUnit sources enabled) = some entries) (sourceFile : String) :
    (sourceFile ∈ units ∧ ∃ mutations, traverse sources enabled sourceFile = some mutations ∧
      entries.lookup sourceFile = some mutations) ∨
    (sourceFile ∉ units ∧ entries.lookup sourceFile = none) := by
  induction units generalizing entries with
  | nil =>
      cases h
      exact .inr ⟨List.not_mem_nil, rfl⟩
  | cons unit units ih =>
      rw [List.mapM_cons] at h
      obtain ⟨entry, hentry, h⟩ := Option.bind_eq_some_iff.mp h
      obtain ⟨rest, hrest, h⟩ := Option.bind_eq_some_iff.mp h
      cases h
      obtain ⟨mutations, htraverse, rfl⟩ := searchUnit_eq_some hentry
      by_cases heq : sourceFile = unit
      · subst heq
        exact .inl ⟨List.mem_cons_self, mutations, htraverse, by simp⟩
      · have hlookup : ((unit, mutations) :: rest).lookup sourceFile = rest.lookup sourceFile := by
          simp [List.lookup_cons, beq_eq_false_iff_ne.mpr heq]
        rw [hlookup, List.mem_cons, or_iff_right heq]
        exact ih hrest

/-- A unit has an entry if and only if it was searched, with what its traversal noted. -/
theorem findMutations_cases {sourceFileNames : List String}
    {storage : String → Option SingleASTUnitMutations}
    (h : findMutations sources enabled sourceFileNames = some storage) (sourceFile : String) :
    (sourceFile ∈ searchedUnits sources sourceFileNames ∧ ∃ mutations,
      storage sourceFile = some mutations ∧
      Noted enabled (considered sources false (sources.ast sourceFile)) mutations) ∨
    (sourceFile ∉ searchedUnits sources sourceFileNames ∧ storage sourceFile = none) := by
  obtain ⟨entries, hentries, rfl⟩ := Option.map_eq_some_iff.mp h
  rcases lookup_mapM hentries sourceFile with ⟨hmem, mutations, htraverse, hlookup⟩ | hnot
  · exact .inl ⟨hmem, mutations, hlookup, noted_traverse htraverse⟩
  · exact .inr hnot

end Noted

/-! ### When the search and the filter agree -/

section Agreement

variable (sources : Sources) (enabled : MutatorKind → Bool) (sourceFileNames : List String)

/-- An expression can be mutated by a mutation of the kind, at a place; which other kinds
    are enabled does not matter. -/
def EligibleAt (mutatorKind : MutatorKind) (e : Expr) (location : Location) : Prop :=
  match e.kind with
  | .binaryOperator opcode operatorLoc =>
      (opcode, mutatorKind) ∈ binaryMutations ∧ location = operatorLoc
  | .callExpr isVoid =>
      (mutatorKind = .removeVoidFunctionMutator ∧ isVoid ∨ mutatorKind = .replaceCallMutator) ∧
        location = e.beginLoc
  | .other => False

/-- The search looked at an expression that is eligible for the kind, exactly there. -/
def VisitedAt (mutatorKind : MutatorKind) (location : Location) : Prop :=
  ∃ unit ∈ searchedUnits sources sourceFileNames,
    ∃ e ∈ considered sources false (sources.ast unit), EligibleAt mutatorKind e location

/-- The unit of a name notes an expression under the kind, at the line and column. -/
def NotedAt (mutatorKind : MutatorKind) (unit : String) (line column : Int) : Prop :=
  ∃ e ∈ considered sources false (sources.ast unit), ∃ location,
    Records enabled mutatorKind e location ∧ location.line = line ∧ location.column = column

/-- The filter returns, and keeps exactly the points at visited expressions. -/
def Agrees (storage : String → Option SingleASTUnitMutations) (point : Point) : Prop :=
  ∃ skip, shouldSkip sources storage point = some skip ∧
    (skip = false ↔ VisitedAt sources sourceFileNames point.mutatorKind (sourceLocation point))

/-- What the filter relies on, without a check. -/
structure LinesUp (point : Point) (location : Location) : Prop where
  positive : 0 < location.line ∧ 0 < location.column
  small : (location.line + location.column) * (location.line + location.column + 1) ≤ intMax
  regular : sources.isRegularFile location.file
  searched : location.file ∈ searchedUnits sources sourceFileNames
  /-- the unit has an entry of the kind -/
  entry : ∃ e ∈ considered sources false (sources.ast location.file), ∃ place,
    Records enabled point.mutatorKind e place
  /-- for an eligible expression, in whatever unit it was met, the unit that bears the
      name of the file notes one of the kind -/
  kept : ∀ unit ∈ searchedUnits sources sourceFileNames,
    ∀ e ∈ considered sources false (sources.ast unit),
      EligibleAt point.mutatorKind e location →
        NotedAt sources enabled point.mutatorKind location.file location.line location.column
  /-- the unit notes nothing of the kind at that line and column of another file, unless
      an eligible expression stands here, too -/
  own : ∀ e ∈ considered sources false (sources.ast location.file), ∀ place,
    Records enabled point.mutatorKind e place → place.line = location.line →
      place.column = location.column → place.file ≠ location.file →
        VisitedAt sources sourceFileNames point.mutatorKind location

variable {sources enabled sourceFileNames}

theorem Records.eligibleAt {mutatorKind : MutatorKind} {e : Expr} {location : Location}
    (h : Records enabled mutatorKind e location) : EligibleAt mutatorKind e location := by
  obtain ⟨hrecords, -⟩ := h
  unfold records at hrecords
  unfold EligibleAt
  split at hrecords
  · obtain ⟨mutation, hfind, heq⟩ := Option.map_eq_some_iff.mp hrecords
    cases heq
    have hopcode := List.find?_some hfind
    simp only [Bool.and_eq_true, decide_eq_true_eq] at hopcode
    simp only [hopcode.1]
    exact ⟨List.mem_of_find?_eq_some hfind, trivial⟩
  · split at hrecords
    · split at hrecords
      · cases hrecords
        simp_all
      · cases hrecords
    · split at hrecords
      · cases hrecords
        simp_all
      · cases hrecords
  · cases hrecords

/-- The hash decides no more than line and column. -/
theorem noted_isSome_iff {unit : String} {mutations : SingleASTUnitMutations}
    {mutatorKind : MutatorKind} {bucket : SingleMutationTypeBucket} {line column hash : Int}
    (h : Noted enabled (considered sources false (sources.ast unit)) mutations)
    (hbucket : mutations mutatorKind = some bucket)
    (hhash : lineColumnHash line column = some hash) :
    (bucket hash).isSome ↔ NotedAt sources enabled mutatorKind unit line column := by
  rw [h.place mutatorKind bucket hash hbucket]
  constructor
  · rintro ⟨e, hmem, location, hrecords, hplace⟩
    obtain ⟨hline, hcolumn⟩ := lineColumnHash_inj hplace hhash
    exact ⟨e, hmem, location, hrecords, hline, hcolumn⟩
  · rintro ⟨e, hmem, location, hrecords, rfl, rfl⟩
    exact ⟨e, hmem, location, hrecords, hhash⟩

/-- What `mutationExists` returns, and when it returns at all. -/
theorem mutationExists_eq_some_iff {storage : String → Option SingleASTUnitMutations}
    (h : findMutations sources enabled sourceFileNames = some storage) {sourceFile : String}
    {mutatorKind : MutatorKind} {line column : Int} {found : Bool}
    (hregular : sources.isRegularFile sourceFile) :
    mutationExists sources storage sourceFile mutatorKind line column = some found ↔
      sourceFile ∈ searchedUnits sources sourceFileNames ∧
      (∃ e ∈ considered sources false (sources.ast sourceFile), ∃ place,
        Records enabled mutatorKind e place) ∧
      ((0 < line ∧ 0 < column) ∧ (line + column) * (line + column + 1) ≤ intMax) ∧
      (found = true ↔ NotedAt sources enabled mutatorKind sourceFile line column) := by
  unfold mutationExists
  rw [hregular, Bool.true_or, if_pos rfl]
  rcases findMutations_cases h sourceFile with
    ⟨hmem, mutations, hstorage, hnoted⟩ | ⟨hnot, hstorage⟩
  · rw [hstorage, ← hnoted.kind mutatorKind, ← exists_lineColumnHash_iff]
    cases hbucket : mutations mutatorKind with
    | none => simp [hbucket]
    | some bucket =>
        cases hhash : lineColumnHash line column with
        | none => simp
        | some hash =>
            rw [← noted_isSome_iff hnoted hbucket hhash]
            cases hfound : (bucket hash).isSome <;> cases found <;> simp [hbucket, hmem, hfound]
  · rw [hstorage]
    simp [hnot]

theorem exists_debugLoc {point : Point} (h : passesFilters sources point) :
    ∃ debugLoc, point.debugLoc = some debugLoc := by
  cases hdebug : point.debugLoc with
  | some debugLoc => exact ⟨debugLoc, rfl⟩
  | none => simp [passesFilters, sourceLocation, isNull, hdebug] at h

/-- The filter returns what the storage says, if nothing fails before. -/
theorem shouldSkip_eq_some_iff {storage : String → Option SingleASTUnitMutations} {point : Point}
    {skip : Bool} (h : passesFilters sources point) :
    shouldSkip sources storage point = some skip ↔
      (0 < (sourceLocation point).line ∧ 0 < (sourceLocation point).column) ∧
      sources.isRegularFile (sourceLocation point).file ∧
      mutationExists sources storage (sourceLocation point).file point.mutatorKind
        (sourceLocation point).line (sourceLocation point).column = some !skip := by
  obtain ⟨debugLoc, hdebug⟩ := exists_debugLoc h
  have hline : (sourceLocation point).line = debugLoc.line := by simp [sourceLocation, hdebug]
  have hcolumn : (sourceLocation point).column = debugLoc.column := by
    simp [sourceLocation, hdebug]
  simp only [shouldSkip, hdebug, hline, hcolumn]
  split
  · rename_i hnot
    simp only [reduceCtorEq, false_iff]
    omega
  · rename_i hpositive
    have hpositive : 0 < debugLoc.line ∧ 0 < debugLoc.column := by omega
    split
    · rename_i hregular
      simp only [hpositive, hregular, true_and, Option.map_eq_some_iff]
      constructor
      · rintro ⟨found, hfound, rfl⟩
        simpa using hfound
      · intro hfound
        exact ⟨!skip, hfound, by simp⟩
    · rename_i hregular
      simp [hregular]

/-- In `LinesUp`, the two last conditions say that the unit notes what was visited. -/
theorem notedAt_iff_visitedAt {point : Point}
    (h : LinesUp sources enabled sourceFileNames point (sourceLocation point)) :
    NotedAt sources enabled point.mutatorKind (sourceLocation point).file
      (sourceLocation point).line (sourceLocation point).column ↔
    VisitedAt sources sourceFileNames point.mutatorKind (sourceLocation point) := by
  constructor
  · rintro ⟨e, hmem, place, hrecords, hline, hcolumn⟩
    by_cases hfile : place.file = (sourceLocation point).file
    · have hplace : place = sourceLocation point := by
        cases place
        cases hlocation : sourceLocation point
        simp_all
      exact ⟨_, h.searched, e, hmem, hplace ▸ hrecords.eligibleAt⟩
    · exact h.own e hmem place hrecords hline hcolumn hfile
  · rintro ⟨unit, hunit, e, hmem, heligible⟩
    exact h.kept unit hunit e hmem heligible

end Agreement

/-- A unit with an addition in its own file, at 3:12, and one in a header, at 8:5. -/
def twoAdditions : Sources where
  ast file := if file = "/p/a.cpp" then
      [.functionDecl "sum",
        .expr ⟨0, .binaryOperator .add ⟨"/p/a.cpp", 3, 12⟩, ⟨"/p/a.cpp", 3, 10⟩, false⟩,
        .functionDecl "next",
        .expr ⟨1, .binaryOperator .add ⟨"/p/lib.h", 8, 5⟩, ⟨"/p/lib.h", 8, 3⟩, false⟩]
    else []
  isRegularFile file := file = "/p/a.cpp" || file = "/p/lib.h"
  shouldSkip _ := false

theorem exists_findMutations_twoAdditions :
    ∃ storage, findMutations twoAdditions (fun _ => true) ["/p/a.cpp"] = some storage := by
  rw [← Option.isSome_iff_exists]
  decide +kernel

end Mull.ASTSearch
