import Mull.ASTSearch

/-!
# The junk detector and the reported source ranges

A mutation point is junk if the tree of its translation unit has no expression for it.
The detector looks the point's file up among the files of the unit, finds the declaration
around the location, and lets a visitor for the kind of the mutation search in it.  The
expression it finds is saved under the name of the unit, the kind, the line and the
column, and from there the reporters later take the source range.

The file is not part of the key, and an entry that is there stays.  So the reported
expression is the point's own unless a point of another file came first
(`reports_own_iff`).
-/

namespace Mull.JunkDetector

open ASTSearch MachineInt

/-! ### The tree of a translation unit -/

inductive UnaryOpcode where
  | postInc | postDec | preInc | preDec | addrOf | deref | plus | minus | not | lNot | real | imag
  | extension | coawait
deriving DecidableEq, Repr

inductive CallKind where
  | call
  | memberCall (exprLoc : Location)
  | operatorCall (operatorLoc : Location)
deriving DecidableEq, Repr

inductive NodeKind where
  | binaryOperator (opcode : BinaryOpcode) (operatorLoc : Location)
  | unaryOperator (opcode : UnaryOpcode) (operatorLoc : Location)
  | callExpr (callKind : CallKind) (isVoid isReal : Bool)
  /-- the declaration of a variable with an initialiser -/
  | varDecl (location : Location)
  | other
deriving DecidableEq, Repr

/-- A node of the tree; `stmt` is the expression, for a variable its initialiser.  The
    range can be invalid, and `hasConstant` says that a child is constant. -/
structure Node where
  stmt : Nat
  kind : NodeKind
  range : Option (Location × Location)
  hasConstant : Bool
deriving DecidableEq, Repr

/-- The places of a node that a mutation can be at. -/
def Node.locations (node : Node) : List Location :=
  (match node.kind with
    | .binaryOperator _ operatorLoc => [operatorLoc]
    | .unaryOperator _ operatorLoc => [operatorLoc]
    | .callExpr (.memberCall exprLoc) .. => [exprLoc]
    | .callExpr (.operatorCall operatorLoc) .. => [operatorLoc]
    | .varDecl location => [location]
    | _ => []) ++ node.range.toList.map Prod.fst

/-- A function with a body, and the nodes in the order in which they are visited. -/
structure Decl where
  first : Location
  last : Location
  nodes : List Node
deriving DecidableEq, Repr

/-- The tree of a unit, with what is asked of Clang's source manager: the files, the order
    of the locations and their offsets.  An expression lies in one file. -/
structure AST where
  files : List String
  isInSystemHeader : Location → Bool
  isBefore : Location → Location → Bool
  fileOffset : Location → Nat
  decls : List Decl
  fileOf : Nat → String
  oneFile : ∀ decl ∈ decls, ∀ node ∈ decl.nodes, ∀ location ∈ node.locations,
    location.file = fileOf node.stmt

/-- `getDecl`: the first declaration that does not end before the location, if the
    location is inside. -/
def AST.getDecl (ast : AST) (location : Location) : Option Decl :=
  (ast.decls.find? fun decl => !ast.isBefore decl.last location).filter fun decl =>
    ast.isBefore decl.first location && ast.isBefore location decl.last

/-! ### Visitors -/

inductive Visitor where
  | removeVoidFunction | replaceCall | negateCondition | scalarValue
  | binary (opcode : BinaryOpcode)
  | unary (opcode : UnaryOpcode)
  | varDecl
deriving DecidableEq, Repr

/-- The switch of `CXXJunkDetector::isJunk`. -/
def visitorOf : MutatorKind → Visitor
  | .removeVoidFunctionMutator => .removeVoidFunction
  | .replaceCallMutator => .replaceCall
  | .negateMutator => .negateCondition
  | .scalarValueMutator => .scalarValue
  | .cxxLessThanToLessOrEqual | .cxxLessThanToGreaterOrEqual => .binary .lt
  | .cxxLessOrEqualToLessThan | .cxxLessOrEqualToGreaterThan => .binary .le
  | .cxxGreaterThanToGreaterOrEqual | .cxxGreaterThanToLessOrEqual => .binary .gt
  | .cxxGreaterOrEqualToGreaterThan | .cxxGreaterOrEqualToLessThan => .binary .ge
  | .cxxEqualToNotEqual => .binary .eq
  | .cxxNotEqualToEqual => .binary .ne
  | .cxxAddToSub => .binary .add
  | .cxxAddAssignToSubAssign => .binary .addAssign
  | .cxxPreIncToPreDec => .unary .preInc
  | .cxxPostIncToPostDec => .unary .postInc
  | .cxxSubToAdd => .binary .sub
  | .cxxSubAssignToAddAssign => .binary .subAssign
  | .cxxPreDecToPreInc => .unary .preDec
  | .cxxPostDecToPostInc => .unary .postDec
  | .cxxMulToDiv => .binary .mul
  | .cxxMulAssignToDivAssign => .binary .mulAssign
  | .cxxDivToMul => .binary .div
  | .cxxDivAssignToMulAssign => .binary .divAssign
  | .cxxRemToDiv => .binary .rem
  | .cxxRemAssignToDivAssign => .binary .remAssign
  | .cxxBitwiseNotToNoop => .unary .not
  | .cxxUnaryMinusToNoop => .unary .minus
  | .cxxLShiftToRShift => .binary .shl
  | .cxxLShiftAssignToRShiftAssign => .binary .shlAssign
  | .cxxRShiftToLShift => .binary .shr
  | .cxxRShiftAssignToLShiftAssign => .binary .shrAssign
  | .cxxBitwiseAndToOr => .binary .and
  | .cxxBitwiseAndAssignToOrAssign => .binary .andAssign
  | .cxxBitwiseOrToAnd => .binary .or
  | .cxxBitwiseOrAssignToAndAssign => .binary .orAssign
  | .cxxBitwiseXorToOr => .binary .xor
  | .cxxBitwiseXorAssignToOrAssign => .binary .xorAssign
  | .cxxAssignConst => .binary .assign
  | .cxxInitConst => .varDecl
  | .cxxLogicalAndToOr => .binary .lAnd
  | .cxxLogicalOrToAnd => .binary .lOr

/-- `locationInRange`. -/
def locationInRange (ast : AST) (range : Location × Location) (location : Location) : Bool :=
  location.file = range.1.file && ast.fileOffset range.1 ≤ ast.fileOffset location &&
    ast.fileOffset location ≤ ast.fileOffset range.2

/-- The length of a range, as an `unsigned`. -/
def rangeLength (ast : AST) (range : Location × Location) : Nat :=
  (ast.fileOffset range.2 + 2 ^ 32 - ast.fileOffset range.1) % 2 ^ 32

/-- `visitRangeWithASTExpr`: of the ranges around the location the smallest is kept, of
    equal ones the last. -/
def visitRangeWithASTExpr (ast : AST) (location : Location)
    (best : Option (Nat × (Location × Location))) (node : Node) :
    Option (Nat × (Location × Location)) :=
  match node.range with
  | none => best
  | some range =>
      if locationInRange ast range location then
        match best with
        | none => some (node.stmt, range)
        | some (_, bestRange) =>
            if rangeLength ast range ≤ rangeLength ast bestRange then some (node.stmt, range)
            else best
      else best

/-- `validCallExpr`, in all three callbacks: a call is compared by where it begins, and a
    call of a member or an operator also by its name. -/
def isVoidCallAt (location : Location) (node : Node) : Bool :=
  match node.kind with
  | .callExpr callKind isVoid _ => isVoid &&
      (node.range.map Prod.fst = some location ||
        match callKind with
        | .call => false
        | .memberCall exprLoc => exprLoc = location
        | .operatorCall operatorLoc => operatorLoc = location)
  | _ => false

/-- The nodes that a visitor with ranges looks at. -/
def looksAt (visitor : Visitor) (node : Node) : Bool :=
  match visitor, node.kind with
  | .replaceCall, .callExpr _ _ isReal => isReal
  | .negateCondition, .unaryOperator opcode _ => opcode = .lNot
  | .scalarValue, _ => node.hasConstant
  | _, _ => false

/-- `foundMutant`, after the nodes have been visited. -/
def foundMutant (ast : AST) (visitor : Visitor) (location : Location) (nodes : List Node) :
    Option Nat :=
  match visitor with
  | .binary opcode => (nodes.find? (·.kind = .binaryOperator opcode location)).map Node.stmt
  | .unary opcode => (nodes.find? (·.kind = .unaryOperator opcode location)).map Node.stmt
  | .varDecl => (nodes.find? (·.kind = .varDecl location)).map Node.stmt
  | .removeVoidFunction => (nodes.find? (isVoidCallAt location)).map Node.stmt
  | visitor => (((nodes.filter (looksAt visitor)).foldl (visitRangeWithASTExpr ast location)
      none)).map Prod.fst

/-! ### The detector -/

/-- What the detector reads of a mutation point. -/
structure Point where
  mutatorKind : MutatorKind
  unitFilePath : String
  filePath : String
  line : Int
  column : Int
deriving DecidableEq, Repr

/-- `findFileEntry`: the file of the point, or else that of the unit. -/
def findFileEntry (ast : AST) (point : Point) : Option String :=
  if point.filePath ∈ ast.files then some point.filePath
  else if point.unitFilePath ∈ ast.files then some point.unitFilePath
  else none

/-- `getLocation`; `none` is a failed assertion. -/
def getLocation (ast : AST) (point : Point) : Option Location :=
  (findFileEntry ast point).map fun file => ⟨file, point.line, point.column⟩

/-- The expression for a location: outside system headers, in a declaration. -/
def mutantExpression (ast : AST) (mutatorKind : MutatorKind) (location : Location) : Option Nat :=
  if ast.isInSystemHeader location then none
  else (ast.getDecl location).bind fun decl =>
    foundMutant ast (visitorOf mutatorKind) location decl.nodes

abbrev Storage := String → Option SingleASTUnitMutations

/-- `ASTMutationStorage::saveMutation`; `none` is a failed assertion or an overflow. -/
def saveMutation (isRegularFile : String → Bool) (storage : Storage) (sourceFile : String)
    (mutatorKind : MutatorKind) (expression : Nat) (line column : Int) : Option Storage :=
  if isRegularFile sourceFile || sourceFile = "input.cc" then do
    let hash ← lineColumnHash line column
    let unit := (storage sourceFile).getD fun _ => none
    let bucket := (unit mutatorKind).getD fun _ => none
    some (Function.update storage sourceFile (some (Function.update unit mutatorKind
      (some (emplace bucket hash ⟨mutatorKind, line, column, expression⟩)))))
  else none

/-- `ASTMutationStorage::getMutation`; `none` is a failed assertion. -/
def getMutation (isRegularFile : String → Bool) (storage : Storage) (sourceFile : String)
    (mutatorKind : MutatorKind) (line column : Int) : Option ASTMutation :=
  if isRegularFile sourceFile || sourceFile = "input.cc" then do
    let astUnitMutations ← storage sourceFile
    let oneMutationBucket ← astUnitMutations mutatorKind
    let hash ← lineColumnHash line column
    oneMutationBucket hash
  else none

section Detector

variable (isRegularFile : String → Bool) (ast : AST)

/-- `CXXJunkDetector::isJunk`, with the storage it leaves. -/
def isJunk (storage : Storage) (point : Point) : Option (Bool × Storage) :=
  if point.line = 0 ∧ point.column = 0 then some (true, storage)
  else do
    let location ← getLocation ast point
    match mutantExpression ast point.mutatorKind location with
    | none => some (true, storage)
    | some expression => do
        let storage ← saveMutation isRegularFile storage point.unitFilePath point.mutatorKind
          expression point.line point.column
        some (false, storage)

/-- The points are checked one after another, in some order. -/
def checkAll : Storage → List Point → Option (List (Point × Bool) × Storage)
  | storage, [] => some ([], storage)
  | storage, point :: points => do
      let (answer, storage) ← isJunk isRegularFile ast storage point
      let (answers, storage) ← checkAll storage points
      some ((point, answer) :: answers, storage)

/-- The expression that `getSourceInfo` takes the range of. -/
def reportedExpression (storage : Storage) (point : Point) : Option Nat :=
  (getMutation isRegularFile storage point.unitFilePath point.mutatorKind point.line
    point.column).map ASTMutation.stmt

end Detector

/-! ### What is found -/

/-- The expression that the detector finds for a point. -/
def foundFor (ast : AST) (point : Point) : Option Nat :=
  if point.line = 0 ∧ point.column = 0 then none
  else (getLocation ast point).bind (mutantExpression ast point.mutatorKind)

theorem mem_locations_of_isVoidCallAt {location : Location} {node : Node}
    (h : isVoidCallAt location node) : location ∈ node.locations := by
  unfold isVoidCallAt at h
  split at h
  case h_1 callKind isVoid isReal hkind =>
    simp only [Bool.and_eq_true, Bool.or_eq_true, decide_eq_true_eq] at h
    obtain ⟨-, hbegin | hname⟩ := h
    · obtain ⟨range, hrange, rfl⟩ := Option.map_eq_some_iff.mp hbegin
      exact List.mem_append_right _ (by simp [hrange])
    · refine List.mem_append_left _ ?_
      rw [hkind]
      cases callKind with
      | call => simp at hname
      | memberCall exprLoc =>
          have heq : exprLoc = location := by simpa using hname
          simp [heq]
      | operatorCall operatorLoc =>
          have heq : operatorLoc = location := by simpa using hname
          simp [heq]
  case h_2 => cases h

/-- A node changes nothing, or is kept because the location is in its range. -/
theorem visitRangeWithASTExpr_cases (ast : AST) (location : Location)
    (best : Option (Nat × (Location × Location))) (node : Node) :
    visitRangeWithASTExpr ast location best node = best ∨ ∃ range, node.range = some range ∧
      visitRangeWithASTExpr ast location best node = some (node.stmt, range) ∧
      location.file = range.1.file := by
  unfold visitRangeWithASTExpr
  cases hrange : node.range with
  | none => exact .inl rfl
  | some range =>
      by_cases hin : locationInRange ast range location
      · have hfile : location.file = range.1.file := by
          simp only [locationInRange, Bool.and_eq_true, decide_eq_true_eq] at hin
          exact hin.1.1
        cases best with
        | none => exact .inr ⟨range, rfl, by simp [hin], hfile⟩
        | some kept =>
            by_cases hle : rangeLength ast range ≤ rangeLength ast kept.2
            · exact .inr ⟨range, rfl, by simp [hin, hle], hfile⟩
            · exact .inl (by simp [hin, hle])
      · exact .inl (by simp [hin])

theorem visitRangeWithASTExpr_foldl_cases (ast : AST) (location : Location) (nodes : List Node)
    (best : Option (Nat × (Location × Location))) :
    nodes.foldl (visitRangeWithASTExpr ast location) best = best ∨
      ∃ node ∈ nodes, ∃ range, node.range = some range ∧
        nodes.foldl (visitRangeWithASTExpr ast location) best = some (node.stmt, range) ∧
        location.file = range.1.file := by
  induction nodes generalizing best with
  | nil => exact .inl rfl
  | cons node nodes ih =>
      rw [List.foldl_cons]
      rcases ih (visitRangeWithASTExpr ast location best node) with hrest | ⟨node', hmem, hkept⟩
      · rw [hrest]
        rcases visitRangeWithASTExpr_cases ast location best node with hsame | hkept
        · exact .inl hsame
        · exact .inr ⟨node, List.mem_cons_self, hkept⟩
      · exact .inr ⟨node', List.mem_cons_of_mem _ hmem, hkept⟩

/-- An expression is found only in the file in which it lies. -/
theorem exists_node_of_foundMutant {ast : AST} {visitor : Visitor} {location : Location}
    {nodes : List Node} {stmt : Nat} (h : foundMutant ast visitor location nodes = some stmt) :
    ∃ node ∈ nodes, node.stmt = stmt ∧ ∃ place ∈ node.locations, place.file = location.file := by
  -- the visitors that compare locations
  have hfind : ∀ p : Node → Bool, (∀ node, p node → location ∈ node.locations) →
      (nodes.find? p).map Node.stmt = some stmt →
      ∃ node ∈ nodes, node.stmt = stmt ∧ ∃ place ∈ node.locations, place.file = location.file := by
    intro p hp hmap
    obtain ⟨node, hnode, rfl⟩ := Option.map_eq_some_iff.mp hmap
    exact ⟨node, List.mem_of_find?_eq_some hnode, rfl, location,
      hp node (List.find?_some hnode), rfl⟩
  -- the visitors that compare ranges
  have hrange : ((nodes.filter (looksAt visitor)).foldl (visitRangeWithASTExpr ast location)
      none).map Prod.fst = some stmt →
      ∃ node ∈ nodes, node.stmt = stmt ∧ ∃ place ∈ node.locations, place.file = location.file := by
    intro hmap
    obtain ⟨kept, hkept, rfl⟩ := Option.map_eq_some_iff.mp hmap
    rcases visitRangeWithASTExpr_foldl_cases ast location (nodes.filter (looksAt visitor)) none with
      hnone | ⟨node, hmem, range, hnode, heq, hfile⟩
    · cases hnone.symm.trans hkept
    · cases heq.symm.trans hkept
      refine ⟨node, (List.mem_filter.mp hmem).1, rfl, range.1, ?_, hfile.symm⟩
      exact List.mem_append_right _ (by simp [hnode])
  cases visitor with
  | binary opcode =>
      refine hfind _ (fun node hnode => List.mem_append_left _ ?_) h
      simp [of_decide_eq_true hnode]
  | unary opcode =>
      refine hfind _ (fun node hnode => List.mem_append_left _ ?_) h
      simp [of_decide_eq_true hnode]
  | varDecl =>
      refine hfind _ (fun node hnode => List.mem_append_left _ ?_) h
      simp [of_decide_eq_true hnode]
  | removeVoidFunction => exact hfind _ (fun node => mem_locations_of_isVoidCallAt) h
  | replaceCall => exact hrange h
  | negateCondition => exact hrange h
  | scalarValue => exact hrange h

theorem file_of_foundFor {ast : AST} {point : Point} {stmt : Nat}
    (h : foundFor ast point = some stmt) : findFileEntry ast point = some (ast.fileOf stmt) := by
  unfold foundFor at h
  split at h
  · cases h
  · obtain ⟨location, hlocation, h⟩ := Option.bind_eq_some_iff.mp h
    obtain ⟨file, hfile, rfl⟩ := Option.map_eq_some_iff.mp hlocation
    unfold mutantExpression at h
    split at h
    · cases h
    · obtain ⟨decl, hdecl, h⟩ := Option.bind_eq_some_iff.mp h
      obtain ⟨node, hnode, rfl, place, hplace, heq⟩ := exists_node_of_foundMutant h
      have hmem : decl ∈ ast.decls :=
        List.mem_of_find?_eq_some (Option.filter_eq_some_iff.mp hdecl).1
      rw [hfile, ← ast.oneFile decl hmem node hnode place hplace, heq]

/-! ### What is saved -/

/-- The entry of a unit and a kind under a number. -/
def entry (storage : Storage) (sourceFile : String) (mutatorKind : MutatorKind) :
    SingleMutationTypeBucket :=
  (((storage sourceFile).getD fun _ => none) mutatorKind).getD fun _ => none

theorem getMutation_eq (isRegularFile : String → Bool) (storage : Storage) (sourceFile : String)
    (mutatorKind : MutatorKind) (line column : Int) :
    getMutation isRegularFile storage sourceFile mutatorKind line column =
      if isRegularFile sourceFile || sourceFile = "input.cc" then
        (lineColumnHash line column).bind (entry storage sourceFile mutatorKind)
      else none := by
  unfold getMutation entry
  cases storage sourceFile with
  | none => cases lineColumnHash line column <;> rfl
  | some unit =>
      cases hbucket : unit mutatorKind with
      | none => cases lineColumnHash line column <;> simp [hbucket]
      | some bucket => simp [hbucket]

/-- Saving adds one entry, unless there is one. -/
theorem entry_saveMutation {isRegularFile : String → Bool} {storage storage' : Storage}
    {sourceFile : String} {mutatorKind : MutatorKind} {stmt : Nat} {line column : Int}
    (h : saveMutation isRegularFile storage sourceFile mutatorKind stmt line column = some storage') :
    ∃ hash, lineColumnHash line column = some hash ∧
      (isRegularFile sourceFile || sourceFile = "input.cc") = true ∧
      ∀ sourceFile' mutatorKind' hash', entry storage' sourceFile' mutatorKind' hash' =
        if sourceFile' = sourceFile ∧ mutatorKind' = mutatorKind ∧ hash' = hash then
          (entry storage sourceFile' mutatorKind' hash').or
            (some ⟨mutatorKind, line, column, stmt⟩)
        else entry storage sourceFile' mutatorKind' hash' := by
  unfold saveMutation at h
  split at h
  case isFalse => cases h
  case isTrue hregular =>
    obtain ⟨hash, hhash, heq⟩ := Option.bind_eq_some_iff.mp h
    cases heq
    refine ⟨hash, hhash, hregular, ?_⟩
    intro sourceFile' mutatorKind' hash'
    unfold entry
    by_cases hunit : sourceFile' = sourceFile
    · subst hunit
      by_cases hkind : mutatorKind' = mutatorKind
      · subst hkind
        simp only [Function.update_self, Option.getD_some, emplace, true_and]
        by_cases heq : hash' = hash
        · subst heq
          rw [Function.update_self, if_pos rfl]
          cases (((storage sourceFile').getD fun _ => none) mutatorKind').getD (fun _ => none) hash'
            <;> rfl
        · rw [Function.update_of_ne heq, if_neg heq]
      · simp [hkind]
    · simp [hunit]

section Saved

variable {isRegularFile : String → Bool} {ast : AST}

theorem isJunk_cases {storage storage' : Storage} {point : Point} {answer : Bool}
    (h : isJunk isRegularFile ast storage point = some (answer, storage')) :
    (answer = true ∧ foundFor ast point = none ∧ storage' = storage) ∨
    (answer = false ∧ ∃ stmt, foundFor ast point = some stmt ∧
      saveMutation isRegularFile storage point.unitFilePath point.mutatorKind stmt point.line
        point.column = some storage') := by
  unfold isJunk at h
  unfold foundFor
  split at h
  case isTrue hnull =>
    cases h
    exact .inl ⟨rfl, by rw [if_pos hnull], rfl⟩
  case isFalse hnull =>
    rw [if_neg hnull]
    obtain ⟨location, hlocation, h⟩ := Option.bind_eq_some_iff.mp h
    rw [hlocation, Option.bind_some]
    cases hfound : mutantExpression ast point.mutatorKind location with
    | none =>
        rw [hfound] at h
        cases h
        exact .inl ⟨rfl, rfl, rfl⟩
    | some stmt =>
        rw [hfound] at h
        obtain ⟨saved, hsaved, heq⟩ := Option.bind_eq_some_iff.mp h
        cases heq
        exact .inr ⟨rfl, stmt, rfl, hsaved⟩

/-- What a point would save under a number. -/
def entryOf (ast : AST) (sourceFile : String) (mutatorKind : MutatorKind) (hash : Int)
    (point : Point) : Option ASTMutation :=
  if point.unitFilePath = sourceFile ∧ point.mutatorKind = mutatorKind ∧
      lineColumnHash point.line point.column = some hash then
    (foundFor ast point).map fun stmt => ⟨point.mutatorKind, point.line, point.column, stmt⟩
  else none

theorem entry_isJunk {storage storage' : Storage} {point : Point} {answer : Bool}
    (h : isJunk isRegularFile ast storage point = some (answer, storage')) (sourceFile : String)
    (mutatorKind : MutatorKind) (hash : Int) :
    entry storage' sourceFile mutatorKind hash =
      (entry storage sourceFile mutatorKind hash).or
        (entryOf ast sourceFile mutatorKind hash point) := by
  unfold entryOf
  rcases isJunk_cases h with ⟨-, hfound, rfl⟩ | ⟨-, stmt, hfound, hsave⟩
  · simp [hfound]
  · obtain ⟨hash', hhash', -, hentry⟩ := entry_saveMutation hsave
    rw [hentry, hfound, hhash']
    by_cases hkey : sourceFile = point.unitFilePath ∧ mutatorKind = point.mutatorKind ∧ hash = hash'
    · obtain ⟨rfl, rfl, rfl⟩ := hkey
      simp
    · rw [if_neg hkey, if_neg, Option.or_none]
      rintro ⟨rfl, rfl, hsame⟩
      exact hkey ⟨rfl, rfl, (Option.some.inj hsame).symm⟩

/-- After all points, the entry is that of the first point that saves one. -/
theorem entry_checkAll {points : List Point} {storage storage' : Storage}
    {answers : List (Point × Bool)}
    (h : checkAll isRegularFile ast storage points = some (answers, storage'))
    (sourceFile : String) (mutatorKind : MutatorKind) (hash : Int) :
    entry storage' sourceFile mutatorKind hash =
      (entry storage sourceFile mutatorKind hash).or
        (points.findSome? (entryOf ast sourceFile mutatorKind hash)) := by
  induction points generalizing storage answers with
  | nil =>
      cases h
      simp
  | cons point points ih =>
      obtain ⟨⟨answer, next⟩, hnext, h⟩ := Option.bind_eq_some_iff.mp h
      obtain ⟨⟨rest, last⟩, hrest, h⟩ := Option.bind_eq_some_iff.mp h
      cases h
      rw [ih hrest, entry_isJunk hnext, Option.or_assoc, List.findSome?_cons]
      cases entryOf ast sourceFile mutatorKind hash point <;> rfl

/-- The answers say for which points an expression was found. -/
theorem mem_answers_iff {points : List Point} {storage storage' : Storage}
    {answers : List (Point × Bool)}
    (h : checkAll isRegularFile ast storage points = some (answers, storage')) {point : Point} :
    (point, false) ∈ answers ↔ point ∈ points ∧ (foundFor ast point).isSome := by
  induction points generalizing storage answers with
  | nil =>
      cases h
      simp
  | cons first points ih =>
      obtain ⟨⟨answer, next⟩, hnext, h⟩ := Option.bind_eq_some_iff.mp h
      obtain ⟨⟨rest, last⟩, hrest, h⟩ := Option.bind_eq_some_iff.mp h
      cases h
      rw [List.mem_cons, List.mem_cons, ih hrest]
      rcases isJunk_cases hnext with ⟨rfl, hfound, -⟩ | ⟨rfl, stmt, hfound, -⟩
      · constructor
        · rintro (heq | hmem)
          · cases heq
          · exact ⟨.inr hmem.1, hmem.2⟩
        · rintro ⟨rfl | hmem, hsome⟩
          · simp [hfound] at hsome
          · exact .inr ⟨hmem, hsome⟩
      · constructor
        · rintro (heq | hmem)
          · cases heq
            exact ⟨.inl rfl, by simp [hfound]⟩
          · exact ⟨.inr hmem.1, hmem.2⟩
        · rintro ⟨rfl | hmem, hsome⟩
          · exact .inl rfl
          · exact .inr ⟨hmem, hsome⟩

/-- Where an expression was found, the unit is a file, and line and column have a number. -/
theorem exists_hash_of_found {points : List Point} {storage storage' : Storage}
    {answers : List (Point × Bool)}
    (h : checkAll isRegularFile ast storage points = some (answers, storage')) {point : Point}
    (hmem : point ∈ points) (hfound : (foundFor ast point).isSome) :
    (isRegularFile point.unitFilePath || point.unitFilePath = "input.cc") = true ∧
      ∃ hash, lineColumnHash point.line point.column = some hash := by
  induction points generalizing storage answers with
  | nil => cases hmem
  | cons first points ih =>
      obtain ⟨⟨answer, next⟩, hnext, h⟩ := Option.bind_eq_some_iff.mp h
      obtain ⟨⟨rest, last⟩, hrest, heq⟩ := Option.bind_eq_some_iff.mp h
      cases heq
      rcases List.mem_cons.mp hmem with rfl | hmem
      · rcases isJunk_cases hnext with ⟨-, hnone, -⟩ | ⟨-, stmt, -, hsave⟩
        · simp [hnone] at hfound
        · obtain ⟨hash, hhash, hregular, -⟩ := entry_saveMutation hsave
          exact ⟨hregular, hash, hhash⟩
      · exact ih hrest hmem

/-- The reported expression is that of the first point with an expression that has the same
    unit, kind, line and column. -/
theorem exists_first_reported {points : List Point} {storage : Storage}
    {answers : List (Point × Bool)}
    (h : checkAll isRegularFile ast (fun _ => none) points = some (answers, storage))
    {point : Point} (hmem : point ∈ points) (hfound : (foundFor ast point).isSome) :
    ∃ first ∈ points, (foundFor ast first).isSome ∧ first.mutatorKind = point.mutatorKind ∧
      first.line = point.line ∧ first.column = point.column ∧
      reportedExpression isRegularFile storage point = foundFor ast first := by
  obtain ⟨hregular, hash, hhash⟩ := exists_hash_of_found h hmem hfound
  have hentry := entry_checkAll h point.unitFilePath point.mutatorKind hash
  have hempty : entry (fun _ => none) point.unitFilePath point.mutatorKind hash = none := rfl
  rw [hempty, Option.none_or] at hentry
  rw [reportedExpression, getMutation_eq, if_pos hregular, hhash, Option.bind_some, hentry]
  -- the point itself saves an entry, so there is a first one
  cases hfirst : points.findSome? (entryOf ast point.unitFilePath point.mutatorKind hash) with
  | none =>
      have hnone := List.findSome?_eq_none_iff.mp hfirst point hmem
      rw [entryOf, if_pos ⟨rfl, rfl, hhash⟩, Option.map_eq_none_iff] at hnone
      simp [hnone] at hfound
  | some mutation =>
      obtain ⟨first, hfirstMem, hmutation⟩ := List.exists_of_findSome?_eq_some hfirst
      unfold entryOf at hmutation
      split at hmutation
      case isFalse => cases hmutation
      case isTrue hkey =>
        obtain ⟨stmt, hstmt, rfl⟩ := Option.map_eq_some_iff.mp hmutation
        obtain ⟨hline, hcolumn⟩ := lineColumnHash_inj hkey.2.2 hhash
        exact ⟨first, hfirstMem, by simp [hstmt], hkey.2.1, hline, hcolumn, by simp [hstmt]⟩

/-- Any two points that have an expression, of the same kind and at the same line and
    column, lie in the same file. -/
def PositionsInOneFile (ast : AST) (points : List Point) : Prop :=
  ∀ point ∈ points, ∀ other ∈ points, (foundFor ast point).isSome → (foundFor ast other).isSome →
    point.mutatorKind = other.mutatorKind → point.line = other.line → point.column = other.column →
    findFileEntry ast point = findFileEntry ast other

end Saved

/-- A unit whose header comes first, with an addition at 3:12 in both files and one at 5:9
    in its own. -/
def additions : AST where
  files := ["/p/a.cpp", "/p/lib.h"]
  isInSystemHeader _ := false
  isBefore a b := a.file = "/p/lib.h" && b.file = "/p/a.cpp" ||
    a.file = b.file && (a.line < b.line || a.line = b.line && a.column < b.column)
  fileOffset location := (100 * location.line + location.column).toNat
  decls :=
    [⟨⟨"/p/lib.h", 2, 1⟩, ⟨"/p/lib.h", 4, 1⟩,
        [⟨0, .binaryOperator .add ⟨"/p/lib.h", 3, 12⟩,
          some (⟨"/p/lib.h", 3, 10⟩, ⟨"/p/lib.h", 3, 14⟩), false⟩]⟩,
      ⟨⟨"/p/a.cpp", 2, 1⟩, ⟨"/p/a.cpp", 6, 1⟩,
        [⟨1, .binaryOperator .add ⟨"/p/a.cpp", 3, 12⟩,
          some (⟨"/p/a.cpp", 3, 10⟩, ⟨"/p/a.cpp", 3, 14⟩), false⟩,
        ⟨2, .binaryOperator .add ⟨"/p/a.cpp", 5, 9⟩,
          some (⟨"/p/a.cpp", 5, 7⟩, ⟨"/p/a.cpp", 5, 11⟩), false⟩]⟩]
  fileOf stmt := if stmt = 0 then "/p/lib.h" else "/p/a.cpp"
  oneFile := by decide

def additionAt (file : String) (line column : Int) : Point :=
  ⟨.cxxAddToSub, "/p/a.cpp", file, line, column⟩

end Mull.JunkDetector
