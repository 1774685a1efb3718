import Mull.JunkDetector
import Mull.Lib.LastMinimum

/-!
# The range visitor

Three visitors of the junk detector look for the expression whose source range is the
tightest around the location of a mutant.  They share `InstructionRangeVisitor`, which keeps
the best expression so far: a range around the location replaces one that is not smaller.
Lengths are differences of `unsigned` offsets.  Only ranges around the location are measured,
and these do not end before they begin (`visits_tightest`).
-/

namespace Mull.InstructionRangeVisitor

open LastMinimum

/-! ### Locations -/

/-- What is asked of Clang about locations.  An offset is `unsigned`; it counts from the
    beginning of the file that the location is in. -/
structure SourceManager (Location FileID : Type) where
  isValid : Location → Bool
  isFileID : Location → Bool
  getFileID : Location → FileID
  getFileOffset : Location → UInt32

structure SourceRange (Location : Type) where
  getBegin : Location
  getEnd : Location
deriving DecidableEq, Repr

section Ranges

variable {Location FileID : Type} (sourceManager : SourceManager Location FileID)

/-- `SourceRange::isValid`. -/
def SourceRange.isValid (range : SourceRange Location) : Bool :=
  sourceManager.isValid range.getBegin && sourceManager.isValid range.getEnd

/-- `locationInRange`, with its two assertions. -/
def locationInRange [DecidableEq FileID] (range : SourceRange Location) (location : Location) :
    Option Bool :=
  if sourceManager.isFileID location then
    if sourceManager.isValid location && sourceManager.isValid range.getBegin then
      let sameSourceFile :=
        sourceManager.getFileID location == sourceManager.getFileID range.getBegin
      let mutantOffset := sourceManager.getFileOffset location
      let beginOffset := sourceManager.getFileOffset range.getBegin
      let endOffset := sourceManager.getFileOffset range.getEnd
      let inRange := decide (mutantOffset ≥ beginOffset) && decide (mutantOffset ≤ endOffset)
      some (sameSourceFile && inRange)
    else none
  else some false

/-- The difference of the offsets.  It wraps if the range ends before it begins. -/
def rangeLength (range : SourceRange Location) : UInt32 :=
  sourceManager.getFileOffset range.getEnd - sourceManager.getFileOffset range.getBegin

/-- `isRangeSmallerThanRange`, with its two assertions. -/
def isRangeSmallerThanRange (first second : SourceRange Location) : Option Bool :=
  if first.isValid sourceManager && second.isValid sourceManager then
    let firstLength := rangeLength sourceManager first
    let secondLength := rangeLength sourceManager second
    if firstLength < secondLength then some true
    else if secondLength < firstLength then some false
    else some true
  else none

end Ranges

/-! ### The visitor -/

/-- The location is one that `ThreadSafeASTUnit::getLocation` has returned, which asserts
    that it is valid. -/
structure VisitorParameters (Location FileID : Type) where
  sourceManager : SourceManager Location FileID
  sourceLocation : Location
  valid : sourceManager.isValid sourceLocation = true

/-- The state of the visitor.  `measured` is a history of the ranges whose lengths have been
    computed. -/
structure Visitor (Location Expr : Type) where
  bestMatchingASTNode : Option Expr
  measured : List (SourceRange Location)

def Visitor.initial {Location Expr : Type} : Visitor Location Expr := ⟨none, []⟩

/-- `getMatchingASTNode`. -/
def Visitor.getMatchingASTNode {Location Expr : Type} (visitor : Visitor Location Expr) :
    Option Expr := visitor.bestMatchingASTNode

section Visits

variable {Location FileID Expr : Type} [DecidableEq FileID]
  (parameters : VisitorParameters Location FileID) (getSourceRange : Expr → SourceRange Location)

/-- `visitRangeWithASTExpr`; `none` is a failed assertion. -/
def visitRangeWithASTExpr (visitor : Visitor Location Expr) (expression : Expr) :
    Option (Visitor Location Expr) :=
  let range := getSourceRange expression
  if !range.isValid parameters.sourceManager then some visitor
  else do
    let inRange ← locationInRange parameters.sourceManager range parameters.sourceLocation
    if inRange then
      match visitor.bestMatchingASTNode with
      | none => some { visitor with bestMatchingASTNode := some expression }
      | some best => do
          let bestSourceRange := getSourceRange best
          let smaller ← isRangeSmallerThanRange parameters.sourceManager range bestSourceRange
          some ⟨if smaller then some expression else some best,
            visitor.measured ++ [range, bestSourceRange]⟩
    else some visitor

/-- The visits of a traversal, in order. -/
def visitAll (visitor : Visitor Location Expr) (expressions : List Expr) :
    Option (Visitor Location Expr) :=
  expressions.foldlM (visitRangeWithASTExpr parameters getSourceRange) visitor

end Visits

/-! ### Ranges around the location -/

section Tightest

variable {Location FileID Expr : Type} [DecidableEq FileID]

/-- The range is valid and the location lies in it: the location is in the file in which the
    range begins, not before the begin and not behind the end.  A location in the expansion
    of a macro lies in no file. -/
@[mk_iff]
structure Contains (parameters : VisitorParameters Location FileID)
    (range : SourceRange Location) : Prop where
  isValid : range.isValid parameters.sourceManager = true
  isFileID : parameters.sourceManager.isFileID parameters.sourceLocation = true
  sameSourceFile : parameters.sourceManager.getFileID parameters.sourceLocation =
    parameters.sourceManager.getFileID range.getBegin
  begin_le : parameters.sourceManager.getFileOffset range.getBegin ≤
    parameters.sourceManager.getFileOffset parameters.sourceLocation
  le_end : parameters.sourceManager.getFileOffset parameters.sourceLocation ≤
    parameters.sourceManager.getFileOffset range.getEnd

/-- The number of bytes between begin and end of a range that does not end before it begins. -/
def length (sourceManager : SourceManager Location FileID) (range : SourceRange Location) : Nat :=
  (sourceManager.getFileOffset range.getEnd).toNat -
    (sourceManager.getFileOffset range.getBegin).toNat

/-- The last visited one of the shortest ranges around the location. -/
structure Tightest (parameters : VisitorParameters Location FileID)
    (getSourceRange : Expr → SourceRange Location) (expressions : List Expr) (e : Expr) :
    Prop where
  contains : Contains parameters (getSourceRange e)
  last : ∃ before after, expressions = before ++ e :: after ∧
    (∀ e' ∈ before, Contains parameters (getSourceRange e') →
      length parameters.sourceManager (getSourceRange e) ≤
        length parameters.sourceManager (getSourceRange e')) ∧
    ∀ e' ∈ after, Contains parameters (getSourceRange e') →
      length parameters.sourceManager (getSourceRange e) <
        length parameters.sourceManager (getSourceRange e')

variable {parameters : VisitorParameters Location FileID}
  {getSourceRange : Expr → SourceRange Location} {range : SourceRange Location}

instance : DecidablePred (Contains parameters) := fun range =>
  decidable_of_iff _ (contains_iff parameters range).symm

/-- The assertions of `locationInRange` hold for a valid range, and it tells whether the
    location is in it. -/
theorem locationInRange_eq (hvalid : range.isValid parameters.sourceManager = true) :
    locationInRange parameters.sourceManager range parameters.sourceLocation =
      some (decide (Contains parameters range)) := by
  have hbegin : parameters.sourceManager.isValid range.getBegin = true := by
    rw [SourceRange.isValid, Bool.and_eq_true] at hvalid
    exact hvalid.1
  unfold locationInRange
  by_cases hfile : parameters.sourceManager.isFileID parameters.sourceLocation = true
  · rw [if_pos hfile, parameters.valid, hbegin, Bool.true_and, if_pos rfl]
    apply congrArg some
    rw [Bool.eq_iff_iff, decide_eq_true_eq, contains_iff]
    simp [hvalid, hfile]
  · rw [if_neg hfile, decide_eq_false fun h => hfile h.isFileID]

omit [DecidableEq FileID] in
theorem Contains.begin_le_end (h : Contains parameters range) :
    parameters.sourceManager.getFileOffset range.getBegin ≤
      parameters.sourceManager.getFileOffset range.getEnd :=
  UInt32.le_trans h.begin_le h.le_end

omit [DecidableEq FileID] in
/-- For a range around the location the subtraction does not wrap. -/
theorem Contains.rangeLength_eq (h : Contains parameters range) :
    (rangeLength parameters.sourceManager range).toNat =
      length parameters.sourceManager range :=
  UInt32.toNat_sub_of_le _ _ h.begin_le_end

omit [DecidableEq FileID] in
theorem isRangeSmallerThanRange_eq {first second : SourceRange Location}
    (hfirst : Contains parameters first) (hsecond : Contains parameters second) :
    isRangeSmallerThanRange parameters.sourceManager first second =
      some (decide (length parameters.sourceManager first ≤
        length parameters.sourceManager second)) := by
  unfold isRangeSmallerThanRange
  rw [hfirst.isValid, hsecond.isValid, Bool.and_self, if_pos rfl, ← hfirst.rangeLength_eq,
    ← hsecond.rangeLength_eq]
  simp only [UInt32.lt_iff_toNat_lt]
  split
  · rw [decide_eq_true (by omega)]
  · split
    · rw [decide_eq_false (by omega)]
    · rw [decide_eq_true (by omega)]

/-! ### One visit -/

section Step

variable {visitor : Visitor Location Expr} {e best : Expr}

theorem visit_of_not_contains (h : ¬ Contains parameters (getSourceRange e)) :
    visitRangeWithASTExpr parameters getSourceRange visitor e = some visitor := by
  unfold visitRangeWithASTExpr
  by_cases hvalid : (getSourceRange e).isValid parameters.sourceManager = true
  · simp [hvalid, locationInRange_eq hvalid, h]
  · simp [hvalid]

theorem visit_first (h : Contains parameters (getSourceRange e))
    (hbest : visitor.bestMatchingASTNode = none) :
    visitRangeWithASTExpr parameters getSourceRange visitor e =
      some ⟨some e, visitor.measured⟩ := by
  simp [visitRangeWithASTExpr, h.isValid, locationInRange_eq h.isValid, h, hbest]

/-- Both ranges are around the location when they are compared. -/
theorem visit_next (h : Contains parameters (getSourceRange e))
    (hbest : visitor.bestMatchingASTNode = some best)
    (hcontains : Contains parameters (getSourceRange best)) :
    visitRangeWithASTExpr parameters getSourceRange visitor e =
      some ⟨if length parameters.sourceManager (getSourceRange e) ≤
          length parameters.sourceManager (getSourceRange best) then some e else some best,
        visitor.measured ++ [getSourceRange e, getSourceRange best]⟩ := by
  simp [visitRangeWithASTExpr, h.isValid, locationInRange_eq h.isValid, h, hbest,
    isRangeSmallerThanRange_eq h hcontains]

end Step

/-! ### What the visits keep -/

/-- What the running minimum counts: the expressions with the location in their range. -/
def isAround (parameters : VisitorParameters Location FileID)
    (getSourceRange : Expr → SourceRange Location) (e : Expr) : Bool :=
  decide (Contains parameters (getSourceRange e))

/-- What it compares. -/
def lengthOf (parameters : VisitorParameters Location FileID)
    (getSourceRange : Expr → SourceRange Location) (e : Expr) : Nat :=
  length parameters.sourceManager (getSourceRange e)

theorem isAround_iff {e : Expr} :
    isAround parameters getSourceRange e = true ↔ Contains parameters (getSourceRange e) := by
  rw [isAround, decide_eq_true_eq]

/-- The best expression so far is the last minimum of the visited ones, and only ranges around
    the location have been measured. -/
structure Visited (parameters : VisitorParameters Location FileID)
    (getSourceRange : Expr → SourceRange Location) (expressions : List Expr)
    (visitor : Visitor Location Expr) : Prop where
  best : visitor.bestMatchingASTNode =
    lastMinimum (isAround parameters getSourceRange) (lengthOf parameters getSourceRange)
      expressions
  measured : ∀ range ∈ visitor.measured, Contains parameters range

theorem Visited.initial : Visited parameters getSourceRange [] Visitor.initial :=
  ⟨rfl, by simp [Visitor.initial]⟩

theorem Visited.contains_best {expressions : List Expr} {visitor : Visitor Location Expr}
    (h : Visited parameters getSourceRange expressions visitor) {best : Expr}
    (hbest : visitor.bestMatchingASTNode = some best) :
    Contains parameters (getSourceRange best) := by
  rw [h.best] at hbest
  exact isAround_iff.mp (isLastMinimum_of_eq_some hbest).1

/-- One more visit. -/
theorem Visited.step {expressions : List Expr} {visitor : Visitor Location Expr}
    (h : Visited parameters getSourceRange expressions visitor) (e : Expr) :
    ∃ next, visitRangeWithASTExpr parameters getSourceRange visitor e = some next ∧
      Visited parameters getSourceRange (expressions ++ [e]) next := by
  by_cases hin : Contains parameters (getSourceRange e)
  · cases hbest : visitor.bestMatchingASTNode with
    | none =>
        refine ⟨_, visit_first hin hbest, ?_, h.measured⟩
        rw [lastMinimum_concat, ← h.best, hbest, keep_none (isAround_iff.mpr hin)]
    | some best =>
        have hcontains := h.contains_best hbest
        refine ⟨_, visit_next hin hbest hcontains, ?_, ?_⟩
        · rw [lastMinimum_concat, ← h.best, hbest, keep_some (isAround_iff.mpr hin)]
          rfl
        · intro range hrange
          simp only [List.mem_append, List.mem_cons, List.not_mem_nil, or_false] at hrange
          rcases hrange with hrange | rfl | rfl
          · exact h.measured range hrange
          · exact hin
          · exact hcontains
  · refine ⟨visitor, visit_of_not_contains hin, ?_, h.measured⟩
    rw [lastMinimum_concat, keep_of_not _ (isAround_iff.not.mpr hin), h.best]

/-- All visits. -/
theorem Visited.run {seen : List Expr} {visitor : Visitor Location Expr}
    (h : Visited parameters getSourceRange seen visitor) (expressions : List Expr) :
    ∃ final, visitAll parameters getSourceRange visitor expressions = some final ∧
      Visited parameters getSourceRange (seen ++ expressions) final := by
  induction expressions generalizing seen visitor with
  | nil => exact ⟨visitor, rfl, by simpa using h⟩
  | cons e expressions ih =>
      rcases h.step e with ⟨next, hnext, hvisited⟩
      rcases ih hvisited with ⟨final, hfinal, hall⟩
      refine ⟨final, ?_, by simpa using hall⟩
      rw [visitAll, List.foldlM_cons, hnext]
      exact hfinal

theorem exists_visitAll (parameters : VisitorParameters Location FileID)
    (getSourceRange : Expr → SourceRange Location) (expressions : List Expr) :
    ∃ visitor, visitAll parameters getSourceRange Visitor.initial expressions = some visitor ∧
      Visited parameters getSourceRange expressions visitor :=
  Visited.initial.run expressions

/-- **The visitor ends with the tightest expression around the location**, with none exactly
    if no visited range contains the location, and no length that it computes underflows. -/
theorem visits_tightest (parameters : VisitorParameters Location FileID)
    (getSourceRange : Expr → SourceRange Location) (expressions : List Expr) :
    ∃ visitor, visitAll parameters getSourceRange Visitor.initial expressions = some visitor ∧
      (visitor.getMatchingASTNode = none ↔
        ∀ e ∈ expressions, ¬ Contains parameters (getSourceRange e)) ∧
      (∀ e, visitor.getMatchingASTNode = some e →
        Tightest parameters getSourceRange expressions e) ∧
      ∀ range ∈ visitor.measured,
        parameters.sourceManager.getFileOffset range.getBegin ≤
          parameters.sourceManager.getFileOffset range.getEnd := by
  rcases exists_visitAll parameters getSourceRange expressions with ⟨visitor, hvisits, h⟩
  refine ⟨visitor, hvisits, ?_, ?_, fun range hrange => (h.measured range hrange).begin_le_end⟩
  · simp only [Visitor.getMatchingASTNode, h.best, lastMinimum_eq_none_iff, isAround_iff]
  · intro e he
    rw [Visitor.getMatchingASTNode, h.best] at he
    rcases isLastMinimum_of_eq_some he with ⟨hin, before, after, rfl, hbefore, hafter⟩
    simp only [isAround_iff] at hin hbefore hafter
    exact ⟨hin, before, after, rfl, hbefore, hafter⟩

theorem exists_getMatchingASTNode (parameters : VisitorParameters Location FileID)
    (getSourceRange : Expr → SourceRange Location) (expressions : List Expr) :
    ∃ visitor, visitAll parameters getSourceRange Visitor.initial expressions = some visitor ∧
      visitor.getMatchingASTNode =
        lastMinimum (isAround parameters getSourceRange) (lengthOf parameters getSourceRange)
          expressions := by
  rcases exists_visitAll parameters getSourceRange expressions with ⟨visitor, hvisits, h⟩
  exact ⟨visitor, hvisits, h.best⟩

/-- `ScalarValueVisitor` visits an expression once for each of its constant children, and
    `ReplaceCallVisitor` the call of a member twice.  The result is that of one visit. -/
theorem getMatchingASTNode_repeated (parameters : VisitorParameters Location FileID)
    (getSourceRange : Expr → SourceRange Location) (times : Expr → Nat) (expressions : List Expr) :
    ∃ visitor once,
      visitAll parameters getSourceRange Visitor.initial
        (expressions.flatMap fun e => List.replicate (times e) e) = some visitor ∧
      visitAll parameters getSourceRange Visitor.initial
        (expressions.filter fun e => times e ≠ 0) = some once ∧
      visitor.getMatchingASTNode = once.getMatchingASTNode := by
  rcases exists_getMatchingASTNode parameters getSourceRange
    (expressions.flatMap fun e => List.replicate (times e) e) with ⟨visitor, hvisits, hbest⟩
  rcases exists_getMatchingASTNode parameters getSourceRange
    (expressions.filter fun e => times e ≠ 0) with ⟨once, honce, hbest'⟩
  exact ⟨visitor, once, hvisits, honce,
    hbest.trans ((lastMinimum_flatMap_replicate times expressions).trans hbest'.symm)⟩

end Tightest

/-! ### The visitors of the junk detector -/

section Detector

open ASTSearch (Location)
open JunkDetector (AST Node looksAt foundMutant)

/-- The locations of the detector's trees, with `none` for an invalid one. -/
def sourceManagerOf (ast : AST) : SourceManager (Option Location) String where
  isValid location := location.isSome
  isFileID _ := true
  getFileID location := (location.map Location.file).getD ""
  getFileOffset location := UInt32.ofNat ((location.map ast.fileOffset).getD 0)

def parametersOf (ast : AST) (location : Location) : VisitorParameters (Option Location) String :=
  ⟨sourceManagerOf ast, some location, rfl⟩

def rangeOf (node : Node) : SourceRange (Option Location) :=
  ⟨node.range.map Prod.fst, node.range.map Prod.snd⟩

/-- The visitors that have an `InstructionRangeVisitor`. -/
def HasRangeVisitor (visitor : JunkDetector.Visitor) : Prop :=
  visitor = .replaceCall ∨ visitor = .negateCondition ∨ visitor = .scalarValue

variable {ast : AST} {location : Location}

theorem getFileOffset_toNat (hoffset : ∀ location, ast.fileOffset location < 2 ^ 32)
    (place : Location) :
    ((sourceManagerOf ast).getFileOffset (some place)).toNat = ast.fileOffset place :=
  UInt32.toNat_ofNat_of_lt' (hoffset place)

theorem contains_rangeOf_iff (hoffset : ∀ location, ast.fileOffset location < 2 ^ 32)
    (node : Node) :
    Contains (parametersOf ast location) (rangeOf node) ↔
      ∃ range, node.range = some range ∧ JunkDetector.locationInRange ast range location := by
  rw [contains_iff]
  cases hrange : node.range with
  | none => simp [rangeOf, hrange, SourceRange.isValid, parametersOf, sourceManagerOf]
  | some range =>
      simp only [rangeOf, hrange, parametersOf, UInt32.le_iff_toNat_le,
        getFileOffset_toNat hoffset, Option.map_some]
      simp [sourceManagerOf, SourceRange.isValid, JunkDetector.locationInRange, and_assoc]

theorem length_rangeOf (hoffset : ∀ location, ast.fileOffset location < 2 ^ 32) {node : Node}
    {range : Location × Location} (hrange : node.range = some range)
    (hin : JunkDetector.locationInRange ast range location) :
    length (sourceManagerOf ast) (rangeOf node) = JunkDetector.rangeLength ast range := by
  have hlast := hoffset range.2
  simp only [JunkDetector.locationInRange, Bool.and_eq_true, decide_eq_true_eq] at hin
  simp only [length, rangeOf, hrange, Option.map_some, getFileOffset_toNat hoffset,
    JunkDetector.rangeLength]
  omega

/-- What the detector keeps of a node: the expression with its range. -/
def kept (node : Node) : Option (Nat × (Location × Location)) :=
  node.range.map fun range => (node.stmt, range)

theorem visitRangeWithASTExpr_kept (hoffset : ∀ location, ast.fileOffset location < 2 ^ 32)
    {best : Option Node}
    (hbest : ∀ node, best = some node → Contains (parametersOf ast location) (rangeOf node))
    (node : Node) :
    JunkDetector.visitRangeWithASTExpr ast location (best.bind kept) node =
      (keep (isAround (parametersOf ast location) rangeOf)
        (lengthOf (parametersOf ast location) rangeOf) best node).bind kept := by
  unfold JunkDetector.visitRangeWithASTExpr
  by_cases hcontains : Contains (parametersOf ast location) (rangeOf node)
  · have haround := isAround_iff.mpr hcontains
    rcases (contains_rangeOf_iff hoffset node).mp hcontains with ⟨range, hrange, hin⟩
    cases best with
    | none => simp [keep_none haround, hrange, hin, kept]
    | some other =>
        rcases (contains_rangeOf_iff hoffset other).mp (hbest other rfl) with
          ⟨bestRange, hbestRange, hbestIn⟩
        have hlength : lengthOf (parametersOf ast location) rangeOf node =
            JunkDetector.rangeLength ast range := length_rangeOf hoffset hrange hin
        have hlength' : lengthOf (parametersOf ast location) rangeOf other =
            JunkDetector.rangeLength ast bestRange := length_rangeOf hoffset hbestRange hbestIn
        rw [keep_some haround, hlength, hlength']
        by_cases hle : JunkDetector.rangeLength ast range ≤ JunkDetector.rangeLength ast bestRange
        · simp [hrange, hin, kept, hbestRange, hle]
        · simp [hrange, hin, kept, hbestRange, hle]
  · rw [keep_of_not _ (isAround_iff.not.mpr hcontains)]
    rw [contains_rangeOf_iff hoffset] at hcontains
    cases hrange : node.range with
    | none => rfl
    | some range =>
        have hnot : ¬ JunkDetector.locationInRange ast range location :=
          fun hin => hcontains ⟨range, hrange, hin⟩
        simp [hnot]

theorem foldl_visitRangeWithASTExpr (hoffset : ∀ location, ast.fileOffset location < 2 ^ 32)
    (nodes : List Node) :
    nodes.foldl (JunkDetector.visitRangeWithASTExpr ast location) none =
      (lastMinimum (isAround (parametersOf ast location) rangeOf)
        (lengthOf (parametersOf ast location) rangeOf) nodes).bind kept := by
  induction nodes using List.reverseRecOn with
  | nil => rfl
  | append_singleton nodes node ih =>
      rw [List.foldl_append, ih, lastMinimum_concat, List.foldl_cons, List.foldl_nil]
      apply visitRangeWithASTExpr_kept hoffset
      intro best hbest
      exact isAround_iff.mp (isLastMinimum_of_eq_some hbest).1

/-- **The detector's expression is the visitor's.** -/
theorem foundMutant_eq (hoffset : ∀ location, ast.fileOffset location < 2 ^ 32)
    (location : Location) {visitor : JunkDetector.Visitor} (hvisitor : HasRangeVisitor visitor)
    (nodes : List Node) :
    ∃ final, visitAll (parametersOf ast location) rangeOf Visitor.initial
        (nodes.filter (looksAt visitor)) = some final ∧
      foundMutant ast visitor location nodes = final.getMatchingASTNode.map Node.stmt := by
  rcases exists_getMatchingASTNode (parametersOf ast location) rangeOf
    (nodes.filter (looksAt visitor)) with ⟨final, hfinal, hbest⟩
  refine ⟨final, hfinal, ?_⟩
  have hfound : foundMutant ast visitor location nodes =
      ((nodes.filter (looksAt visitor)).foldl
        (JunkDetector.visitRangeWithASTExpr ast location) none).map Prod.fst := by
    rcases hvisitor with rfl | rfl | rfl <;> rfl
  rw [hfound, foldl_visitRangeWithASTExpr hoffset, ← hbest]
  cases hlast : final.getMatchingASTNode with
  | none => rfl
  | some node =>
      -- the range of the node that is kept is valid
      have haround := (isLastMinimum_of_eq_some (hbest.symm.trans hlast)).1
      rcases (contains_rangeOf_iff hoffset node).mp (isAround_iff.mp haround) with
        ⟨range, hrange, -⟩
      simp [kept, hrange]

end Detector

end Mull.InstructionRangeVisitor
