import Mull.JunkDetector
import Mull.Lib.NestedRanges

/-!
# The index of declarations

A translation unit keeps its functions with bodies in the order in which they begin.  The
functions that are part of other ones are dropped, so that the rest lies one behind another
and can be searched by halving.  For ranges that are identical, disjoint or nested, the
search finds the outermost declaration around a location, in whichever order the
declarations are visited (`getDecl_outermost`).

The junk detector looks for declarations in such an index (`junkDetector_getDecl_eq`).
-/

namespace Mull.DeclarationIndex

open NestedRanges

/-- A declaration that the visitor comes to.  The locations are in the order of the
    translation unit. -/
structure Decl (L : Type) where
  name : String
  first : L
  last : L
  hasBody : Bool
  isInSystemHeader : Bool
deriving DecidableEq, Repr

variable {L : Type}

/-- `DeclVisitor::addDecl`. -/
def addDecl (declarations : List (Decl L)) (decl : Decl L) : List (Decl L) :=
  if !decl.hasBody then declarations
  else if decl.isInSystemHeader then declarations
  else declarations ++ [decl]

/-- What the visitor collects. -/
def recorded (visited : List (Decl L)) : List (Decl L) := visited.foldl addDecl []

variable [LinearOrder L]

/-- `std::sort` with `SortLocationComparator`.  It is not stable: in which order declarations
    come that begin at the same location is left open. -/
structure LocationSort (L : Type) [LinearOrder L] where
  sort : List (Decl L) → List (Decl L)
  perm : ∀ decls, (sort decls).Perm decls
  ordered : ∀ decls, (sort decls).Pairwise fun lhs rhs => ¬ rhs.first < lhs.first

/-- `UniqueLocationComparator`. -/
def uniqueLocation (lhs rhs : Decl L) : Bool := !decide (lhs.last < rhs.first)

/-- `ThreadSafeASTUnit::recordDeclarations`. -/
def recordDeclarations (locationSort : LocationSort L) (visited : List (Decl L)) : List (Decl L) :=
  unique uniqueLocation (locationSort.sort (recorded visited))

/-- `ThreadSafeASTUnit::getDecl`. -/
def getDecl (decls : List (Decl L)) (location : L) : Option (Decl L) :=
  if decls.isEmpty then none
  else
    match decls[lowerBound (fun decl => decide (decl.last < location)) decls]? with
    | none => none
    | some lower =>
        if lower.first < location ∧ location < lower.last then some lower else none

theorem getDecl_eq_enclosing (decls : List (Decl L)) (location : L) :
    getDecl decls location = enclosing Decl.first Decl.last decls location := by
  unfold getDecl enclosing
  cases decls with
  | nil => rfl
  | cons decl decls =>
      rw [List.isEmpty_cons, if_neg Bool.false_ne_true]
      cases (decl :: decls)[lowerBound (fun decl => decide (decl.last < location))
          (decl :: decls)]? with
      | none => rfl
      | some lower => simp [Option.filter]

/-- **The index finds the outermost declaration around a location.** -/
theorem getDecl_outermost (locationSort : LocationSort L) {visited : List (Decl L)}
    (hrange : ∀ decl ∈ recorded visited, decl.first ≤ decl.last)
    (hnested : (recorded visited).Pairwise (Nested Decl.first Decl.last)) (location : L) :
    ((getDecl (recordDeclarations locationSort visited) location).isSome ↔
      ∃ decl ∈ recorded visited, decl.first < location ∧ location < decl.last) ∧
    ∀ decl, getDecl (recordDeclarations locationSort visited) location = some decl →
      decl ∈ recorded visited ∧ (decl.first < location ∧ location < decl.last) ∧
        ∀ other ∈ recorded visited, other.first ≤ location → location ≤ other.last →
          decl.first ≤ other.first ∧ other.last ≤ decl.last := by
  have hperm := locationSort.perm (recorded visited)
  have hsorted : (locationSort.sort (recorded visited)).Pairwise fun lhs rhs =>
      lhs.first ≤ rhs.first := (locationSort.ordered _).imp le_of_not_gt
  have hrange' : ∀ decl ∈ locationSort.sort (recorded visited), decl.first ≤ decl.last :=
    fun decl hdecl => hrange decl (hperm.mem_iff.mp hdecl)
  have hnested' : (locationSort.sort (recorded visited)).Pairwise (Nested Decl.first Decl.last) :=
    hperm.symm.pairwise hnested nested_symm
  have hfound := enclosing_unique hrange' hsorted hnested' location
  simp only [hperm.mem_iff] at hfound
  rw [getDecl_eq_enclosing]
  exact hfound

/-! A function and one inside it, visited from the inside out. -/

def byBegin : LocationSort Nat where
  sort decls := decls.mergeSort fun lhs rhs => decide (lhs.first ≤ rhs.first)
  perm decls := List.mergeSort_perm decls _
  ordered decls := by
    have hsorted := @List.pairwise_mergeSort _ (fun lhs rhs : Decl Nat => decide (lhs.first ≤ rhs.first))
      (by simpa using fun a b c : Decl Nat => Nat.le_trans) (by simp [Nat.le_total]) decls
    exact hsorted.imp fun h => by simpa using h

def nestedFunctions : List (Decl Nat) :=
  [⟨"operator()", 5, 8, true, false⟩, ⟨"main", 2, 20, true, false⟩, ⟨"printf", 1, 1, false, true⟩,
    ⟨"test", 22, 30, true, false⟩]

theorem getDecl_outermost_nestedFunctions :
    (getDecl (recordDeclarations byBegin nestedFunctions) 6).isSome ∧
      ∀ decl, getDecl (recordDeclarations byBegin nestedFunctions) 6 = some decl →
        decl.first ≤ 2 ∧ 20 ≤ decl.last := by
  obtain ⟨hfound, houtermost⟩ := @getDecl_outermost Nat _ byBegin nestedFunctions (by decide)
    (by decide) 6
  refine ⟨hfound.mpr ⟨⟨"main", 2, 20, true, false⟩, by decide, by decide⟩, fun decl hdecl => ?_⟩
  exact (houtermost decl hdecl).2.2 ⟨"main", 2, 20, true, false⟩ (by decide) (by decide) (by decide)

/-! ### The junk detector's search -/

/-- In a tree whose declarations lie one behind another, the first one that does not end
    before a location is found by halving. -/
theorem junkDetector_getDecl_eq (ast : JunkDetector.AST) (position : ASTSearch.Location → L)
    (hbefore : ∀ lhs rhs, ast.isBefore lhs rhs = decide (position lhs < position rhs))
    (hrange : ∀ decl ∈ ast.decls, position decl.first ≤ position decl.last)
    (hbehind : ast.decls.Pairwise fun lhs rhs => position lhs.last < position rhs.first)
    (location : ASTSearch.Location) :
    ast.getDecl location = enclosing (fun decl => position (JunkDetector.Decl.first decl))
      (fun decl => position decl.last) ast.decls (position location) := by
  rw [enclosing_eq_find? hrange hbehind]
  simp only [JunkDetector.AST.getDecl, hbefore]

end Mull.DeclarationIndex
