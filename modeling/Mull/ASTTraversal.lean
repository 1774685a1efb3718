import Mull.ASTSearch

/-!
# Skipping `main`

The visitor of the AST search has one flag, `shouldSkipCurrentFunction`.  Every function
declaration sets it, to whether the function is called `main`, and nothing sets it back when
the declaration ends.  So at an expression the flag tells whether the last function that was
declared before it is a `main`, and not whether it stands inside of one
(`skips_exactly_main_iff`).
-/

namespace Mull.ASTTraversal

open ASTSearch

/-! ### The tree -/

/-- A sequence of nodes in source order.  A function declaration has its signature and its
    body, which is empty for a mere declaration; `other` are all other declarations and
    statements. -/
inductive Nodes where
  | nil
  | functionDecl (name : String) (signature body rest : Nodes)
  | expr (e : Expr) (children rest : Nodes)
  | other (children rest : Nodes)
deriving DecidableEq, Repr

/-- What is visited, a node before its contents. -/
def visits : Nodes → List Visit
  | .nil => []
  | .functionDecl name signature body rest =>
      .functionDecl name :: (visits signature ++ visits body ++ visits rest)
  | .expr e children rest => .expr e :: (visits children ++ visits rest)
  | .other children rest => visits children ++ visits rest

/-- The expressions, each with whether it stands inside the body of a function `main`. -/
def insideMain (inside : Bool) : Nodes → List (Expr × Bool)
  | .nil => []
  | .functionDecl name signature body rest =>
      insideMain inside signature ++ insideMain (inside || name = "main") body ++
        insideMain inside rest
  | .expr e children rest => (e, inside) :: (insideMain inside children ++ insideMain inside rest)
  | .other children rest => insideMain inside children ++ insideMain inside rest

/-! ### The flag -/

/-- The expressions that `VisitExpr` is called for, each with the flag at the call. -/
def skipped : Bool → List Visit → List (Expr × Bool)
  | _, [] => []
  | _, .functionDecl name :: visits => skipped (name = "main") visits
  | shouldSkipCurrentFunction, .expr e :: visits =>
      (e, shouldSkipCurrentFunction) :: skipped shouldSkipCurrentFunction visits

section Visitor

variable {sources : Sources} {enabled : MutatorKind → Bool}

theorem visitExpr_flag {visitor visitor' : Visitor} {e : Expr}
    (h : visitExpr sources enabled visitor e = some visitor') :
    visitor'.shouldSkipCurrentFunction = visitor.shouldSkipCurrentFunction := by
  by_cases hconsidered : (!visitor.shouldSkipCurrentFunction && !e.inSystemHeader &&
      e.beginLoc.file ≠ "" && !sources.shouldSkip e.beginLoc.file) = true
  · rw [visitExpr_eq hconsidered] at h
    cases hrecords : records enabled e with
    | none =>
        rw [hrecords] at h
        cases h
        rfl
    | some record =>
        rw [hrecords] at h
        rcases saveMutationPoint_cases h with ⟨-, rfl⟩ | ⟨-, hash, -, rfl⟩
        · rfl
        · rfl
  · rw [visitExpr_of_skipped hconsidered] at h
    cases h
    rfl

/-- The flag is the visitor's: what is visited later is skipped as the visitor is left. -/
theorem skipped_append_visit {before after : List Visit} {visitor visitor' : Visitor}
    (hrun : before.foldlM (visit sources enabled) visitor = some visitor') :
    skipped visitor.shouldSkipCurrentFunction (before ++ after) =
      skipped visitor.shouldSkipCurrentFunction before ++
        skipped visitor'.shouldSkipCurrentFunction after := by
  induction before generalizing visitor with
  | nil =>
      cases hrun
      rfl
  | cons node before ih =>
      obtain ⟨next, hnext, hrest⟩ := Option.bind_eq_some_iff.mp hrun
      cases node with
      | functionDecl name =>
          cases hnext
          exact ih hrest
      | expr e =>
          have hrest := ih hrest
          rw [visitExpr_flag hnext] at hrest
          exact congrArg _ hrest

/-- What the search looks at are the expressions that are not skipped, in files that are
    not skipped. -/
theorem considered_eq_filter_skipped (shouldSkipCurrentFunction : Bool) (visits : List Visit) :
    considered sources shouldSkipCurrentFunction visits =
      (((skipped shouldSkipCurrentFunction visits).filter fun (e, skip) =>
        !skip && !e.inSystemHeader && e.beginLoc.file ≠ "" &&
          !sources.shouldSkip e.beginLoc.file).map Prod.fst) := by
  induction visits generalizing shouldSkipCurrentFunction with
  | nil => rfl
  | cons node visits ih =>
      cases node with
      | functionDecl name => exact ih _
      | expr e =>
          rw [considered, skipped, List.filter_cons, ih]
          split
          · rfl
          · rfl

end Visitor

/-! ### Declarations before an expression -/

/-- The names of the functions that are declared, in source order. -/
def declared : Nodes → List String
  | .nil => []
  | .functionDecl name signature body rest =>
      name :: (declared signature ++ declared body ++ declared rest)
  | .expr _ children rest => declared children ++ declared rest
  | .other children rest => declared children ++ declared rest

/-- An expression, whether it stands inside a body of `main`, and the functions declared
    before it. -/
structure Occurrence where
  expr : Expr
  inside : Bool
  declaredBefore : List String
deriving DecidableEq, Repr

def occurrences (inside : Bool) (before : List String) : Nodes → List Occurrence
  | .nil => []
  | .functionDecl name signature body rest =>
      occurrences inside (before ++ [name]) signature ++
        occurrences (inside || name = "main") (before ++ [name] ++ declared signature) body ++
        occurrences inside (before ++ [name] ++ declared signature ++ declared body) rest
  | .expr e children rest =>
      ⟨e, inside, before⟩ :: (occurrences inside before children ++
        occurrences inside (before ++ declared children) rest)
  | .other children rest =>
      occurrences inside before children ++ occurrences inside (before ++ declared children) rest

/-- The last of the functions is a `main`. -/
def endsInMain (names : List String) : Bool := names.getLast? = some "main"

theorem endsInMain_concat (names : List String) (name : String) :
    endsInMain (names ++ [name]) = decide (name = "main") := by
  simp [endsInMain]

theorem insideMain_eq (inside : Bool) (before : List String) (nodes : Nodes) :
    insideMain inside nodes =
      (occurrences inside before nodes).map fun occurrence => (occurrence.expr, occurrence.inside) := by
  induction nodes generalizing inside before with
  | nil => rfl
  | functionDecl name signature body rest ihSignature ihBody ihRest =>
      simp only [insideMain, occurrences, List.map_append, ← ihSignature, ← ihBody, ← ihRest]
  | expr e children rest ihChildren ihRest =>
      simp only [insideMain, occurrences, List.map_cons, List.map_append, ← ihChildren, ← ihRest]
  | other children rest ihChildren ihRest =>
      simp only [insideMain, occurrences, List.map_append, ← ihChildren, ← ihRest]

/-- An expression is skipped if the last function declared before it is a `main`. -/
theorem skipped_visits_append (inside : Bool) (before : List String) (nodes : Nodes)
    (after : List Visit) :
    skipped (endsInMain before) (visits nodes ++ after) =
      ((occurrences inside before nodes).map fun occurrence =>
        (occurrence.expr, endsInMain occurrence.declaredBefore)) ++
        skipped (endsInMain (before ++ declared nodes)) after := by
  induction nodes generalizing inside before after with
  | nil => simp [visits, occurrences, declared]
  | functionDecl name signature body rest ihSignature ihBody ihRest =>
      rw [visits, List.cons_append, skipped, ← endsInMain_concat before name, List.append_assoc,
        List.append_assoc, ihSignature inside, ihBody (inside || name = "main"), ihRest inside]
      simp only [occurrences, declared, List.map_append, List.append_assoc, List.cons_append,
        List.nil_append]
  | expr e children rest ihChildren ihRest =>
      simp only [visits, occurrences, declared, skipped, List.cons_append, List.append_assoc,
        ihChildren inside, ihRest inside, List.map_cons, List.map_append]
  | other children rest ihChildren ihRest =>
      simp only [visits, occurrences, declared, List.append_assoc, ihChildren inside,
        ihRest inside, List.map_append]

/-- The declarations are such that the flag is right: between the declaration of a `main`
    and an expression of its body no other function is declared, and an expression outside
    of all bodies of `main` does not come next after the declaration of one. -/
structure MainsApart (unit : Nodes) : Prop where
  inside : ∀ occurrence ∈ occurrences false [] unit, occurrence.inside = true →
    occurrence.declaredBefore.getLast? = some "main"
  outside : ∀ occurrence ∈ occurrences false [] unit, occurrence.inside = false →
    occurrence.declaredBefore.getLast? ≠ some "main"

/-- **The expressions inside `main`, and no others, are skipped exactly if the functions
    are declared in an order in which the last one declared is the one around.** -/
theorem skips_exactly_main_iff (unit : Nodes) :
    skipped false (visits unit) = insideMain false unit ↔ MainsApart unit := by
  have hskipped : skipped false (visits unit) = (occurrences false [] unit).map fun occurrence =>
      (occurrence.expr, endsInMain occurrence.declaredBefore) := by
    simpa [skipped, endsInMain] using skipped_visits_append false [] unit []
  rw [hskipped, insideMain_eq false [], List.map_inj_left]
  constructor
  · intro h
    constructor
    · intro occurrence hmem hinside
      have hflag := congrArg Prod.snd (h occurrence hmem)
      rw [hinside] at hflag
      exact of_decide_eq_true hflag
    · intro occurrence hmem houtside
      have hflag := congrArg Prod.snd (h occurrence hmem)
      rw [houtside] at hflag
      exact of_decide_eq_false hflag
  · intro h occurrence hmem
    refine Prod.ext rfl ?_
    cases hinside : occurrence.inside with
    | true => exact decide_eq_true (h.inside occurrence hmem hinside)
    | false => exact decide_eq_false (h.outside occurrence hmem hinside)

/-- `int main(); int x = 1 + 2; int main() { struct S { int f() { return 3; } }; return 4 + 5; }`,
    with the additions and the literal `3`. -/
def mainWithLocalClass : Nodes :=
  .functionDecl "main" .nil .nil
    (.other
      (.expr ⟨0, .binaryOperator .add ⟨"/p/a.cpp", 2, 11⟩, ⟨"/p/a.cpp", 2, 9⟩, false⟩ .nil .nil)
      (.functionDecl "main" .nil
        (.other
          (.functionDecl "f" .nil
            (.expr ⟨1, .other, ⟨"/p/a.cpp", 4, 31⟩, false⟩ .nil .nil) .nil)
          (.expr ⟨2, .binaryOperator .add ⟨"/p/a.cpp", 5, 12⟩, ⟨"/p/a.cpp", 5, 10⟩, false⟩ .nil
            .nil))
        .nil))

/-- The initialiser after the first declaration of `main` is skipped, and the two
    expressions inside `main` are not. -/
theorem not_skips_exactly_main_localClass :
    (skipped false (visits mainWithLocalClass)).map Prod.snd = [true, false, false] ∧
    (insideMain false mainWithLocalClass).map Prod.snd = [false, true, true] ∧
    skipped false (visits mainWithLocalClass) ≠ insideMain false mainWithLocalClass := by
  decide

end Mull.ASTTraversal
