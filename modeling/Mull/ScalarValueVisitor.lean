import Mull.Lib.Descent

/-!
# The constant check of the junk detector

The visitor for `ScalarValueMutator` looks for expressions with a constant child: a literal,
or a reference to a variable whose initialiser is constant or has only constant children.
The check follows a reference to the initialiser of the variable and from there to the
variables referred to, with no record of where it has been.  It returns exactly if it never
gets from the initialiser of a variable back to the same variable (`returns_iff`).
-/

namespace Mull.ScalarValueVisitor

open Relation

/-! ### Statements and variables -/

/-- A statement, as far as the check looks at it: `implicit` are the nodes that
    `IgnoreImplicit` strips, and a child can be a null pointer. -/
inductive Stmt where
  | integerLiteral
  | floatingLiteral
  | declRef (decl : Nat)
  | implicit (sub : Stmt)
  | predefined (children : List (Option Stmt))
  | other (children : List (Option Stmt))

namespace Stmt

/-- `IgnoreImplicit`. -/
def ignoreImplicit : Stmt → Stmt
  | implicit sub => sub.ignoreImplicit
  | statement => statement

def children : Stmt → List (Option Stmt)
  | implicit sub => [some sub]
  | predefined children => children
  | other children => children
  | _ => []

end Stmt

/-- The declarations, each with its initialiser, if it is a variable that has one. -/
abbrev Declarations := List (Option Stmt)

def init? (decls : Declarations) (decl : Nat) : Option Stmt := decls[decl]?.join

/-! ### The check -/

section Check

variable (refs : Nat → Option Bool)

/-- `isConstant`; `refs` is the answer for a reference. -/
def isConstant : Stmt → Option Bool
  | .integerLiteral | .floatingLiteral => some true
  | .declRef decl => refs decl
  | _ => some false

/-- The loop of `isDeclRefConstant` over the children of an initialiser; a null pointer has
    no answer. -/
def allConstant : List (Option Stmt) → Option Bool
  | [] => some true
  | none :: _ => none
  | some child :: rest => do
      let constant ← isConstant refs child.ignoreImplicit
      if constant then allConstant rest else some false

/-- The loop of `VisitExpr`: how many times the range of the expression is visited. -/
def visitChildren : List (Option Stmt) → Option Nat
  | [] => some 0
  | none :: rest => visitChildren rest
  | some child :: rest => do
      let constant ← isConstant refs child.ignoreImplicit
      let visited ← visitChildren rest
      some (if constant then visited + 1 else visited)

end Check

/-- `isDeclRefConstant`, with a bound on the depth of the recursion. -/
def isDeclRefConstant (decls : Declarations) : Nat → Nat → Option Bool
  | 0, _ => none
  | depth + 1, decl =>
      match init? decls decl with
      | none => some false
      | some init => do
          let constant ← isConstant (isDeclRefConstant decls depth) init.ignoreImplicit
          if constant then some true
          else allConstant (isDeclRefConstant decls depth) init.children

/-- `VisitExpr`. -/
def visitExpr (decls : Declarations) (depth : Nat) : Stmt → Option Nat
  | .predefined _ => some 0
  | expression => visitChildren (isDeclRefConstant decls depth) expression.ignoreImplicit.children

/-- The check of a statement returns, with a bound that is large enough. -/
def Returns (decls : Declarations) (statement : Stmt) : Prop :=
  ∃ depth answer, isConstant (isDeclRefConstant decls depth) statement = some answer

/-! ### Larger bounds -/

/-- More references have an answer. -/
def Extends (refs refs' : Nat → Option Bool) : Prop :=
  ∀ decl answer, refs decl = some answer → refs' decl = some answer

section Extends

variable {refs refs' : Nat → Option Bool}

theorem Extends.isConstant (h : Extends refs refs') {statement : Stmt} {answer : Bool}
    (hanswer : isConstant refs statement = some answer) :
    isConstant refs' statement = some answer := by
  cases statement with
  | declRef decl => exact h decl answer hanswer
  | _ => exact hanswer

theorem Extends.allConstant (h : Extends refs refs') {children : List (Option Stmt)} {answer : Bool}
    (hanswer : allConstant refs children = some answer) :
    allConstant refs' children = some answer := by
  induction children with
  | nil => exact hanswer
  | cons child rest ih =>
      cases child with
      | none => cases hanswer
      | some child =>
          obtain ⟨constant, hconstant, hrest⟩ := Option.bind_eq_some_iff.mp hanswer
          refine Option.bind_eq_some_iff.mpr ⟨constant, h.isConstant hconstant, ?_⟩
          cases constant with
          | false => exact hrest
          | true => exact ih hrest

theorem Extends.visitChildren (h : Extends refs refs') {children : List (Option Stmt)}
    {visited : Nat} (hvisited : visitChildren refs children = some visited) :
    visitChildren refs' children = some visited := by
  induction children generalizing visited with
  | nil => exact hvisited
  | cons child rest ih =>
      cases child with
      | none => exact ih hvisited
      | some child =>
          obtain ⟨constant, hconstant, hrest⟩ := Option.bind_eq_some_iff.mp hvisited
          obtain ⟨visitedRest, hvisitedRest, heq⟩ := Option.bind_eq_some_iff.mp hrest
          exact Option.bind_eq_some_iff.mpr ⟨constant, h.isConstant hconstant,
            Option.bind_eq_some_iff.mpr ⟨visitedRest, ih hvisitedRest, heq⟩⟩

theorem extends_succ (decls : Declarations) (depth : Nat) :
    Extends (isDeclRefConstant decls depth) (isDeclRefConstant decls (depth + 1)) := by
  induction depth with
  | zero => exact fun _ _ h => by cases h
  | succ depth ih =>
      intro decl answer hanswer
      rw [isDeclRefConstant] at hanswer ⊢
      cases hinit : init? decls decl with
      | none =>
          rw [hinit] at hanswer
          exact hanswer
      | some init =>
          rw [hinit] at hanswer
          obtain ⟨constant, hconstant, hrest⟩ := Option.bind_eq_some_iff.mp hanswer
          refine Option.bind_eq_some_iff.mpr ⟨constant, ih.isConstant hconstant, ?_⟩
          cases constant with
          | true => exact hrest
          | false => exact ih.allConstant hrest

theorem extends_of_le (decls : Declarations) {depth depth' : Nat} (h : depth ≤ depth') :
    Extends (isDeclRefConstant decls depth) (isDeclRefConstant decls depth') := by
  induction h with
  | refl => exact fun _ _ h => h
  | step _ ih => exact fun decl answer h => extends_succ decls _ decl answer (ih decl answer h)

end Extends

/-! ### Constant statements -/

/-- What the check is for: a literal is constant, and a reference to a variable whose
    initialiser, or each child of it, is constant. -/
inductive Constant (decls : Declarations) : Stmt → Prop where
  | integerLiteral : Constant decls .integerLiteral
  | floatingLiteral : Constant decls .floatingLiteral
  | init {decl : Nat} {init : Stmt} (hinit : init? decls decl = some init)
      (h : Constant decls init.ignoreImplicit) : Constant decls (.declRef decl)
  | children {decl : Nat} {init : Stmt} (hinit : init? decls decl = some init)
      (hnull : none ∉ init.children)
      (h : ∀ child, some child ∈ init.children → Constant decls child.ignoreImplicit) :
      Constant decls (.declRef decl)

/-- The answers for references are right. -/
def Sound (decls : Declarations) (refs : Nat → Option Bool) : Prop :=
  ∀ decl answer, refs decl = some answer → (answer = true ↔ Constant decls (.declRef decl))

section Sound

variable {decls : Declarations} {refs : Nat → Option Bool}

theorem Sound.isConstant (h : Sound decls refs) {statement : Stmt} {answer : Bool}
    (hanswer : isConstant refs statement = some answer) :
    answer = true ↔ Constant decls statement := by
  cases statement with
  | integerLiteral =>
      cases hanswer
      exact iff_of_true rfl .integerLiteral
  | floatingLiteral =>
      cases hanswer
      exact iff_of_true rfl .floatingLiteral
  | declRef decl => exact h decl answer hanswer
  | _ =>
      cases hanswer
      exact iff_of_false Bool.false_ne_true fun hconstant => by cases hconstant

theorem Sound.allConstant (h : Sound decls refs) {children : List (Option Stmt)} {answer : Bool}
    (hanswer : allConstant refs children = some answer) :
    answer = true ↔ none ∉ children ∧
      ∀ child, some child ∈ children → Constant decls child.ignoreImplicit := by
  induction children with
  | nil =>
      cases hanswer
      simp
  | cons child rest ih =>
      cases child with
      | none => cases hanswer
      | some child =>
          obtain ⟨constant, hconstant, hrest⟩ := Option.bind_eq_some_iff.mp hanswer
          have hchild := h.isConstant hconstant
          cases constant with
          | false =>
              cases hrest
              refine iff_of_false Bool.false_ne_true fun hall => ?_
              exact Bool.false_ne_true (hchild.mpr (hall.2 child List.mem_cons_self))
          | true =>
              rw [ih hrest]
              constructor
              · rintro ⟨hnull, hall⟩
                refine ⟨by simpa using hnull, fun other hother => ?_⟩
                rcases List.mem_cons.mp hother with heq | hother
                · cases heq
                  exact hchild.mp rfl
                · exact hall other hother
              · rintro ⟨hnull, hall⟩
                exact ⟨fun hmem => hnull (List.mem_cons_of_mem _ hmem),
                  fun other hother => hall other (List.mem_cons_of_mem _ hother)⟩

/-- **The answers of the check are right.** -/
theorem sound_isDeclRefConstant (decls : Declarations) (depth : Nat) :
    Sound decls (isDeclRefConstant decls depth) := by
  induction depth with
  | zero => exact fun _ _ h => by cases h
  | succ depth ih =>
      intro decl answer hanswer
      rw [isDeclRefConstant] at hanswer
      cases hinit : init? decls decl with
      | none =>
          rw [hinit] at hanswer
          cases hanswer
          refine iff_of_false Bool.false_ne_true fun hconstant => ?_
          rcases hconstant with _ | _ | ⟨hinit', -⟩ | ⟨hinit', -, -⟩
          · rw [hinit] at hinit'
            cases hinit'
          · rw [hinit] at hinit'
            cases hinit'
      | some init =>
          rw [hinit] at hanswer
          obtain ⟨constant, hconstant, hrest⟩ := Option.bind_eq_some_iff.mp hanswer
          have hinitSound := ih.isConstant hconstant
          cases constant with
          | true =>
              cases hrest
              exact iff_of_true rfl (.init hinit (hinitSound.mp rfl))
          | false =>
              rw [ih.allConstant hrest]
              constructor
              · rintro ⟨hnull, hall⟩
                exact .children hinit hnull hall
              · intro hdecl
                rcases hdecl with _ | _ | ⟨hinit', h⟩ | ⟨hinit', hnull, hall⟩
                · rw [hinit] at hinit'
                  cases hinit'
                  exact absurd (hinitSound.mpr h) Bool.false_ne_true
                · rw [hinit] at hinit'
                  cases hinit'
                  exact ⟨hnull, hall⟩

end Sound

/-! ### Examined references -/

section Examined

variable (decls : Declarations)

/-- The loop over the children of an initialiser comes to a child: the initialiser itself is
    not constant, and the children before are. -/
def Reaches (init : Stmt) (child : Option Stmt) : Prop :=
  ¬ Constant decls init.ignoreImplicit ∧ ∃ before after, init.children = before ++ child :: after ∧
    ∀ earlier ∈ before, ∃ statement, earlier = some statement ∧
      Constant decls statement.ignoreImplicit

/-- The check of a variable goes on to another one. -/
def Examines (decl other : Nat) : Prop :=
  ∃ init, init? decls decl = some init ∧ (init.ignoreImplicit = .declRef other ∨
    ∃ child, Reaches decls init (some child) ∧ child.ignoreImplicit = .declRef other)

/-- The check of a variable comes to a null pointer. -/
def ExaminesNull (decl : Nat) : Prop :=
  ∃ init, init? decls decl = some init ∧ Reaches decls init none

variable {decls}

/-- If the loop returns, the check of each child that it comes to does. -/
theorem allConstant_reaches {refs : Nat → Option Bool} (h : Sound decls refs)
    {before after : List (Option Stmt)} {child : Option Stmt} {answer : Bool}
    (hanswer : allConstant refs (before ++ child :: after) = some answer)
    (hbefore : ∀ earlier ∈ before, ∃ statement, earlier = some statement ∧
      Constant decls statement.ignoreImplicit) :
    ∃ statement constant, child = some statement ∧
      isConstant refs statement.ignoreImplicit = some constant := by
  induction before with
  | nil =>
      cases child with
      | none => cases hanswer
      | some statement =>
          obtain ⟨constant, hconstant, -⟩ := Option.bind_eq_some_iff.mp hanswer
          exact ⟨statement, constant, rfl, hconstant⟩
  | cons earlier before ih =>
      obtain ⟨statement, rfl, hearlier⟩ := hbefore earlier List.mem_cons_self
      obtain ⟨constant, hconstant, hrest⟩ := Option.bind_eq_some_iff.mp hanswer
      rw [(h.isConstant hconstant).mpr hearlier] at hrest
      exact ih hrest fun other hother => hbefore other (List.mem_cons_of_mem _ hother)

/-- If the check of a variable returns, so do those that it goes on to. -/
theorem examined_returns {depth decl : Nat} {answer : Bool}
    (h : isDeclRefConstant decls (depth + 1) decl = some answer) :
    (∀ other, Examines decls decl other →
      ∃ answer', isDeclRefConstant decls depth other = some answer') ∧
      ¬ ExaminesNull decls decl := by
  rw [isDeclRefConstant] at h
  have hsound := sound_isDeclRefConstant decls depth
  -- the check of a child that the loop comes to
  have hreaches : ∀ {init : Stmt} {child : Option Stmt}, init? decls decl = some init →
      Reaches decls init child → ∃ statement constant, child = some statement ∧
        isConstant (isDeclRefConstant decls depth) statement.ignoreImplicit = some constant := by
    rintro init child hinit ⟨hnot, before, after, hchildren, hbefore⟩
    rw [hinit] at h
    obtain ⟨constant, hconstant, hrest⟩ := Option.bind_eq_some_iff.mp h
    have hfalse : constant = false :=
      Bool.eq_false_iff.mpr fun htrue => hnot ((hsound.isConstant hconstant).mp htrue)
    rw [hfalse, hchildren] at hrest
    exact allConstant_reaches hsound hrest hbefore
  constructor
  · rintro other ⟨init, hinit, hself | ⟨child, hchild, hself⟩⟩
    · rw [hinit] at h
      obtain ⟨constant, hconstant, -⟩ := Option.bind_eq_some_iff.mp h
      rw [hself] at hconstant
      exact ⟨constant, hconstant⟩
    · obtain ⟨statement, constant, heq, hconstant⟩ := hreaches hinit hchild
      cases heq
      rw [hself] at hconstant
      exact ⟨constant, hconstant⟩
  · rintro ⟨init, hinit, hnull⟩
    obtain ⟨statement, constant, heq, -⟩ := hreaches hinit hnull
    cases heq

/-- The check of a statement returns if it is no reference, or the check of the variable
    does. -/
theorem returns_of_declRef {statement : Stmt}
    (h : ∀ decl, statement = .declRef decl → Returns decls (.declRef decl)) :
    Returns decls statement := by
  cases statement with
  | integerLiteral => exact ⟨0, true, rfl⟩
  | floatingLiteral => exact ⟨0, true, rfl⟩
  | declRef decl => exact h decl rfl
  | implicit sub => exact ⟨0, false, rfl⟩
  | predefined children => exact ⟨0, false, rfl⟩
  | other children => exact ⟨0, false, rfl⟩

/-- If the checks that the loop comes to return, and it comes to no null pointer, the loop
    returns. -/
theorem exists_allConstant {init : Stmt} (hnot : ¬ Constant decls init.ignoreImplicit)
    (h : ∀ child, Reaches decls init (some child) → Returns decls child.ignoreImplicit)
    (hnull : ¬ Reaches decls init none) :
    ∃ depth answer, allConstant (isDeclRefConstant decls depth) init.children = some answer := by
  -- by induction on the children that are left
  have hloop : ∀ (rest before : List (Option Stmt)), init.children = before ++ rest →
      (∀ earlier ∈ before, ∃ statement, earlier = some statement ∧
        Constant decls statement.ignoreImplicit) →
      ∃ depth answer, allConstant (isDeclRefConstant decls depth) rest = some answer := by
    intro rest
    induction rest with
    | nil => exact fun _ _ _ => ⟨0, true, rfl⟩
    | cons child rest ih =>
        intro before hchildren hbefore
        have hreaches : Reaches decls init child := ⟨hnot, before, rest, hchildren, hbefore⟩
        cases child with
        | none => exact absurd hreaches hnull
        | some child =>
            obtain ⟨depth₁, answer₁, hchild⟩ := h child hreaches
            cases answer₁ with
            | false => exact ⟨depth₁, false, Option.bind_eq_some_iff.mpr ⟨false, hchild, rfl⟩⟩
            | true =>
                have hconstant := ((sound_isDeclRefConstant decls depth₁).isConstant hchild).mp rfl
                obtain ⟨depth₂, answer₂, hrest⟩ := ih (before ++ [some child])
                  (by rw [hchildren, List.append_assoc, List.singleton_append]) (by
                    intro earlier hearlier
                    rcases List.mem_append.mp hearlier with hearlier | hearlier
                    · exact hbefore earlier hearlier
                    · exact ⟨child, List.mem_singleton.mp hearlier, hconstant⟩)
                refine ⟨max depth₁ depth₂, answer₂, Option.bind_eq_some_iff.mpr ⟨true,
                  (extends_of_le decls (Nat.le_max_left _ _)).isConstant hchild, ?_⟩⟩
                exact (extends_of_le decls (Nat.le_max_right _ _)).allConstant hrest
  exact hloop init.children [] rfl fun earlier hearlier => absurd hearlier List.not_mem_nil

/-- If the checks that it goes on to return, and it comes to no null pointer, the check of
    a variable returns. -/
theorem returns_of_examined {decl : Nat}
    (h : ∀ other, Examines decls decl other → Returns decls (.declRef other))
    (hnull : ¬ ExaminesNull decls decl) : Returns decls (.declRef decl) := by
  cases hinit : init? decls decl with
  | none => exact ⟨1, false, by rw [isConstant, isDeclRefConstant, hinit]⟩
  | some init =>
      obtain ⟨depth, constant, hconstant⟩ : Returns decls init.ignoreImplicit :=
        returns_of_declRef fun other hself => h other ⟨init, hinit, .inl hself⟩
      cases constant with
      | true =>
          refine ⟨depth + 1, true, ?_⟩
          rw [isConstant, isDeclRefConstant, hinit]
          exact Option.bind_eq_some_iff.mpr ⟨true, hconstant, rfl⟩
      | false =>
          have hnot : ¬ Constant decls init.ignoreImplicit := fun hinitConstant =>
            Bool.false_ne_true
              (((sound_isDeclRefConstant decls depth).isConstant hconstant).mpr hinitConstant)
          obtain ⟨depth', answer, hchildren⟩ := exists_allConstant hnot
            (fun child hreaches => returns_of_declRef fun other hself =>
              h other ⟨init, hinit, .inr ⟨child, hreaches, hself⟩⟩)
            fun hreaches => hnull ⟨init, hinit, hreaches⟩
          refine ⟨max depth depth' + 1, answer, ?_⟩
          rw [isConstant, isDeclRefConstant, hinit]
          refine Option.bind_eq_some_iff.mpr ⟨false,
            (extends_of_le decls (Nat.le_max_left _ _)).isConstant hconstant, ?_⟩
          exact (extends_of_le decls (Nat.le_max_right _ _)).allConstant hchildren

end Examined

/-! ### When the check returns -/

/-- From a variable, the check never comes back to a variable from its own initialiser, and
    it comes to no null pointer. -/
structure Settles (decls : Declarations) (decl : Nat) : Prop where
  acyclic : ∀ other, ReflTransGen (Examines decls) decl other →
    ¬ TransGen (Examines decls) other other
  notNull : ∀ other, ReflTransGen (Examines decls) decl other → ¬ ExaminesNull decls other

/-- Only the declared variables go on to others. -/
theorem Examines.declared {decls : Declarations} (decl other : Nat)
    (h : Examines decls decl other) : decl ∈ Finset.range decls.length := by
  obtain ⟨init, hinit, -⟩ := h
  have hentry : decls[decl]? = some (some init) := Option.join_eq_some_iff.mp hinit
  exact Finset.mem_range.mpr (List.getElem?_eq_some_iff.mp hentry).1

/-- Where the check returns, it has followed all references to their end. -/
theorem acc_of_returns {decls : Declarations} {depth decl : Nat} {answer : Bool}
    (h : isDeclRefConstant decls depth decl = some answer) :
    Acc (fun other decl => Examines decls decl other) decl ∧
      ∀ other, ReflTransGen (Examines decls) decl other → ¬ ExaminesNull decls other := by
  induction depth generalizing decl answer with
  | zero => cases h
  | succ depth ih =>
      obtain ⟨hexamined, hnull⟩ := examined_returns h
      constructor
      · refine Acc.intro _ fun other hother => ?_
        obtain ⟨answer', hanswer'⟩ := hexamined other hother
        exact (ih hanswer').1
      · intro other hreach
        rcases hreach.cases_head with rfl | ⟨next, hnext, hreach⟩
        · exact hnull
        · obtain ⟨answer', hanswer'⟩ := hexamined next hnext
          exact (ih hanswer').2 other hreach

/-- The check of a variable returns if and only if it settles. -/
theorem returns_declRef_iff {decls : Declarations} {decl : Nat} :
    Returns decls (.declRef decl) ↔ Settles decls decl := by
  have hacyclic := @Descent.acc_iff_no_cycle _ (Examines decls) decl _ Examines.declared
  constructor
  · rintro ⟨depth, answer, hanswer⟩
    obtain ⟨hacc, hnull⟩ := acc_of_returns hanswer
    exact ⟨hacyclic.mp hacc, hnull⟩
  · rintro ⟨hcycle, hnull⟩
    have hacc := hacyclic.mpr hcycle
    clear hcycle hacyclic
    induction hacc with
    | intro decl _ ih =>
        refine returns_of_examined (fun other hother => ?_) (hnull decl .refl)
        exact ih other hother fun later hlater => hnull later (.head hother hlater)

/-- **The check of a statement returns exactly if, from the variable it refers to, it never
    comes back to a variable from its own initialiser** (or to a null pointer). -/
theorem returns_iff (decls : Declarations) (statement : Stmt) :
    Returns decls statement ↔ ∀ decl, statement = .declRef decl → Settles decls decl := by
  constructor
  · rintro hreturns decl rfl
    exact returns_declRef_iff.mp hreturns
  · intro hsettles
    exact returns_of_declRef fun decl heq => returns_declRef_iff.mpr (hsettles decl heq)

/-- `VisitExpr` returns if and only if the checks of all children do. -/
theorem visitExpr_returns_iff (decls : Declarations) {expression : Stmt}
    (h : ∀ children, expression ≠ .predefined children) :
    (∃ depth visited, visitExpr decls depth expression = some visited) ↔
      ∀ child, some child ∈ expression.ignoreImplicit.children →
        Returns decls child.ignoreImplicit := by
  have hvisit : ∀ depth, visitExpr decls depth expression =
      visitChildren (isDeclRefConstant decls depth) expression.ignoreImplicit.children := by
    intro depth
    cases expression with
    | predefined children => exact absurd rfl (h children)
    | _ => rfl
  simp only [hvisit]
  generalize expression.ignoreImplicit.children = children
  induction children with
  | nil => exact iff_of_true ⟨0, 0, rfl⟩ fun _ hmem => absurd hmem List.not_mem_nil
  | cons child rest ih =>
      cases child with
      | none =>
          refine ih.trans (forall_congr' fun child => ?_)
          rw [List.mem_cons, or_iff_right (Option.some_ne_none child)]
      | some child =>
          constructor
          · rintro ⟨depth, visited, hvisited⟩ other hother
            obtain ⟨constant, hconstant, hrest⟩ := Option.bind_eq_some_iff.mp hvisited
            obtain ⟨visitedRest, hvisitedRest, -⟩ := Option.bind_eq_some_iff.mp hrest
            rcases List.mem_cons.mp hother with heq | hother
            · cases heq
              exact ⟨depth, constant, hconstant⟩
            · exact ih.mp ⟨depth, visitedRest, hvisitedRest⟩ other hother
          · intro hreturns
            obtain ⟨depth₁, constant, hconstant⟩ := hreturns child List.mem_cons_self
            obtain ⟨depth₂, visited, hvisited⟩ := ih.mpr fun other hother =>
              hreturns other (List.mem_cons_of_mem _ hother)
            refine ⟨max depth₁ depth₂, if constant then visited + 1 else visited,
              Option.bind_eq_some_iff.mpr ⟨constant,
                (extends_of_le decls (Nat.le_max_left _ _)).isConstant hconstant,
                Option.bind_eq_some_iff.mpr ⟨visited,
                  (extends_of_le decls (Nat.le_max_right _ _)).visitChildren hvisited, rfl⟩⟩⟩

/-- `int x = x;` -/
def selfReference : Declarations := [some (.implicit (.declRef 0))]

/-- The check of `x` goes on to `x`. -/
theorem not_returns_selfReference :
    ¬ ∀ (decls : Declarations) (statement : Stmt), Returns decls statement := by
  intro hall
  have hnone : ∀ depth, isDeclRefConstant selfReference depth 0 = none := by
    intro depth
    induction depth with
    | zero => rfl
    | succ depth ih =>
        have hinit : init? selfReference 0 = some (.implicit (.declRef 0)) := rfl
        rw [isDeclRefConstant, hinit]
        refine Option.bind_eq_none_iff.mpr fun constant hconstant => ?_
        have hself : isDeclRefConstant selfReference depth 0 = some constant := hconstant
        rw [ih] at hself
        cases hself
  obtain ⟨depth, answer, hanswer⟩ := hall selfReference (.declRef 0)
  rw [isConstant, hnone] at hanswer
  cases hanswer

end Mull.ScalarValueVisitor
