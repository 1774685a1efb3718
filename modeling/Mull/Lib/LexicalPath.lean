import Mathlib.Data.List.Basic

/-!
# Lexical paths

An absolute path is cut into its components at the separators; empty components and `.` say
nothing, and `..` takes away the component before it.  What is left, put together again, is
the path without dots, and has none itself (`removeDots_removeDots`).
-/

namespace LexicalPath

/-- The components of a path that say something. -/
def components (path : List Char) : List (List Char) :=
  (path.splitOn '/').filter fun component => component ≠ [] ∧ component ≠ ['.']

/-- The components without `..`; `kept` are those before, the last one first. -/
def withoutParents (kept : List (List Char)) : List (List Char) → List (List Char)
  | [] => kept.reverse
  | component :: rest =>
      if component = ['.', '.'] then withoutParents kept.tail rest
      else withoutParents (component :: kept) rest

/-- The absolute path with these components. -/
def absolute (components : List (List Char)) : List Char := '/' :: ['/'].intercalate components

/-- An absolute path without dots; any other path stays as it is. -/
def removeDots (path : List Char) : List Char :=
  if path.head? = some '/' then absolute (withoutParents [] (components path)) else path

/-- The last component of a path: the root, if it has none, and `.` behind a separator. -/
def filename (path : List Char) : List Char :=
  match (components path).getLast? with
  | none => ['/']
  | some component => if path.getLast? = some '/' then ['.'] else component

/-- A component of a path without dots. -/
def Proper (component : List Char) : Prop :=
  component ≠ [] ∧ component ≠ ['.'] ∧ component ≠ ['.', '.'] ∧ '/' ∉ component

theorem not_mem_of_mem_splitOn {path component : List Char} (h : component ∈ path.splitOn '/') :
    '/' ∉ component := by
  induction path generalizing component with
  | nil =>
      rw [List.splitOn_nil, List.mem_singleton] at h
      simp [h]
  | cons c path ih =>
      rw [List.splitOn_cons_eq_if_modifyHead] at h
      split at h
      · rcases List.mem_cons.mp h with rfl | h
        · exact List.not_mem_nil
        · exact ih h
      · rename_i hc
        cases hsplit : path.splitOn '/' with
        | nil => exact absurd hsplit (List.splitOn_ne_nil _ _)
        | cons first rest =>
            rw [hsplit] at h ih
            rcases List.mem_cons.mp h with rfl | h
            · rw [List.mem_cons, not_or]
              exact ⟨fun heq => hc (by simp [← heq]), ih List.mem_cons_self⟩
            · exact ih (List.mem_cons_of_mem _ h)

theorem proper_of_mem_withoutParents {kept rest : List (List Char)}
    (hkept : ∀ component ∈ kept, Proper component)
    (hrest : ∀ component ∈ rest, component ≠ [] ∧ component ≠ ['.'] ∧ '/' ∉ component) :
    ∀ component ∈ withoutParents kept rest, Proper component := by
  induction rest generalizing kept with
  | nil =>
      intro component hmem
      exact hkept component (List.mem_reverse.mp hmem)
  | cons first rest ih =>
      rw [List.forall_mem_cons] at hrest
      rw [withoutParents]
      split
      · exact ih (fun component hmem => hkept component (List.mem_of_mem_tail hmem)) hrest.2
      · rename_i hparent
        refine ih (List.forall_mem_cons.mpr ⟨?_, hkept⟩) hrest.2
        exact ⟨hrest.1.1, hrest.1.2.1, hparent, hrest.1.2.2⟩

theorem withoutParents_of_proper {kept rest : List (List Char)}
    (hrest : ∀ component ∈ rest, Proper component) :
    withoutParents kept rest = kept.reverse ++ rest := by
  induction rest generalizing kept with
  | nil => rw [withoutParents, List.append_nil]
  | cons first rest ih =>
      rw [List.forall_mem_cons] at hrest
      rw [withoutParents, if_neg hrest.1.2.2.1, ih hrest.2, List.reverse_cons, List.append_assoc]
      rfl

theorem components_absolute {cs : List (List Char)} (hproper : ∀ component ∈ cs, Proper component) :
    components (absolute cs) = cs := by
  unfold components absolute
  rw [List.splitOn_cons_eq_if_modifyHead, if_pos (by simp)]
  rw [List.filter_cons_of_neg (by simp)]
  cases cs with
  | nil => rfl
  | cons first rest =>
      rw [List.splitOn_intercalate _ (fun component hmem => (hproper component hmem).2.2.2) (by simp),
        List.filter_eq_self]
      intro component hmem
      rcases hproper component hmem with ⟨hempty, hdot, -⟩
      simp [hempty, hdot]

/-- **A path without dots has no dots to take out.** -/
theorem removeDots_removeDots (path : List Char) : removeDots (removeDots path) = removeDots path := by
  unfold removeDots
  split
  · have hproper : ∀ component ∈ withoutParents [] (components path), Proper component := by
      refine proper_of_mem_withoutParents (by simp) fun component hmem => ?_
      rcases List.mem_filter.mp hmem with ⟨hsplit, hkept⟩
      rw [decide_eq_true_eq] at hkept
      exact ⟨hkept.1, hkept.2, not_mem_of_mem_splitOn hsplit⟩
    rw [if_pos (show (absolute _).head? = some '/' from rfl), components_absolute hproper,
      withoutParents_of_proper hproper]
    rfl
  · rfl

end LexicalPath
