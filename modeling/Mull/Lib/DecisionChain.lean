import Mathlib.Logic.Function.Basic
import Mathlib.Data.List.Basic

/-!
# Decision chains

A decision diagram with one node for each variable, in the order of the variables.  A node
goes to the next one on one value of its variable and further ahead on the other one; there
are two exits behind the last node.

Different nodes decide differently (`exists_exit_ne`), so a chain is determined by what it
decides (`eq_of_exit_eq`).
-/

namespace DecisionChain

/-- Node `i` goes to `next b` if variable `i` has the value `b`. -/
abbrev Nodes := List (Bool → Nat)

structure IsChain (nodes : Nodes) : Prop where
  next : ∀ i next, nodes[i]? = some next →
    ∃ b, next b = i + 1 ∧ i + 1 < next (!b) ∧ next (!b) ≤ nodes.length + 1

def walk (nodes : Nodes) (v : Nat → Bool) : Nat → Nat → Nat
  | 0, i => i
  | fuel + 1, i =>
      match nodes[i]? with
      | none => i
      | some next => walk nodes v fuel (next (v i))

/-- The exit that is reached from node `i`. -/
def exit (nodes : Nodes) (v : Nat → Bool) (i : Nat) : Nat := walk nodes v nodes.length i

variable {nodes nodes' : Nodes}

theorem walk_of_length_le (v : Nat → Bool) (fuel : Nat) {i : Nat} (hi : nodes.length ≤ i) :
    walk nodes v fuel i = i := by
  cases fuel with
  | zero => rfl
  | succ fuel => rw [walk, List.getElem?_eq_none hi]

theorem exit_of_length_le (v : Nat → Bool) {i : Nat} (hi : nodes.length ≤ i) :
    exit nodes v i = i := walk_of_length_le v _ hi

namespace IsChain

variable (h : IsChain nodes)

include h

theorem lt_next {i : Nat} {next : Bool → Nat} (hi : nodes[i]? = some next) (b : Bool) :
    i < next b ∧ next b ≤ nodes.length + 1 := by
  obtain ⟨c, hnext, hjump, hle⟩ := h.next i next hi
  have hlt := (List.getElem?_eq_some_iff.mp hi).1
  by_cases hb : b = c
  · rw [hb, hnext]
    omega
  · obtain rfl : b = !c := Bool.eq_not.mpr hb
    omega

/-- More steps than nodes are left change nothing. -/
theorem walk_succ (v : Nat → Bool) {fuel i : Nat} (hfuel : nodes.length ≤ i + fuel) :
    walk nodes v (fuel + 1) i = walk nodes v fuel i := by
  induction fuel generalizing i with
  | zero => rw [walk_of_length_le v _ (by omega), walk_of_length_le v _ (by omega)]
  | succ fuel ih =>
      rw [walk, walk]
      cases hi : nodes[i]? with
      | none => rfl
      | some next =>
          have := (h.lt_next hi (v i)).1
          exact ih (by omega)

theorem exit_step (v : Nat → Bool) {i : Nat} {next : Bool → Nat} (hi : nodes[i]? = some next) :
    exit nodes v i = exit nodes v (next (v i)) := by
  have hlt := (List.getElem?_eq_some_iff.mp hi).1
  have hnext := (h.lt_next hi (v i)).1
  obtain ⟨fuel, hfuel⟩ : ∃ fuel, nodes.length = fuel + 1 := ⟨nodes.length - 1, by omega⟩
  calc exit nodes v i = walk nodes v (fuel + 1) i := by rw [exit, hfuel]
    _ = walk nodes v fuel (next (v i)) := by rw [walk, hi]
    _ = walk nodes v (fuel + 1) (next (v i)) := (h.walk_succ v (by omega)).symm
    _ = exit nodes v (next (v i)) := by rw [exit, hfuel]

theorem exit_mem (v : Nat → Bool) {i : Nat} (hi : i ≤ nodes.length + 1) :
    nodes.length ≤ exit nodes v i ∧ exit nodes v i ≤ nodes.length + 1 := by
  induction hk : nodes.length - i using Nat.strongRecOn generalizing i with
  | ind k ih =>
      cases hget : nodes[i]? with
      | none =>
          have hle := List.getElem?_eq_none_iff.mp hget
          rw [exit_of_length_le v hle]
          exact ⟨hle, hi⟩
      | some next =>
          have hlt := (List.getElem?_eq_some_iff.mp hget).1
          have hnext := h.lt_next hget (v i)
          rw [h.exit_step v hget]
          exact ih _ (by omega) hnext.2 rfl

/-- What is reached from a node depends on the node and those behind it. -/
theorem exit_congr (h' : IsChain nodes') (hlength : nodes.length = nodes'.length)
    {v v' : Nat → Bool} {i : Nat} (hnodes : ∀ j, i ≤ j → nodes[j]? = nodes'[j]?)
    (hv : ∀ j, i ≤ j → v j = v' j) : exit nodes v i = exit nodes' v' i := by
  -- by induction on the number of nodes behind
  induction hk : nodes.length - i using Nat.strongRecOn generalizing i with
  | ind k ih =>
      cases hi : nodes[i]? with
      | none =>
          have hle := List.getElem?_eq_none_iff.mp hi
          rw [exit_of_length_le v hle, exit_of_length_le v' (hlength ▸ hle)]
      | some next =>
          have hlt := (List.getElem?_eq_some_iff.mp hi).1
          have hnext := (h.lt_next hi (v i)).1
          rw [h.exit_step v hi, h'.exit_step v' ((hnodes i (Nat.le_refl i)).symm.trans hi),
            ← hv i (Nat.le_refl i)]
          exact ih _ (by omega) (fun j hj => hnodes j (by omega)) (fun j hj => hv j (by omega)) rfl

theorem exit_update (v : Nat → Bool) {i j : Nat} (hij : i < j) (b : Bool) :
    exit nodes (Function.update v i b) j = exit nodes v j :=
  h.exit_congr h rfl (fun _ _ => rfl) fun k hk =>
    Function.update_of_ne (by omega : k ≠ i) b v

theorem exit_update_self (v : Nat → Bool) {i : Nat} {next : Bool → Nat}
    (hi : nodes[i]? = some next) (b : Bool) :
    exit nodes (Function.update v i b) i = exit nodes v (next b) := by
  rw [h.exit_step _ hi, Function.update_self, h.exit_update v (h.lt_next hi b).1]

/-- A node depends on its variable, and one further ahead does not. -/
theorem exists_ne_of_next (h' : IsChain nodes') {p q : Nat} {next : Bool → Nat} {b : Bool}
    {v : Nat → Bool} (hp : nodes[p]? = some next)
    (hv : exit nodes v (next b) ≠ exit nodes v (next (!b))) (hpq : p < q) :
    ∃ v, exit nodes v p ≠ exit nodes' v q := by
  by_contra hall
  push Not at hall
  have hb := hall (Function.update v p b)
  have hb' := hall (Function.update v p (!b))
  rw [h.exit_update_self v hp, h'.exit_update v hpq] at hb hb'
  exact hv (hb.trans hb'.symm)

/-- **Different nodes decide differently.** -/
theorem exists_exit_ne {p q : Nat} (hpq : p < q) (hq : q ≤ nodes.length + 1) :
    ∃ v, exit nodes v p ≠ exit nodes v q := by
  induction hk : nodes.length - p using Nat.strongRecOn generalizing p q with
  | ind k ih =>
      cases hp : nodes[p]? with
      | none =>
          have hle := List.getElem?_eq_none_iff.mp hp
          refine ⟨fun _ => true, ?_⟩
          rw [exit_of_length_le _ hle, exit_of_length_le _ (by omega)]
          omega
      | some next =>
          obtain ⟨b, hnext, hjump, hle⟩ := h.next p next hp
          have hlt := (List.getElem?_eq_some_iff.mp hp).1
          obtain ⟨v, hv⟩ := ih _ (by omega) hjump hle rfl
          rw [← hnext] at hv
          exact h.exists_ne_of_next h hp hv hpq

theorem eq_of_forall_exit_eq {p q : Nat} (hp : p ≤ nodes.length + 1) (hq : q ≤ nodes.length + 1)
    (hsame : ∀ v, exit nodes v p = exit nodes v q) : p = q := by
  rcases Nat.lt_trichotomy p q with hlt | heq | hlt
  · obtain ⟨v, hv⟩ := h.exists_exit_ne hlt hq
    exact absurd (hsame v) hv
  · exact heq
  · obtain ⟨v, hv⟩ := h.exists_exit_ne hlt hp
    exact absurd (hsame v).symm hv

/-- The next node is not replaced by one further ahead. -/
theorem exists_exit_ne_of_lt (hlength : nodes.length = nodes'.length) (h' : IsChain nodes')
    {p q : Nat} (hp : p ≤ nodes.length) (hpq : p < q) (hq : q ≤ nodes.length + 1) :
    ∃ v, exit nodes v p ≠ exit nodes' v q := by
  cases hget : nodes[p]? with
  | none =>
      have hle := List.getElem?_eq_none_iff.mp hget
      refine ⟨fun _ => true, ?_⟩
      rw [exit_of_length_le _ hle, exit_of_length_le _ (by omega)]
      omega
  | some next =>
      obtain ⟨b, hnext, hjump, hle⟩ := h.next p next hget
      obtain ⟨v, hv⟩ := h.exists_exit_ne hjump hle
      rw [← hnext] at hv
      exact h.exists_ne_of_next h' hget hv hpq

/-- **A chain is determined by what it decides.** -/
theorem eq_of_exit_eq (h' : IsChain nodes') (hlength : nodes.length = nodes'.length)
    (hsame : ∀ v, exit nodes v 0 = exit nodes' v 0) : nodes = nodes' := by
  have hfrom : ∀ i, (∀ v, exit nodes v i = exit nodes' v i) → ∀ j, i ≤ j → nodes[j]? = nodes'[j]? := by
    intro i
    induction hk : nodes.length - i using Nat.strongRecOn generalizing i with
    | ind k ih =>
        intro hi j hj
        by_cases hlt : i < nodes.length
        · obtain ⟨next, hnext⟩ : ∃ next, nodes[i]? = some next := ⟨_, List.getElem?_eq_getElem hlt⟩
          obtain ⟨next', hnext'⟩ : ∃ next', nodes'[i]? = some next' :=
            ⟨_, List.getElem?_eq_getElem (hlength ▸ hlt)⟩
          obtain ⟨b, hone, hjump, hle⟩ := h.next i next hnext
          obtain ⟨c, hone', hjump', hle'⟩ := h'.next i next' hnext'
          have hbranch : ∀ d v, exit nodes v (next d) = exit nodes' v (next' d) := by
            intro d v
            rw [← h.exit_update_self v hnext, ← h'.exit_update_self v hnext', hi]
          by_cases hbc : b = c
          · -- both go on for the same value
            subst hbc
            have hrest := ih _ (by omega) (i + 1) rfl fun v => by
              have := hbranch b v
              rwa [hone, hone'] at this
            rcases Nat.eq_or_lt_of_le hj with rfl | hgt
            · rw [hnext, hnext']
              have htarget : next (!b) = next' (!b) := by
                refine h.eq_of_forall_exit_eq hle (hlength ▸ hle') fun v => ?_
                rw [hbranch (!b) v]
                exact (h.exit_congr h' hlength (fun j hj => hrest j (by omega)) fun _ _ => rfl).symm
              have hfun : next = next' := by
                funext d
                by_cases hd : d = b
                · rw [hd, hone, hone']
                · obtain rfl : d = !b := Bool.eq_not.mpr hd
                  exact htarget
              rw [hfun]
            · exact hrest j hgt
          · -- one goes on where the other one jumps
            obtain rfl : c = !b := Bool.eq_not.mpr (Ne.symm hbc)
            rw [Bool.not_not] at hjump' hle'
            obtain ⟨v, hv⟩ := h.exists_exit_ne_of_lt hlength h' (by omega : i + 1 ≤ nodes.length)
              hjump' (hlength ▸ hle')
            have := hbranch b v
            rw [hone] at this
            exact absurd this hv
        · rw [List.getElem?_eq_none (by omega), List.getElem?_eq_none (by omega)]
  exact List.ext_getElem? fun j => hfrom 0 hsame j (Nat.zero_le j)

/-- A node gets another jump. -/
theorem set {k : Nat} {next : Bool → Nat} {b : Bool} (hnext : next b = k + 1)
    (hjump : k + 1 < next (!b)) (hle : next (!b) ≤ nodes.length + 1) :
    IsChain (nodes.set k next) := by
  constructor
  intro i other hi
  rw [List.length_set]
  rw [List.getElem?_set] at hi
  split at hi
  · rename_i heq
    subst heq
    split at hi
    · cases hi
      exact ⟨b, hnext, hjump, hle⟩
    · cases hi
  · exact h.next i other hi

end IsChain

end DecisionChain
