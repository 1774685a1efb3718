import Mathlib.Data.Fintype.Card
import Mathlib.Data.Set.Finite.Basic
import Mathlib.Logic.Relation

/-!
# Descending in a finite graph

A recursion that follows the edges of a graph comes to an end at `a` if `a` is accessible
for the edges read backwards.  If only finitely many nodes have edges, this is the case
exactly when no node that can be reached from `a` lies on a cycle
(`acc_iff_no_cycle`).
-/

namespace Descent

open Relation

variable {α : Type} {r : α → α → Prop} {a : α}

/-- Where the descent ends, there is no way back to the start. -/
theorem not_transGen_self_of_acc (h : Acc (fun b a => r a b) a) : ¬ TransGen r a a := by
  induction h with
  | intro a _ ih =>
      intro hcycle
      obtain ⟨b, hedge, hback⟩ := TransGen.head'_iff.mp hcycle
      exact ih b hedge (TransGen.tail' hback hedge)

/-- The descent ends at all nodes that can be reached. -/
theorem acc_of_reflTransGen (h : Acc (fun b a => r a b) a) {b : α} (hreach : ReflTransGen r a b) :
    Acc (fun b a => r a b) b := by
  induction hreach with
  | refl => exact h
  | tail _ hedge ih => exact ih.inv hedge

/-- Without cycles, the descent through a finite set of nodes ends. -/
theorem acc_of_no_cycle {nodes : Finset α} (hnodes : ∀ b c, r b c → b ∈ nodes)
    (hcycle : ∀ b, ReflTransGen r a b → ¬ TransGen r b b) : Acc (fun b a => r a b) a := by
  let Reached := {b : α // b ∈ nodes ∧ ReflTransGen r a b}
  let later : Reached → Reached → Prop := fun c b => TransGen r b.1 c.1
  have hfinite : Finite Reached := nodes.finite_toSet.subset fun _ h => h.1
  have htrans : IsTrans Reached later := ⟨fun _ _ _ hcb hba => hba.trans hcb⟩
  have hirrefl : Std.Irrefl later := ⟨fun b hback => hcycle b.1 b.2.2 hback⟩
  have hwell : WellFounded later := Finite.wellFounded_of_trans_of_irrefl later
  have hreached : ∀ b : Reached, Acc (fun b a => r a b) b.1 := by
    intro b
    induction b using hwell.induction with
    | _ b ih =>
        refine Acc.intro _ fun c hedge => ?_
        by_cases hc : c ∈ nodes
        · exact ih ⟨c, hc, b.2.2.tail hedge⟩ (.single hedge)
        · exact Acc.intro _ fun d hnext => absurd (hnodes c d hnext) hc
  by_cases ha : a ∈ nodes
  · exact hreached ⟨a, ha, .refl⟩
  · exact Acc.intro _ fun b hedge => absurd (hnodes a b hedge) ha

/-- **The descent ends exactly if no node that can be reached lies on a cycle.** -/
theorem acc_iff_no_cycle {nodes : Finset α} (hnodes : ∀ b c, r b c → b ∈ nodes) :
    Acc (fun b a => r a b) a ↔ ∀ b, ReflTransGen r a b → ¬ TransGen r b b :=
  ⟨fun h _ hreach => not_transGen_self_of_acc (acc_of_reflTransGen h hreach),
    acc_of_no_cycle hnodes⟩

end Descent
