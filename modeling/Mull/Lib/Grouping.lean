import Mathlib.Data.List.Flatten
import Mathlib.Data.List.Perm.Basic
import Mathlib.Data.List.Nodup
import Mathlib.Data.List.Permutation

/-!
# Stable grouping of a list

The elements of a list are grouped by a key.  `keys` are the keys that occur, each once and
in the order of their first occurrence, and `group` are the elements with a given key, in
their order.  Both grow at the end with the list (`keys_concat`, `group_concat`), which is
what an algorithm that reads the list from the front does with them, and the groups
together are the list again (`flatMap_group_perm`).
-/

namespace Grouping

variable {α κ : Type} [DecidableEq κ]

/-- The keys of the list, in the order of first occurrence. -/
def keys (key : α → κ) (xs : List α) : List κ :=
  (xs.map key).eraseDups

/-- The elements with key `k`. -/
def group (key : α → κ) (xs : List α) (k : κ) : List α :=
  xs.filter (key · = k)

variable {key : α → κ} {xs : List α}

/-! ### Growing at the end -/

theorem mem_keys {k : κ} : k ∈ keys key xs ↔ k ∈ xs.map key :=
  List.mem_eraseDups

theorem keys_concat (key : α → κ) (xs : List α) (x : α) :
    keys key (xs ++ [x]) = if key x ∈ xs.map key then keys key xs else keys key xs ++ [key x] := by
  rw [keys, List.map_append, List.eraseDups_append]
  split
  · rename_i hmem
    have hnone : (List.map key [x]).removeAll (xs.map key) = [] := by
      simpa [List.removeAll] using hmem
    rw [hnone, List.eraseDups_nil, List.append_nil, keys]
  · rename_i hnew
    have hone : (List.map key [x]).removeAll (xs.map key) = [key x] := by
      simpa [List.removeAll] using hnew
    rw [hone, List.eraseDups_cons, List.filter_nil, List.eraseDups_nil, keys]

theorem group_concat (key : α → κ) (xs : List α) (x : α) (k : κ) :
    group key (xs ++ [x]) k = if key x = k then group key xs k ++ [x] else group key xs k := by
  rw [group, List.filter_append, List.filter_singleton]
  by_cases hkey : key x = k
  · simp [hkey, group]
  · simp [hkey, group]

theorem group_append (key : α → κ) (xs ys : List α) (k : κ) :
    group key (xs ++ ys) k = group key xs k ++ group key ys k :=
  List.filter_append ..

/-- Where no key occurs twice, no group has two elements. -/
theorem group_length_le_one {k : κ} (h : (xs.map key).Nodup) : (group key xs k).length ≤ 1 := by
  have hkeys : ∀ k' ∈ (group key xs k).map key, k' = k := by
    intro k' hk'
    obtain ⟨x, hx, rfl⟩ := List.mem_map.mp hk'
    simpa using (List.mem_filter.mp hx).2
  have hnodup : ((group key xs k).map key).Nodup := h.sublist (List.filter_sublist.map key)
  rw [List.eq_replicate_of_mem hkeys, List.nodup_replicate, List.length_map] at hnodup
  exact hnodup

/-- A key that does not occur has an empty group. -/
theorem group_eq_nil {k : κ} (h : k ∉ xs.map key) : group key xs k = [] := by
  rw [group, List.filter_eq_nil_iff]
  intro x hx hkey
  exact h (List.mem_map.mpr ⟨x, hx, by simpa using hkey⟩)

/-! ### Order and completeness -/

/-- Of two keys, the one that occurs first comes first. -/
theorem keys_ordered (key : α → κ) (xs : List α) :
    (keys key xs).Pairwise fun k k' => xs.findIdx (key · = k) < xs.findIdx (key · = k') := by
  induction xs using List.reverseRecOn with
  | nil => exact .nil
  | append_singleton xs x ih =>
      have hfound : ∀ k, xs.findIdx (key · = k) < xs.length ↔ k ∈ keys key xs := by
        intro k
        rw [List.findIdx_lt_length, mem_keys, List.mem_map]
        simp
      -- the positions of keys that occur already do not change
      have hkept : ∀ k ∈ keys key xs,
          (xs ++ [x]).findIdx (key · = k) = xs.findIdx (key · = k) := by
        intro k hk
        rw [List.findIdx_append, if_pos ((hfound k).mpr hk)]
      have hold : (keys key xs).Pairwise fun k k' =>
          (xs ++ [x]).findIdx (key · = k) < (xs ++ [x]).findIdx (key · = k') := by
        refine List.Pairwise.imp_of_mem ?_ ih
        intro k k' hk hk' hlt
        rw [hkept k hk, hkept k' hk']
        exact hlt
      rw [keys_concat]
      split
      · exact hold
      · rename_i hnew
        refine List.pairwise_append.mpr ⟨hold, List.pairwise_singleton _ _, ?_⟩
        intro k hk k' hk'
        obtain rfl := List.mem_singleton.mp hk'
        have hnotFound := mt (hfound _).mp (mt mem_keys.mp hnew)
        rw [hkept k hk, List.findIdx_append, if_neg hnotFound]
        exact Nat.lt_of_lt_of_le ((hfound k).mpr hk) (Nat.le_add_left _ _)

theorem keys_nodup (key : α → κ) (xs : List α) : (keys key xs).Nodup :=
  (keys_ordered key xs).imp fun hlt heq => absurd hlt (by rw [heq]; exact lt_irrefl _)

/-- **The groups together are the list,** in another order. -/
theorem flatMap_group_perm (key : α → κ) (xs : List α) :
    ((keys key xs).flatMap (group key xs)).Perm xs := by
  have hsplit : ∀ (ks : List κ), ks.Nodup → ∀ (ys : List α), (∀ y ∈ ys, key y ∈ ks) →
      (ks.flatMap (group key ys)).Perm ys := by
    intro ks
    induction ks with
    | nil =>
        intro _ ys hys
        cases ys with
        | nil => exact .refl _
        | cons y ys => exact absurd (hys y List.mem_cons_self) List.not_mem_nil
    | cons k ks ih =>
        intro hnodup ys hys
        obtain ⟨hk, hnodup⟩ := List.nodup_cons.mp hnodup
        -- the groups of the other keys are those of the elements with another key
        have hother : ∀ k' ∈ ks,
            group key ys k' = group key (ys.filter fun y => !decide (key y = k)) k' := by
          intro k' hk'
          rw [group, group, List.filter_filter]
          refine List.filter_congr fun y _ => ?_
          have hne : k' ≠ k := fun heq => hk (heq ▸ hk')
          by_cases hkey : key y = k'
          · simp [hkey, hne]
          · simp [hkey]
        have hrest : (ks.flatMap (group key ys)).Perm (ys.filter fun y => !decide (key y = k)) := by
          rw [List.flatMap_congr hother]
          refine ih hnodup _ fun y hy => ?_
          obtain ⟨hy, hkey⟩ := List.mem_filter.mp hy
          exact (List.mem_cons.mp (hys y hy)).resolve_left (by simpa using hkey)
        rw [List.flatMap_cons]
        exact (hrest.append_left _).trans (List.filter_append_perm _ ys)
  exact hsplit _ (keys_nodup key xs) xs fun x hx => mem_keys.mpr (List.mem_map_of_mem hx)

/-! ### Lists in the order of their keys -/

omit [DecidableEq κ] in
/-- If the keys of two lists are in the order of one list of distinct keys, and the lists
    have the same elements, they are the same. -/
theorem eq_of_map_sublist {ks : List κ} (hnodup : ks.Nodup) {xs ys : List α}
    (hxs : (xs.map key).Sublist ks) (hys : (ys.map key).Sublist ks)
    (hmem : ∀ x, x ∈ xs ↔ x ∈ ys) : xs = ys := by
  induction ks generalizing xs ys with
  | nil =>
      rw [List.map_eq_nil_iff.mp (List.sublist_nil.mp hxs),
        List.map_eq_nil_iff.mp (List.sublist_nil.mp hys)]
  | cons k ks ih =>
      obtain ⟨hk, hks⟩ := List.nodup_cons.mp hnodup
      -- an element with the first key is in no list of elements with later keys
      have hlater : ∀ {zs : List α} {z : α}, (zs.map key).Sublist ks → key z = k → z ∉ zs :=
        fun hzs hz hmem => hk (hz ▸ hzs.subset (List.mem_map_of_mem hmem))
      rcases List.sublist_cons_iff.mp hxs with hafter | ⟨keys, hx, hafter⟩
      · rcases List.sublist_cons_iff.mp hys with hafter' | ⟨keys', hy, hafter'⟩
        · exact ih hks hafter hafter' hmem
        · obtain ⟨y, ys, rfl, hkey', rfl⟩ := List.map_eq_cons_iff.mp hy
          exact absurd ((hmem y).mpr List.mem_cons_self) (hlater hafter hkey')
      · obtain ⟨x, xs, rfl, hkey, rfl⟩ := List.map_eq_cons_iff.mp hx
        rcases List.sublist_cons_iff.mp hys with hafter' | ⟨keys', hy, hafter'⟩
        · exact absurd ((hmem x).mp List.mem_cons_self) (hlater hafter' hkey)
        · obtain ⟨y, ys, rfl, hkey', rfl⟩ := List.map_eq_cons_iff.mp hy
          obtain rfl : x = y := by
            rcases List.mem_cons.mp ((hmem x).mp List.mem_cons_self) with heq | hx
            · exact heq
            · exact absurd hx (hlater hafter' hkey)
          congr 1
          refine ih hks hafter hafter' fun z => ?_
          have hz := hmem z
          rw [List.mem_cons, List.mem_cons] at hz
          by_cases heq : z = x
          · subst heq
            exact iff_of_false (hlater hafter hkey) (hlater hafter' hkey)
          · rwa [or_iff_right heq, or_iff_right heq] at hz

end Grouping
