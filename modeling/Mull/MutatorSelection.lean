import Mathlib.Logic.Relation
import Mull.MutatorsFactory

/-!
# Which mutators a request selects

A name stands for the names that it leads to by going from groups to their members, up to the
names that are no groups.  A group only has members that are listed before it, so that the
expansion ends (`exists_expandGroups`).  Every request begins with all registered mutators,
whatever earlier requests have moved out of the factory, and so the mutators it returns are
determined by the set of its names (`mutators_selects`).
-/

namespace Mull.MutatorsFactory

open Mutators

/-! ### Expanding groups -/

/-- A name is a member of a group. -/
def IsMember (mapping : List (String × List String)) (group name : String) : Prop :=
  ∃ members, mapping.lookup group = some members ∧ name ∈ members

/-- A name leads to another one through groups and their members. -/
def Reaches (mapping : List (String × List String)) : String → String → Prop :=
  Relation.ReflTransGen (IsMember mapping)

section Expand

variable {mapping : List (String × List String)}

theorem reaches_iff_of_lookup_eq_none {name target : String} (h : mapping.lookup name = none) :
    Reaches mapping name target ↔ target = name := by
  constructor
  · intro hreaches
    rcases Relation.ReflTransGen.cases_head hreaches with rfl | ⟨member, ⟨members, hlookup, -⟩, -⟩
    · rfl
    · rw [h] at hlookup
      cases hlookup
  · rintro rfl
    exact .refl

theorem reaches_iff_of_lookup_eq_some {group target : String} {members : List String}
    (h : mapping.lookup group = some members) :
    Reaches mapping group target ↔
      target = group ∨ ∃ name ∈ members, Reaches mapping name target := by
  constructor
  · intro hreaches
    rcases Relation.ReflTransGen.cases_head hreaches with
      rfl | ⟨name, ⟨members', hlookup, hmem⟩, hname⟩
    · exact .inl rfl
    · rw [h] at hlookup
      obtain rfl := Option.some.inj hlookup
      exact .inr ⟨name, hmem, hname⟩
  · rintro (rfl | ⟨name, hmem, hname⟩)
    · exact .refl
    · exact .head ⟨members, h, hmem⟩ hname

/-- A loop over names that adds what belongs to each of them. -/
theorem exists_foldlM_insert {α : Type} {step : Finset α → String → Option (Finset α)}
    {adds : String → α → Prop} {names : List String} {expanded : Finset α}
    (hstep : ∀ name ∈ names, ∀ s, ∃ s', step s name = some s' ∧
      ∀ x, x ∈ s' ↔ x ∈ s ∨ adds name x) :
    ∃ s', names.foldlM step expanded = some s' ∧
      ∀ x, x ∈ s' ↔ x ∈ expanded ∨ ∃ name ∈ names, adds name x := by
  induction names generalizing expanded with
  | nil => exact ⟨expanded, rfl, by simp⟩
  | cons name names ih =>
    rcases hstep name List.mem_cons_self expanded with ⟨s, hs, hmem⟩
    rcases @ih s fun name hname => hstep name (List.mem_cons_of_mem _ hname) with ⟨s', hs', hmem'⟩
    refine ⟨s', by rw [List.foldlM_cons, hs]; exact hs', ?_⟩
    intro x
    rw [hmem', hmem, or_assoc]
    simp

/-- A name that is no group leads to itself only. -/
theorem mem_insert_iff_reaches {name : String} (h : mapping.lookup name = none)
    (expanded : Finset String) (x : String) :
    x ∈ insert name expanded ↔
      x ∈ expanded ∨ Reaches mapping name x ∧ mapping.lookup x = none := by
  rw [Finset.mem_insert, reaches_iff_of_lookup_eq_none h, or_comm]
  refine or_congr_right ?_
  constructor
  · intro hx
    exact ⟨hx, hx ▸ h⟩
  · exact And.left

/-- **Expanding names of a low rank ends, with the names they lead to that are no groups.** -/
theorem exists_expandGroups {rank : String → Nat}
    (hrank : ∀ group name, IsMember mapping group name → rank name < rank group)
    (hpos : ∀ group, (mapping.lookup group).isSome → 0 < rank group) (depth : Nat) :
    ∀ (groups : List String) (expanded : Finset String), (∀ group ∈ groups, rank group ≤ depth) →
      ∃ expanded', expandGroups mapping depth groups expanded = some expanded' ∧
        ∀ x, x ∈ expanded' ↔ x ∈ expanded ∨
          ∃ group ∈ groups, Reaches mapping group x ∧ mapping.lookup x = none := by
  induction depth with
  | zero =>
    intro groups expanded hdepth
    apply exists_foldlM_insert
    intro name hname s
    have hnone : mapping.lookup name = none := by
      by_contra hsome
      have := hpos name (Option.isSome_iff_ne_none.mpr hsome)
      have := hdepth name hname
      omega
    exact ⟨insert name s, by simp [hnone], mem_insert_iff_reaches hnone s⟩
  | succ depth ih =>
    intro groups expanded hdepth
    apply exists_foldlM_insert
    intro name hname s
    cases hlookup : mapping.lookup name with
    | none => exact ⟨insert name s, rfl, mem_insert_iff_reaches hlookup s⟩
    | some members =>
      have hmembers : ∀ member ∈ members, rank member ≤ depth := by
        intro member hmember
        have := hrank name member ⟨members, hlookup, hmember⟩
        have := hdepth name hname
        omega
      rcases ih members s hmembers with ⟨s', hs', hmem⟩
      refine ⟨s', hs', ?_⟩
      intro x
      rw [hmem, reaches_iff_of_lookup_eq_some hlookup]
      refine or_congr_right ?_
      constructor
      · rintro ⟨member, hmember, hreaches, hx⟩
        exact ⟨.inr ⟨member, hmember, hreaches⟩, hx⟩
      · rintro ⟨rfl | ⟨member, hmember, hreaches⟩, hx⟩
        · rw [hlookup] at hx
          cases hx
        · exact ⟨member, hmember, hreaches, hx⟩

end Expand

/-! ### The groups of the factory -/

/-- The place of a group, counted from one, and zero for what is no group. -/
def rank (name : String) : Nat :=
  ((groupsMapping.findIdx? (·.1 = name)).map (· + 1)).getD 0

/-- The members of a group that are groups come before it. -/
theorem rank_members : groupsMapping.all fun entry =>
    entry.2.all fun name => decide (rank name < rank entry.1) := by
  decide +kernel

theorem mem_of_lookup {group : String} {members : List String}
    (h : groupsMapping.lookup group = some members) : (group, members) ∈ groupsMapping := by
  rcases List.lookup_eq_some_iff.mp h with ⟨before, after, hmapping, -⟩
  simp [hmapping]

theorem rank_lt_of_isMember {group name : String} (h : IsMember groupsMapping group name) :
    rank name < rank group := by
  rcases h with ⟨members, hlookup, hname⟩
  have hall := List.all_eq_true.mp rank_members _ (mem_of_lookup hlookup)
  exact of_decide_eq_true (List.all_eq_true.mp hall name hname)

theorem rank_pos_of_group {group : String} (h : (groupsMapping.lookup group).isSome) :
    0 < rank group := by
  rcases Option.isSome_iff_exists.mp h with ⟨members, hlookup⟩
  have hfound : (groupsMapping.findIdx? (·.1 = group)).isSome := by
    rw [List.findIdx?_isSome, List.any_eq_true]
    exact ⟨_, mem_of_lookup hlookup, by simp⟩
  rcases Option.isSome_iff_exists.mp hfound with ⟨i, hi⟩
  simp [rank, hi]

theorem rank_le (name : String) : rank name ≤ groupsMapping.length := by
  unfold rank
  cases hi : groupsMapping.findIdx? (·.1 = name) with
  | none => exact Nat.zero_le _
  | some i =>
    rcases List.findIdx?_eq_some_iff_getElem.mp hi with ⟨hlt, -⟩
    exact hlt

/-- No mutator has the name of a group. -/
theorem lookup_uniqueIdentifier {mutator : Mutator} (h : mutator ∈ registered) :
    groupsMapping.lookup mutator.uniqueIdentifier = none := by
  have hall : registered.all fun mutator =>
      (groupsMapping.lookup mutator.uniqueIdentifier).isNone := by
    decide +kernel
  exact Option.isNone_iff_eq_none.mp (List.all_eq_true.mp hall mutator h)

/-! ### Requests -/

/-- The names that a request asks for. -/
def requested (groups : List String) : List String :=
  if groups.isEmpty then ["cxx_default"] else groups

/-- The factory after some requests. -/
def Factory.after (requests : List (List String)) : Option Factory :=
  requests.foldlM (fun factory groups => (factory.mutators groups).map Selection.factory) .empty

/-- The names that a request is expanded to. -/
theorem exists_expanded (groups : List String) :
    ∃ expanded, expandGroups groupsMapping groupsMapping.length (requested groups) ∅ =
        some expanded ∧
      ∀ x, x ∈ expanded ↔ ∃ group ∈ requested groups,
        Reaches groupsMapping group x ∧ groupsMapping.lookup x = none := by
  obtain ⟨expanded, hexpand, hmem⟩ := exists_expandGroups (fun _ _ => rank_lt_of_isMember)
    (fun _ => rank_pos_of_group) groupsMapping.length (requested groups) ∅
    fun group _ => rank_le group
  exact ⟨expanded, hexpand, by simpa using hmem⟩

/-- What a request returns, in terms of the names it is expanded to. -/
theorem Factory.mutators_eq (factory : Factory) {groups : List String} {expanded : Finset String}
    (h : expandGroups groupsMapping groupsMapping.length (requested groups) ∅ = some expanded) :
    ∃ selection, factory.mutators groups = some selection ∧
      selection.mutators = (expanded.sort (· ≤ ·)).filterMap registeredUnder := by
  refine ⟨_, congrArg (Option.map _) h, ?_⟩
  rw [Selection.mutators_warned, foldl_select (Finset.sort_nodup _ _), List.nil_append,
    factory.init_mutatorsMapping]

/-- A request always returns. -/
theorem Factory.exists_mutators (factory : Factory) (groups : List String) :
    ∃ selection, factory.mutators groups = some selection := by
  rcases exists_expanded groups with ⟨expanded, hexpand, -⟩
  rcases factory.mutators_eq hexpand with ⟨selection, hselection, -⟩
  exact ⟨selection, hselection⟩

theorem Factory.exists_after (requests : List (List String)) :
    ∃ factory, Factory.after requests = some factory := by
  unfold Factory.after
  generalize Factory.empty = factory
  induction requests generalizing factory with
  | nil => exact ⟨factory, rfl⟩
  | cons groups requests ih =>
    rcases factory.exists_mutators groups with ⟨selection, hselection⟩
    rw [List.foldlM_cons, hselection]
    exact ih selection.factory

/-- In the order of their identifiers, the registered mutators that are asked for or belong to
    a group that is. -/
structure Selects (groups : List String) (mutators : List Mutator) : Prop where
  sorted : mutators.Pairwise fun mutator mutator' =>
    mutator.uniqueIdentifier < mutator'.uniqueIdentifier
  mem : ∀ mutator, mutator ∈ mutators ↔ mutator ∈ registered ∧
    ∃ group ∈ requested groups, Reaches groupsMapping group mutator.uniqueIdentifier

theorem selects_expanded {groups : List String} {expanded : Finset String}
    (h : ∀ x, x ∈ expanded ↔ ∃ group ∈ requested groups,
      Reaches groupsMapping group x ∧ groupsMapping.lookup x = none) :
    Selects groups ((expanded.sort (· ≤ ·)).filterMap registeredUnder) where
  sorted := by
    refine (Finset.sortedLT_sort expanded).pairwise.filterMap _ ?_
    intro identifier identifier' hlt mutator hmutator mutator' hmutator'
    rw [(registeredUnder_eq_some_iff.mp hmutator).2, (registeredUnder_eq_some_iff.mp hmutator').2]
    exact hlt
  mem mutator := by
    simp only [List.mem_filterMap, registeredUnder_eq_some_iff, Finset.mem_sort, h]
    constructor
    · rintro ⟨_, ⟨group, hgroup, hreaches, -⟩, hregistered, rfl⟩
      exact ⟨hregistered, group, hgroup, hreaches⟩
    · rintro ⟨hregistered, group, hgroup, hreaches⟩
      exact ⟨_, ⟨group, hgroup, hreaches, lookup_uniqueIdentifier hregistered⟩, hregistered, rfl⟩

/-- The order of the names and their number do not matter. -/
theorem mem_requested_congr {groups groups' : List String}
    (h : ∀ name, name ∈ groups' ↔ name ∈ groups) (name : String) :
    name ∈ requested groups' ↔ name ∈ requested groups := by
  have hempty : groups'.isEmpty = groups.isEmpty := by
    rw [Bool.eq_iff_iff, List.isEmpty_iff, List.isEmpty_iff, List.eq_nil_iff_forall_not_mem,
      List.eq_nil_iff_forall_not_mem]
    exact forall_congr' fun name => not_congr (h name)
  unfold requested
  rw [hempty]
  split
  · rfl
  · exact h name

/-- **A request selects by the set of its names, whatever was requested before.** -/
theorem mutators_selects (requests : List (List String)) (groups : List String) :
    ∃ factory selection, Factory.after requests = some factory ∧
      factory.mutators groups = some selection ∧ Selects groups selection.mutators ∧
      ∀ requests' groups', (∀ name, name ∈ groups' ↔ name ∈ groups) →
        ∃ factory' selection', Factory.after requests' = some factory' ∧
          factory'.mutators groups' = some selection' ∧
          selection'.mutators = selection.mutators := by
  rcases exists_expanded groups with ⟨expanded, hexpand, hmem⟩
  rcases Factory.exists_after requests with ⟨factory, hfactory⟩
  rcases factory.mutators_eq hexpand with ⟨selection, hselection, hmutators⟩
  refine ⟨factory, selection, hfactory, hselection, hmutators ▸ selects_expanded hmem, ?_⟩
  intro requests' groups' hnames
  rcases exists_expanded groups' with ⟨expanded', hexpand', hmem'⟩
  rcases Factory.exists_after requests' with ⟨factory', hfactory'⟩
  rcases factory'.mutators_eq hexpand' with ⟨selection', hselection', hmutators'⟩
  have hsame : expanded' = expanded := by
    ext x
    simp only [hmem, hmem', mem_requested_congr hnames]
  exact ⟨factory', selection', hfactory', hselection', by rw [hmutators, hmutators', hsame]⟩

end Mull.MutatorsFactory
