import Mathlib.Data.Set.Finite.List
import Mathlib.Order.Preorder.Finite
import ExistentialRules.Proofs.StronglyConnected

/-!
# The strata of a dependency graph

Every rule is in one stratum. A recursive stratum is a strongly connected component, and the rules
of any other stratum do not depend on each other.

As long as components are left, one of them depends on no other: a rule from which as few rules as
possible can be reached lies in such a component. So every round takes a component, and the rounds
take all of them.

## Main statements

* `DependencyGraph.exists_isReady`: every round makes progress;
* `DependencyGraph.perm_rounds`, `DependencyGraph.perm_strata`: no rule is lost or listed twice;
* `DependencyGraph.not_mem_dependenciesOf_of_flat`: there is no dependency inside a stratum that is
  not recursive;
* `DependencyGraph.recursive_iff_isComponent`: what makes a stratum recursive.
-/

namespace ExistentialRules

namespace DependencyGraph

variable {g : DependencyGraph} {i j : Nat}

/-! ## §1 Progress -/

/-- As long as components are left, one of them is ready. -/
theorem exists_isReady {pending : List Stratum}
    (hcomponents : ∀ s ∈ pending, g.IsComponent s.rules) (hpending : pending ≠ []) :
    ∃ s ∈ pending, g.isReady pending s = true := by
  obtain ⟨s₀, hs₀⟩ := List.exists_mem_of_ne_nil pending hpending
  obtain ⟨i₀, hi₀⟩ := List.exists_mem_of_ne_nil s₀.rules (hcomponents s₀ hs₀).nonempty
  -- Among the rules still there, take one from which a minimal set of rules can be reached.
  obtain ⟨i, hi, hminimal⟩ := Set.Finite.exists_minimalFor (fun i => {j | g.Reaches i j})
    {i | i ∈ pending.flatMap Stratum.rules} (List.finite_toSet _)
    ⟨i₀, List.mem_flatMap.2 ⟨s₀, hs₀, hi₀⟩⟩
  obtain ⟨s, hs, his⟩ := List.mem_flatMap.1 hi
  -- What it depends on reaches no fewer rules, hence it is reached back.
  refine ⟨s, hs, isReady_iff.2 fun j hj d hd t ht hdt => ?_⟩
  have hij := ((hcomponents s hs).mem_iff i his j).1 hj
  have hid : g.Reaches i d := hij.1.tail hd
  have hdi : g.Reaches d i :=
    hminimal (List.mem_flatMap.2 ⟨t, ht, hdt⟩) (fun k hk => hid.trans hk) Relation.ReflTransGen.refl
  exact ((hcomponents s hs).mem_iff i his d).2 ⟨hid, hdi⟩

/-- A round takes at least one component, so what is left needs fewer rounds. -/
theorem length_filter_not_isReady_le {pending : List Stratum}
    (hcomponents : ∀ s ∈ pending, g.IsComponent s.rules) {n : Nat}
    (hlength : pending.length ≤ n + 1) :
    (pending.filter fun s => !g.isReady pending s).length ≤ n := by
  by_cases hpending : pending = []
  · simp [hpending]
  · obtain ⟨s, hs, hready⟩ := exists_isReady hcomponents hpending
    have hless : (pending.filter fun s => !g.isReady pending s).length < pending.length :=
      List.length_filter_lt_length_iff_exists.2 ⟨s, hs, by simp [hready]⟩
    omega

/-- More rounds than components change nothing. -/
theorem rounds_add {n : Nat} (k : Nat) {pending : List Stratum}
    (hcomponents : ∀ s ∈ pending, g.IsComponent s.rules) (hlength : pending.length ≤ n) :
    g.rounds (n + k) pending = g.rounds n pending := by
  induction n generalizing pending with
  | zero =>
    -- When nothing is left, rounds add nothing.
    have hnil : ∀ k, g.rounds k [] = [] := by
      intro k
      induction k with
      | zero => rfl
      | succ k ih => rw [rounds, List.filter_nil, List.filter_nil, ih, List.append_nil]; rfl
    rw [List.length_eq_zero_iff.1 (Nat.le_zero.1 hlength), hnil, hnil]
  | succ n ih =>
    have hrest := length_filter_not_isReady_le hcomponents hlength
    rw [Nat.add_right_comm, rounds, rounds,
      ih (fun s hs => hcomponents s (List.mem_of_mem_filter hs)) hrest]

/-! ## §2 No rule is lost -/

/-- Components without a rule in common are different, since none of them is empty. -/
theorem nodup_map_rules {ready : List Stratum} (hnodup : (ready.flatMap Stratum.rules).Nodup)
    (hnonempty : ∀ s ∈ ready, s.rules ≠ []) : (ready.map Stratum.rules).Nodup := by
  refine List.pairwise_map.2 ((List.nodup_flatMap.1 hnodup).2.imp_of_mem ?_)
  intro s t hs _ hdisjoint heq
  obtain ⟨i, hi⟩ := List.exists_mem_of_ne_nil s.rules (hnonempty s hs)
  exact hdisjoint hi (heq ▸ hi)

theorem nodup_filter {pending : List Stratum} (hnodup : (pending.flatMap Stratum.rules).Nodup)
    (p : Stratum → Bool) : ((pending.filter p).flatMap Stratum.rules).Nodup :=
  hnodup.sublist (List.filter_sublist.flatMap Stratum.rules)

/-- The rules of a round are those of the one merged stratum, followed by those of the recursive
ones. -/
theorem flatMap_rules_round (ready : List Stratum) :
    (round ready).flatMap Stratum.rules =
      Ascending.ofList ((ready.filter fun s => !s.recursive).flatMap Stratum.rules) ++
        (Ascending.ofList ((ready.filter fun s => s.recursive).map Stratum.rules)).flatten := by
  simp only [round, List.flatMap_append, List.flatMap_map, List.flatten_eq_flatMap]
  congr 1
  -- The stratum that would be empty is left out.
  split
  · rename_i hempty
    exact (List.isEmpty_iff.1 hempty).symm
  · simp

/-- A round loses no rule and lists none twice. -/
theorem perm_round {ready : List Stratum} (hnodup : (ready.flatMap Stratum.rules).Nodup)
    (hnonempty : ∀ s ∈ ready, s.rules ≠ []) :
    ((round ready).flatMap Stratum.rules).Perm (ready.flatMap Stratum.rules) := by
  have hflat := Ascending.perm_ofList (nodup_filter hnodup fun s => !s.recursive)
  have hrecursive : (Ascending.ofList ((ready.filter fun s => s.recursive).map Stratum.rules)).Perm
      ((ready.filter fun s => s.recursive).map Stratum.rules) := by
    apply Ascending.perm_ofList
    apply nodup_map_rules (nodup_filter hnodup _)
    exact fun s hs => hnonempty s (List.mem_of_mem_filter hs)
  rw [flatMap_rules_round]
  -- Sorting changes the order only, and the two kinds together are all that was ready.
  refine (hflat.append hrecursive.flatten).trans ?_
  rw [← List.flatMap_def, ← List.flatMap_append]
  apply List.Perm.flatMap_right
  exact List.perm_append_comm.trans (List.filter_append_perm _ ready)

/-- The rounds keep all rules, each once, if there are as many rounds as components. -/
theorem perm_rounds (n : Nat) {pending : List Stratum}
    (hcomponents : ∀ s ∈ pending, g.IsComponent s.rules)
    (hnodup : (pending.flatMap Stratum.rules).Nodup) (hlength : pending.length ≤ n) :
    ((g.rounds n pending).flatMap Stratum.rules).Perm (pending.flatMap Stratum.rules) := by
  -- By induction on the number of rounds: what is ready is kept by this one, the rest by those to
  -- come.
  induction n generalizing pending with
  | zero =>
    rw [List.length_eq_zero_iff.1 (Nat.le_zero.1 hlength)]
    exact List.Perm.refl _
  | succ n ih =>
    have hready := perm_round (nodup_filter hnodup (g.isReady pending))
      fun s hs => (hcomponents s (List.mem_of_mem_filter hs)).nonempty
    have hrest := length_filter_not_isReady_le hcomponents hlength
    have hlater := ih (fun s hs => hcomponents s (List.mem_of_mem_filter hs))
      (nodup_filter hnodup _) hrest
    rw [rounds, List.flatMap_append]
    refine (hready.append hlater).trans ?_
    rw [← List.flatMap_append]
    exact (List.filter_append_perm _ pending).flatMap_right _

theorem isComponent_of_mem_components (hg : g.Bounded) {s : Stratum}
    (hs : s ∈ g.stronglyConnected.map g.componentStratum) : g.IsComponent s.rules := by
  obtain ⟨c, hc, rfl⟩ := List.mem_map.1 hs
  exact isComponent_of_mem_stronglyConnected hg hc

theorem perm_components (hg : g.Bounded) :
    ((g.stronglyConnected.map g.componentStratum).flatMap Stratum.rules).Perm
      (List.range g.ruleCount) := by
  have hrules : (g.stronglyConnected.map g.componentStratum).flatMap Stratum.rules =
      g.stronglyConnected.flatten := by
    rw [List.flatMap_map, List.flatten_eq_flatMap]
    rfl
  rw [hrules]
  exact perm_flatten_stronglyConnected hg

/-- Every rule is in one stratum, and listed there once. -/
theorem perm_strata (hg : g.Bounded) :
    (g.strata.flatMap Stratum.rules).Perm (List.range g.ruleCount) := by
  have hperm := perm_components hg
  refine (perm_rounds _ (fun s hs => ?_) (hperm.nodup_iff.2 List.nodup_range) le_rfl).trans hperm
  exact isComponent_of_mem_components hg hs

/-! ## §3 Two kinds of strata -/

/-- A recursive stratum of a round is one of the components that were ready. -/
theorem mem_of_mem_round {ready : List Stratum} {t : Stratum} (ht : t ∈ round ready)
    (hrecursive : t.recursive = true) : t ∈ ready := by
  rcases List.mem_append.1 ht with ht | ht
  · split at ht
    · cases ht
    · rw [List.mem_singleton.1 ht] at hrecursive
      cases hrecursive
  · obtain ⟨rules, hrules, rfl⟩ := List.mem_map.1 ht
    rw [Ascending.mem_ofList] at hrules
    obtain ⟨s, hs, rfl⟩ := List.mem_map.1 hrules
    obtain ⟨hs, hsrec⟩ := List.mem_filter.1 hs
    have heq : s = ⟨s.rules, true⟩ := by rw [← hsrec]
    rwa [← heq]

/-- A recursive stratum is one of the components. -/
theorem mem_of_mem_rounds {n : Nat} {pending : List Stratum} {t : Stratum}
    (ht : t ∈ g.rounds n pending) (hrecursive : t.recursive = true) : t ∈ pending := by
  induction n generalizing pending with
  | zero => cases ht
  | succ n ih =>
    rcases List.mem_append.1 ht with ht | ht
    · exact List.mem_of_mem_filter (mem_of_mem_round ht hrecursive)
    · exact List.mem_of_mem_filter (ih ht)

/-- If there is no dependency inside the components that are not recursive, then there is none
inside the strata made of them. -/
theorem not_mem_dependenciesOf_rounds {n : Nat} {pending : List Stratum}
    (hseparate : Separate pending)
    (hflat : ∀ s ∈ pending, s.recursive = false →
      ∀ i ∈ s.rules, ∀ j ∈ s.rules, i ∉ g.dependenciesOf j)
    {t : Stratum} (ht : t ∈ g.rounds n pending) (htflat : t.recursive = false)
    (hi : i ∈ t.rules) (hj : j ∈ t.rules) : i ∉ g.dependenciesOf j := by
  induction n generalizing pending with
  | zero => cases ht
  | succ n ih =>
    rcases List.mem_append.1 ht with ht | ht
    · obtain ⟨s, hs, hsflat, hi⟩ := exists_of_mem_round ht hi
      obtain ⟨s', hs', -, hj⟩ := exists_of_mem_round ht hj
      obtain ⟨hs, -⟩ := List.mem_filter.1 hs
      obtain ⟨hs', hready⟩ := List.mem_filter.1 hs'
      by_cases heq : s' = s
      · subst heq
        exact hflat s' hs (hsflat.trans htflat) i hi j hj
      -- Both components were ready, so neither depends on the other.
      · exact precedes_of_isReady hseparate hs' hready hs heq j hj i hi
    · refine ih (fun s hs s' hs' => ?_) (fun s hs => ?_) ht
      · exact hseparate s (List.mem_of_mem_filter hs) s' (List.mem_of_mem_filter hs')
      · exact hflat s (List.mem_of_mem_filter hs)

/-- A component is not recursive exactly if it is one rule that does not depend on itself. -/
theorem recursive_componentStratum_eq_false_iff {c : List Nat} :
    (g.componentStratum c).recursive = false ↔ ∃ r, c = [r] ∧ r ∉ g.dependenciesOf r := by
  unfold componentStratum
  dsimp only
  split
  · rename_i r
    simp [eq_comm]
  · rename_i hc
    simpa using fun r hr => absurd hr (hc r)

section Strata

variable {t : Stratum} (ht : t ∈ g.strata)

include ht

/-- In a stratum that is not recursive, no rule depends on a rule of the stratum. -/
theorem not_mem_dependenciesOf_of_flat (hflat : t.recursive = false) (hi : i ∈ t.rules)
    (hj : j ∈ t.rules) : i ∉ g.dependenciesOf j := by
  refine not_mem_dependenciesOf_rounds separate_components (fun s hs hsflat i hi j hj => ?_) ht
    hflat hi hj
  obtain ⟨c, -, rfl⟩ := List.mem_map.1 hs
  obtain ⟨r, hc, hr⟩ := recursive_componentStratum_eq_false_iff.1 hsflat
  have hrules : (g.componentStratum c).rules = [r] := hc
  rw [hrules, List.mem_singleton] at hi hj
  rwa [hi, hj]

/-- In a stratum that is not recursive, every rule is a component by itself. -/
theorem singleton_mem_of_flat (hflat : t.recursive = false) (hi : i ∈ t.rules) :
    [i] ∈ g.stronglyConnected := by
  obtain ⟨s, hs, hsflat, hi⟩ := exists_of_mem_rounds ht hi
  obtain ⟨c, hc, rfl⟩ := List.mem_map.1 hs
  obtain ⟨r, rfl, -⟩ := recursive_componentStratum_eq_false_iff.1 (hsflat.trans hflat)
  have hir : i = r := List.mem_singleton.1 hi
  rwa [hir]

theorem exists_component_of_recursive (hrecursive : t.recursive = true) :
    ∃ c ∈ g.stronglyConnected, g.componentStratum c = t :=
  List.mem_map.1 (mem_of_mem_rounds ht hrecursive)

theorem nodup_of_mem_strata (hg : g.Bounded) : t.rules.Nodup := by
  have hnodup := (perm_strata hg).nodup_iff.2 List.nodup_range
  exact (List.nodup_flatMap.1 hnodup).1 t ht

/-- A stratum is recursive exactly if it is a component of several rules, or of one rule that
depends on itself. -/
theorem recursive_iff_isComponent (hg : g.Bounded) :
    t.recursive = true ↔
      g.IsComponent t.rules ∧ (1 < t.rules.length ∨ ∃ i ∈ t.rules, i ∈ g.dependenciesOf i) := by
  refine ⟨fun hrecursive => ?_, fun h => ?_⟩
  · obtain ⟨c, hc, rfl⟩ := exists_component_of_recursive ht hrecursive
    have hcomponent := isComponent_of_mem_stronglyConnected hg hc
    refine ⟨hcomponent, ?_⟩
    -- Otherwise it would be one rule that does not depend on itself.
    by_contra hsingle
    obtain ⟨hfew, hself⟩ := not_or.1 hsingle
    have hpos : 0 < c.length := List.length_pos_iff.2 hcomponent.nonempty
    have hone : c.length = 1 := Nat.le_antisymm (Nat.le_of_not_lt hfew) hpos
    obtain ⟨r, rfl⟩ := List.length_eq_one_iff.1 hone
    have hflat : (g.componentStratum [r]).recursive = false :=
      recursive_componentStratum_eq_false_iff.2
        ⟨r, rfl, fun hr => hself ⟨r, List.mem_singleton_self r, hr⟩⟩
    rw [hflat] at hrecursive
    cases hrecursive
  · obtain ⟨hcomponent, hmany | ⟨i, hi, hself⟩⟩ := h
    all_goals
      by_contra hflat
      rw [Bool.not_eq_true] at hflat
    · -- Each rule of the stratum would be a component by itself.
      obtain ⟨i, hi⟩ := List.exists_mem_of_ne_nil t.rules hcomponent.nonempty
      have halone := isComponent_of_mem_stronglyConnected hg (singleton_mem_of_flat ht hflat hi)
      have hsubset : t.rules ⊆ [i] := fun j hj =>
        (halone.mem_iff i (List.mem_singleton_self i) j).2 ((hcomponent.mem_iff i hi j).1 hj)
      have hle := (List.subperm_of_subset (nodup_of_mem_strata ht hg) hsubset).length_le
      exact absurd hmany (Nat.not_lt.2 hle)
    · exact not_mem_dependenciesOf_of_flat ht hflat hi hi hself

end Strata

end DependencyGraph

end ExistentialRules
