import Mathlib.Data.List.Cycle
import ExistentialRules.Proofs.Origin
import ExistentialRules.Proofs.StrataPartition

/-!
# Strata respect positive reliance

A rule that can bring about applications of another is in an earlier stratum, or both are in one
recursive stratum because they are on a common cycle of reliances. The recursive strata are the
strongly connected components of positive reliance in which there is a cycle; the rules of any other
stratum do not rely on each other.

## Main definitions

* `RelianceNetwork.Positive`: the positive reliances of a network;
* `RelianceNetwork.OnCommonCycle`, `RelianceNetwork.IsComponent`: cycles and components of them.

## Main statements

* `RelianceNetwork.onCommonCycle_of_reflTransGen`: a reliance and a way back make a cycle;
* `DependencyGraph.isComponent_ofReliances_iff`: dependencies and positive reliances have the same
  components;
* `Analysis.strata_respect_positive`: the strata of an analysis.
-/

namespace ExistentialRules

open Relation

/-! ## §1 Cycles -/

/-- By induction on the way: a way that comes back to its first node is cut short. -/
theorem exists_simple_path {α : Type} {r : α → α → Prop} {a b : α} (h : ReflTransGen r a b) :
    ∃ l, (a :: l).Nodup ∧ (a :: l).IsChain r ∧ (a :: l).getLast (List.cons_ne_nil a l) = b := by
  induction h using ReflTransGen.head_induction_on with
  | refl => exact ⟨[], List.nodup_singleton b, List.isChain_singleton b, rfl⟩
  | @head a c hac _ ih =>
    obtain ⟨l, hnodup, hchain, hlast⟩ := ih
    by_cases ha : a ∈ c :: l
    · obtain ⟨l₁, l₂, hsplit⟩ := List.append_of_mem ha
      have hlast' : (a :: l₂).getLast (List.cons_ne_nil a l₂) = b := by
        simp only [hsplit] at hlast
        rwa [List.getLast_append_of_ne_nil] at hlast
      rw [hsplit] at hnodup hchain
      exact ⟨l₂, hnodup.of_append_right, hchain.right_of_append, hlast'⟩
    · refine ⟨c :: l, List.nodup_cons.2 ⟨ha, hnodup⟩, List.isChain_cons_cons.2 ⟨hac, hchain⟩, ?_⟩
      rwa [List.getLast_cons_cons]

namespace RelianceNetwork

/-- The first rule can bring about applications of the second. -/
def Positive (N : RelianceNetwork) (i j : Nat) : Prop :=
  (⟨i, j, .positive⟩ : RelianceEdge) ∈ N.edges

/-- Both rules are on a cycle of positive reliances that passes through no rule twice. -/
def OnCommonCycle (N : RelianceNetwork) (i j : Nat) : Prop :=
  ∃ c : Cycle Nat, c.Nodup ∧ i ∈ c ∧ j ∈ c ∧ c.Chain N.Positive

/-- The list holds the rules that positive reliances lead to from some rule and back from there. -/
def IsComponent (N : RelianceNetwork) (rules : List Nat) : Prop :=
  ∃ i < N.ruleCount, ∀ j, j ∈ rules ↔ ReflTransGen N.Positive i j ∧ ReflTransGen N.Positive j i

/-- A reliance and a way back make a cycle. -/
theorem onCommonCycle_of_reflTransGen {N : RelianceNetwork} {i j : Nat} (hij : N.Positive i j)
    (hji : ReflTransGen N.Positive j i) : N.OnCommonCycle i j := by
  -- The way back need not pass through any rule twice.
  obtain ⟨l, hnodup, hchain, hlast⟩ := exists_simple_path hji
  have hi : i ∈ j :: l := by
    rw [← hlast]
    exact List.getLast_mem _
  refine ⟨(j :: l : List Nat), hnodup, hi, List.mem_cons_self, ?_⟩
  rw [Cycle.chain_ne_nil _ (List.cons_ne_nil j l), hlast]
  exact List.isChain_cons_cons.2 ⟨hij, hchain⟩

/-- The positive reliances are between rules of the network. -/
def Bounded (N : RelianceNetwork) : Prop :=
  ∀ i j, N.Positive i j → i < N.ruleCount ∧ j < N.ruleCount

theorem bounded_ofRules (rules : List Rule) (config : Config) : (ofRules rules config).Bounded := by
  intro i j h
  obtain ⟨r₁, r₂, hr₁, hr₂, -⟩ := mem_edges_ofRules_iff.1 h
  rw [ruleCount_ofRules]
  exact ⟨(List.getElem?_eq_some_iff.1 hr₁).1, (List.getElem?_eq_some_iff.1 hr₂).1⟩

end RelianceNetwork

/-! ## §2 Dependencies that follow from reliances -/

namespace DependencyGraph

variable {N : RelianceNetwork} {i j : Nat}

theorem ruleCount_ofReliances (N : RelianceNetwork) : (ofReliances N).ruleCount = N.ruleCount := by
  simp [ruleCount, ofReliances]

variable (hN : N.Bounded)

include hN

/-- The dependencies of a rule are its positive reliances, read backwards. -/
theorem mem_dependenciesOf_iff_positive :
    i ∈ (ofReliances N).dependenciesOf j ↔ N.Positive i j := by
  rw [mem_dependenciesOf_ofReliances]
  exact and_iff_right_of_imp fun h => (hN i j h).2

theorem bounded_ofReliances : (ofReliances N).Bounded := by
  intro j i h
  rw [ruleCount_ofReliances]
  exact (hN i j ((mem_dependenciesOf_iff_positive hN).1 h)).1

/-- A rule depends on those from which positive reliances lead to it. -/
theorem reaches_ofReliances_iff : (ofReliances N).Reaches j i ↔ ReflTransGen N.Positive i j := by
  rw [← reflTransGen_swap]
  simp only [Reaches, mem_dependenciesOf_iff_positive hN]

theorem connected_ofReliances_iff :
    (ofReliances N).Connected i j ↔
      ReflTransGen N.Positive i j ∧ ReflTransGen N.Positive j i := by
  rw [Connected, reaches_ofReliances_iff hN, reaches_ofReliances_iff hN, and_comm]

/-- Dependencies and positive reliances have the same components. -/
theorem isComponent_ofReliances_iff {c : List Nat} :
    (ofReliances N).IsComponent c ↔ N.IsComponent c := by
  refine ⟨fun h => ?_, fun h => ?_⟩
  · obtain ⟨i, hi⟩ := List.exists_mem_of_ne_nil c h.nonempty
    refine ⟨i, ?_, fun j => ?_⟩
    · rw [← ruleCount_ofReliances N]
      exact h.lt_ruleCount i hi
    · rw [h.mem_iff i hi j, connected_ofReliances_iff hN]
  · obtain ⟨i, hi, hmem⟩ := h
    rw [← ruleCount_ofReliances N] at hi
    apply isComponent_of_connected_iff (bounded_ofReliances hN) hi
    intro j
    rw [hmem j, connected_ofReliances_iff hN]

/-! ## §3 Strata -/

theorem exists_stratum (hi : i < N.ruleCount) :
    ∃ (k : Nat) (s : Stratum), (ofReliances N).strata[k]? = some s ∧ i ∈ s.rules := by
  have hperm := perm_strata (bounded_ofReliances hN)
  have hmem := hperm.mem_iff.2 (List.mem_range.2 (ruleCount_ofReliances N ▸ hi))
  obtain ⟨s, hs, hi⟩ := List.mem_flatMap.1 hmem
  obtain ⟨k, hk⟩ := List.mem_iff_getElem?.1 hs
  exact ⟨k, s, hk, hi⟩

/-- A reliance leads to a later stratum, or it is part of a cycle in a recursive one. -/
theorem lt_or_onCommonCycle {k l : Nat} {s t : Stratum} (hij : N.Positive i j)
    (hs : (ofReliances N).strata[k]? = some s) (hi : i ∈ s.rules)
    (ht : (ofReliances N).strata[l]? = some t) (hj : j ∈ t.rules) :
    k < l ∨ k = l ∧ s.recursive = true ∧ N.OnCommonCycle i j := by
  have hdepends := (mem_dependenciesOf_iff_positive hN).2 hij
  have hsmem := List.mem_of_getElem? hs
  -- By the places of the two strata.
  rcases Nat.lt_trichotomy k l with hkl | hkl | hkl
  · exact Or.inl hkl
  · subst hkl
    cases Option.some.inj (hs.symm.trans ht)
    -- Inside a stratum that is not recursive there is no reliance.
    have hrecursive : s.recursive = true := by
      by_contra hflat
      rw [Bool.not_eq_true] at hflat
      exact not_mem_dependenciesOf_of_flat hsmem hflat hi hj hdepends
    have hcomponent :=
      ((recursive_iff_isComponent hsmem (bounded_ofReliances hN)).1 hrecursive).1
    have hconnected := (connected_ofReliances_iff hN).1 ((hcomponent.mem_iff i hi j).1 hj)
    exact Or.inr ⟨rfl, hrecursive, N.onCommonCycle_of_reflTransGen hij hconnected.2⟩
  -- A stratum does not depend on a later one.
  · obtain ⟨hl, rfl⟩ := List.getElem?_eq_some_iff.1 ht
    obtain ⟨hk, rfl⟩ := List.getElem?_eq_some_iff.1 hs
    have hprecedes := List.pairwise_iff_getElem.1 (pairwise_precedes_strata (ofReliances N))
    exact absurd hdepends (hprecedes l k hl hk hkl j hj i hi)

end DependencyGraph

namespace Analysis

/-- Every analyzed rule is in one stratum, and listed there once. A positive reliance leads from a
stratum to a later one, or both rules are in one recursive stratum and on a common cycle. A stratum
is recursive exactly if it is a strongly connected component of positive reliance with more than
one rule or with a rule that relies on itself. In other strata no rule relies on another or on
itself. -/
theorem strata_respect_positive (rules : List Rule) (config : Config) :
    let a := ofRules rules config
    (a.strata.flatMap Stratum.rules).Perm (List.range a.rules.length) ∧
      (∀ i j, a.reliances.Positive i j →
        ∃ (k l : Nat) (s t : Stratum), a.strata[k]? = some s ∧ i ∈ s.rules ∧
          a.strata[l]? = some t ∧ j ∈ t.rules ∧
          (k < l ∨ k = l ∧ s.recursive = true ∧ a.reliances.OnCommonCycle i j)) ∧
      (∀ s ∈ a.strata, s.recursive = true ↔
        a.reliances.IsComponent s.rules ∧
          (1 < s.rules.length ∨ ∃ i ∈ s.rules, a.reliances.Positive i i)) ∧
      ∀ s ∈ a.strata, s.recursive = false →
        ∀ i ∈ s.rules, ∀ j ∈ s.rules, ¬ a.reliances.Positive i j := by
  intro a
  have hstrata : a.strata = (DependencyGraph.ofReliances a.reliances).strata := by
    rw [strata_ofRules, dependencies_ofRules]
  have hcount : a.reliances.ruleCount = a.rules.length := by
    rw [reliances_ofRules, RelianceNetwork.ruleCount_ofRules]
  have hN : a.reliances.Bounded := by
    rw [reliances_ofRules]
    exact RelianceNetwork.bounded_ofRules _ _
  -- Nothing else about the analysis matters.
  clear_value a
  have hg := DependencyGraph.bounded_ofReliances hN
  rw [hstrata]
  refine ⟨?_, fun i j hij => ?_, fun s hs => ?_, fun s hs hflat i hi j hj hij => ?_⟩
  · have hperm := DependencyGraph.perm_strata hg
    rwa [DependencyGraph.ruleCount_ofReliances, hcount] at hperm
  · obtain ⟨k, s, hs, hi⟩ := DependencyGraph.exists_stratum hN (hN i j hij).1
    obtain ⟨l, t, ht, hj⟩ := DependencyGraph.exists_stratum hN (hN i j hij).2
    exact ⟨k, l, s, t, hs, hi, ht, hj, DependencyGraph.lt_or_onCommonCycle hN hij hs hi ht hj⟩
  · rw [DependencyGraph.recursive_iff_isComponent hs hg,
      DependencyGraph.isComponent_ofReliances_iff hN]
    simp only [DependencyGraph.mem_dependenciesOf_iff_positive hN]
  · exact DependencyGraph.not_mem_dependenciesOf_of_flat hs hflat hi hj
      ((DependencyGraph.mem_dependenciesOf_iff_positive hN).2 hij)

end Analysis

end ExistentialRules
