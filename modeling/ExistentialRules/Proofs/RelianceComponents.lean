import ExistentialRules.Proofs.NetworkPart

/-!
# Reliances and components of an analysis

The numbers that an analysis uses are consistent from one end to the other. An analyzed rule is the
given rule at its origin, and what is not analyzed is listed as left out. There is a reliance
between two numbers exactly if the pairwise test finds one between the two analyzed rules, and the
components are the sets of rules that reliances connect.

## Main statements

* `Analysis.map_some_rules_ofRules`, `Analysis.perm_origins_dropped`: the analyzed rules, and those
  that are left out;
* `RelianceNetwork.contains_ofRules_iff`: the reliances;
* `Analysis.exists_component_ofRules_iff`, `Analysis.perm_flatten_components_ofRules`: the
  components;
* `Analysis.ofRules_exact`: all of it together.
-/

namespace ExistentialRules

open Relation

/-! ## §1 Numbers of given and of analyzed rules -/

namespace Analysis

variable {rules : List Rule} {config : Config}

/-- An analyzed rule is the given rule at its origin. -/
theorem map_some_rules_ofRules :
    (ofRules rules config).rules.map some =
      (ofRules rules config).origins.map fun k => rules[k]? := by
  rw [Analysis.rules, origins, List.map_map, List.map_map]
  apply List.map_congr_left
  intro x hx
  rw [retained_ofRules] at hx
  exact (mem_retain.1 hx).1.symm

/-- Every given rule is either analyzed or left out. -/
theorem perm_origins_dropped :
    ((ofRules rules config).origins ++ (ofRules rules config).dropped).Perm
      (List.range rules.length) := by
  have hdisjoint : List.Disjoint (ofRules rules config).origins (ofRules rules config).dropped :=
    fun k hk hk' => (mem_dropped_ofRules.1 hk').2 hk
  have hnodup : ((ofRules rules config).origins ++ (ofRules rules config).dropped).Nodup :=
    List.nodup_append'.2 ⟨(pairwise_origins rules config).imp Nat.ne_of_lt,
      List.nodup_range.filter _, hdisjoint⟩
  -- No number is listed twice, so it is enough to compare the members.
  refine (List.perm_ext_iff_of_nodup hnodup List.nodup_range).2 fun k => ?_
  rw [List.mem_append, mem_dropped_ofRules, List.mem_range]
  refine ⟨fun h => ?_, fun hk => ?_⟩
  · rcases h with horigin | ⟨hk, -⟩
    · exact lt_of_mem_origins horigin
    · exact hk
  · by_cases horigin : k ∈ (ofRules rules config).origins
    · exact Or.inl horigin
    · exact Or.inr ⟨hk, horigin⟩

end Analysis

/-! ## §2 Reliances -/

/-- There is a reliance between two numbers exactly if these are numbers of rules between which the
pairwise test finds it. -/
theorem RelianceNetwork.contains_ofRules_iff {rules : List Rule} {config : Config} {i j : Nat}
    {polarity : Polarity} :
    (ofRules rules config).contains i j polarity = true ↔
      ∃ r₁ r₂, rules[i]? = some r₁ ∧ rules[j]? = some r₂ ∧
        r₁.relies r₂ config polarity = true := by
  rw [contains, List.contains_iff_mem, mem_edges_ofRules_iff]

/-! ## §3 Components -/

namespace Analysis

theorem connected_linkGraph_iff {N : RelianceNetwork} {i j : Nat} :
    (linkGraph N).Connected i j ↔ ReflTransGen N.Linked i j := by
  simp only [LinkGraph.Connected, mem_neighbours_linkGraph]

/-- Every rule is a node, also one without reliances. -/
theorem nodes_linkGraph {N : RelianceNetwork} (hN : N.Closed) :
    (linkGraph N).nodes = List.range N.ruleCount := by
  refine (symmetric_linkGraph N).strict.ext (Ascending.strict_range _) fun i => ?_
  rw [mem_nodes_linkGraph hN, List.mem_range]

section OfRules

variable {rules : List Rule} {config : Config}

theorem nodes_linkGraph_ofRules :
    (linkGraph (ofRules rules config).reliances).nodes =
      List.range (ofRules rules config).rules.length := by
  rw [reliances_ofRules, nodes_linkGraph (RelianceNetwork.closed_ofRules _ _),
    RelianceNetwork.ruleCount_ofRules]

/-- Two analyzed rules are in one component exactly if a path of reliances leads from one to the
other. -/
theorem exists_component_ofRules_iff {i j : Nat} :
    (∃ c ∈ (ofRules rules config).components, i ∈ c ∧ j ∈ c) ↔
      i < (ofRules rules config).rules.length ∧
        ReflTransGen (ofRules rules config).reliances.Linked i j := by
  rw [components_ofRules, LinkGraph.exists_component_iff (symmetric_linkGraph _),
    nodes_linkGraph_ofRules, List.mem_range, connected_linkGraph_iff]

theorem perm_flatten_components_ofRules :
    (ofRules rules config).components.flatten.Perm
      (List.range (ofRules rules config).rules.length) := by
  rw [components_ofRules, ← nodes_linkGraph_ofRules]
  exact LinkGraph.perm_flatten_components (symmetric_linkGraph _)

end OfRules

/-! ## §4 The whole -/

/-- The analyzed rules are the given rules at ascending origins, and the origins together with the
numbers of the rules that are left out list every given rule once. A positive reliance of an
analysis is one that the pairwise test finds between the two analyzed rules, and so is a negative
one, which is there only if it is looked for. Two analyzed rules are in one component exactly if
they are equal or joined by a path of reliances, of either polarity and taken in either direction,
and each of them is in exactly one component. -/
theorem ofRules_exact (rules : List Rule) (config : Config) :
    let a := ofRules rules config
    (a.origins.Pairwise (· < ·) ∧ a.rules.map some = a.origins.map (fun k => rules[k]?) ∧
      (a.origins ++ a.dropped).Perm (List.range rules.length) ∧
      ∀ k, k ∈ a.dropped ↔
        config.dropInapplicable = true ∧ ∃ r, rules[k]? = some r ∧ r.isApplicable = false) ∧
    (∀ i j, a.reliances.contains i j .positive = true ↔
      ∃ r₁ r₂, a.rules[i]? = some r₁ ∧ a.rules[j]? = some r₂ ∧
        r₁.positivelyRelies r₂ config = true) ∧
    (∀ i j, a.reliances.contains i j .negative = true ↔
      config.negative = true ∧ ∃ r₁ r₂, a.rules[i]? = some r₁ ∧ a.rules[j]? = some r₂ ∧
        r₁.negativelyRelies r₂ config = true) ∧
    (∀ i j, (∃ c ∈ a.components, i ∈ c ∧ j ∈ c) ↔
      i < a.rules.length ∧ ReflTransGen a.reliances.Linked i j) ∧
    a.components.flatten.Perm (List.range a.rules.length) := by
  intro a
  refine ⟨⟨pairwise_origins rules config, map_some_rules_ofRules, perm_origins_dropped,
    fun k => mem_dropped_ofRules_iff⟩, fun i j => ?_, fun i j => ?_,
    fun i j => exists_component_ofRules_iff, perm_flatten_components_ofRules⟩
  -- Positive reliances are always looked for.
  · rw [reliances_ofRules, RelianceNetwork.contains_ofRules_iff]
    rfl
  · rw [reliances_ofRules, RelianceNetwork.contains_ofRules_iff]
    simp only [Rule.relies, Bool.and_eq_true]
    -- Whether negative reliances are looked for does not depend on the rules.
    refine ⟨fun h => ?_, fun h => ?_⟩
    · obtain ⟨r₁, r₂, hr₁, hr₂, hwanted, hrelies⟩ := h
      exact ⟨hwanted, r₁, r₂, hr₁, hr₂, hrelies⟩
    · obtain ⟨hwanted, r₁, r₂, hr₁, hr₂, hrelies⟩ := h
      exact ⟨r₁, r₂, hr₁, hr₂, hwanted, hrelies⟩

end Analysis

end ExistentialRules
