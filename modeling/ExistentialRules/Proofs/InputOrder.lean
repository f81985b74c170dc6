import Mathlib.Data.Set.Function
import ExistentialRules.Proofs.Labelling
import ExistentialRules.Proofs.NetworkPart

/-!
# The order of the rules

If the same rules are given in another order, then they have other numbers. Read by the places that
the rules have in the one list, the two analyses are the same up to the order in which things are
listed.

## Main definitions

* `RelianceNetwork.relabel`: a network with labels instead of numbers;
* `RelianceNetwork.Agree`: two networks that are the same when read by labels.

## Main statements

* `RelianceNetwork.Agree.perm_components`, `RelianceNetwork.Agree.perm_strata`: networks that agree
  have the same components and strata;
* `Analysis.perm_retained`: the same rules are analyzed;
* `Analysis.ofRules_permuted`: the analysis of the rules in another order.
-/

namespace ExistentialRules

/-! ## §1 Networks with labels -/

namespace RelianceNetwork

/-- The network with labels instead of numbers. -/
def relabel (label : Nat → Nat) (N : RelianceNetwork) : RelianceNetwork :=
  ⟨N.ruleCount, N.edges.map (.relabel label)⟩

section Relabel

variable {N : RelianceNetwork} {label : Nat → Nat} (hN : N.Closed)
  (hlabel : Set.InjOn label (Set.Iio N.ruleCount))

include hN hlabel

/-- Labels tell the rules apart, so that positive reliances can be read back from them. -/
theorem positive_relabel_iff {a j : Nat} (hj : j < N.ruleCount) :
    (N.relabel label).Positive a (label j) ↔ ∃ i, N.Positive i j ∧ label i = a := by
  show (⟨a, label j, .positive⟩ : RelianceEdge) ∈ N.edges.map (.relabel label) ↔ _
  rw [List.mem_map]
  constructor
  · intro h
    obtain ⟨⟨i, k, polarity⟩, he, heq⟩ := h
    obtain ⟨rfl, hk, rfl⟩ := (RelianceEdge.mk.injEq ..).mp heq
    -- Only one rule has the label of the target.
    have hkj : k = j := hlabel (hN _ he).2 hj hk
    subst hkj
    exact ⟨i, he, rfl⟩
  · intro h
    obtain ⟨i, hij, rfl⟩ := h
    exact ⟨_, hij, rfl⟩

/-- Links can be read back from the labels, too. -/
theorem linked_relabel_iff {i b : Nat} (hi : i < N.ruleCount) :
    (N.relabel label).Linked (label i) b ↔ ∃ j, N.Linked i j ∧ label j = b := by
  constructor
  · intro h
    obtain ⟨e', he', hends⟩ := h
    obtain ⟨e, he, rfl⟩ := List.mem_map.1 he'
    obtain ⟨hsource, htarget⟩ := hN e he
    -- The reliance leads away from the rule or towards it.
    rcases hends with ⟨hie, rfl⟩ | ⟨hie, rfl⟩
    · exact ⟨e.target, ⟨e, he, Or.inl ⟨hlabel hi hsource hie, rfl⟩⟩, rfl⟩
    · exact ⟨e.source, ⟨e, he, Or.inr ⟨hlabel hi htarget hie, rfl⟩⟩, rfl⟩
  · intro h
    obtain ⟨_, ⟨e, he, ⟨rfl, rfl⟩ | ⟨rfl, rfl⟩⟩, rfl⟩ := h
    · exact ⟨_, List.mem_map_of_mem he, Or.inl ⟨rfl, rfl⟩⟩
    · exact ⟨_, List.mem_map_of_mem he, Or.inr ⟨rfl, rfl⟩⟩

/-- Labels of the rules are labels of the dependency graph. -/
theorem labelling_ofReliances :
    (DependencyGraph.ofReliances N).Labelling label fun b a => (N.relabel label).Positive a b where
  bounded := DependencyGraph.bounded_ofReliances hN.bounded
  injOn := by rwa [DependencyGraph.ruleCount_ofReliances]
  depends_iff := by
    rw [DependencyGraph.ruleCount_ofReliances]
    intro j hj a
    simp only [DependencyGraph.mem_dependenciesOf_iff_positive hN.bounded]
    exact positive_relabel_iff hN hlabel hj

/-- Labels of the rules are labels of the graph of links. -/
theorem labelling_linkGraph :
    (Analysis.linkGraph N).Labelling N.ruleCount label (N.relabel label).Linked where
  symmetric := Analysis.symmetric_linkGraph N
  mem_nodes := fun _ => Analysis.mem_nodes_linkGraph hN
  injOn := hlabel
  linked_iff := by
    intro i hi b
    simp only [Analysis.mem_neighbours_linkGraph]
    exact linked_relabel_iff hN hlabel hi

end Relabel

/-- Read by labels, the networks have the same rules and the same reliances. -/
structure Agree (label label' : Nat → Nat) (N N' : RelianceNetwork) : Prop where
  closed : N.Closed
  closed' : N'.Closed
  injOn : Set.InjOn label (Set.Iio N.ruleCount)
  injOn' : Set.InjOn label' (Set.Iio N'.ruleCount)
  labels : ∀ a, (∃ i < N.ruleCount, label i = a) ↔ ∃ i < N'.ruleCount, label' i = a
  edges : (N.edges.map (RelianceEdge.relabel label)).Perm
    (N'.edges.map (RelianceEdge.relabel label'))

section Agree

variable {label label' : Nat → Nat} {N N' : RelianceNetwork} (h : Agree label label' N N')

include h

theorem Agree.positive_eq : (N.relabel label).Positive = (N'.relabel label').Positive := by
  funext a b
  exact propext h.edges.mem_iff

theorem Agree.linked_eq : (N.relabel label).Linked = (N'.relabel label').Linked := by
  funext a b
  unfold Linked relabel
  simp only [h.edges.mem_iff]

/-- Networks that agree up to labels have the same components up to labels, perhaps in another
order. -/
theorem Agree.perm_components :
    ((Analysis.linkGraph N).components.map (labelSet label)).Perm
      ((Analysis.linkGraph N').components.map (labelSet label')) := by
  have hN := labelling_linkGraph h.closed h.injOn
  have hN' := labelling_linkGraph h.closed' h.injOn'
  rw [h.linked_eq] at hN
  exact LinkGraph.perm_labelled_components hN hN' h.labels

/-- They have the same strata up to labels, too, recursive or not. -/
theorem Agree.perm_strata :
    ((DependencyGraph.ofReliances N).strata.map (Stratum.labelled label)).Perm
      ((DependencyGraph.ofReliances N').strata.map (Stratum.labelled label')) := by
  have hN := labelling_ofReliances h.closed h.injOn
  have hN' := labelling_ofReliances h.closed' h.injOn'
  rw [h.positive_eq] at hN
  apply DependencyGraph.perm_labelled_strata hN hN'
  rw [DependencyGraph.ruleCount_ofReliances, DependencyGraph.ruleCount_ofReliances]
  exact h.labels

end Agree

/-- The order of the rules changes the order of their reliances only. -/
theorem perm_edgesAmong (config : Config) {xs ys : List (Nat × Rule)} (h : xs.Perm ys) :
    (edgesAmong config xs).Perm (edgesAmong config ys) :=
  h.flatMap fun _ _ => h.flatMap_right _

end RelianceNetwork

/-! ## §2 The rules in another order -/

namespace Analysis

section Order

variable {rules rules' : List Rule} {f : Nat → Nat}
  (hf : Set.BijOn f (Set.Iio rules'.length) (Set.Iio rules.length))
  (hrules : ∀ i < rules'.length, rules'[i]? = rules[f i]?)

include hf hrules

/-- Numbered by their places in the one list, the rules of the other one are the same. -/
theorem perm_numbered :
    ((Rule.numbered rules').map (Prod.map f id)).Perm (Rule.numbered rules) := by
  -- Both lists are without repetitions, so that it is enough to compare their entries.
  have hnodup : ((Rule.numbered rules').map (Prod.map f id)).Nodup := by
    apply (Rule.nodup_numbered rules').map_on
    intro x hx y hy heq
    have hfirst := hf.injOn (Rule.lt_of_mem_numbered hx) (Rule.lt_of_mem_numbered hy)
      (congrArg Prod.fst heq)
    exact Prod.ext hfirst (congrArg (fun x => x.2) heq)
  apply (List.perm_ext_iff_of_nodup hnodup (Rule.nodup_numbered rules)).2
  intro ⟨k, r⟩
  rw [List.mem_map, Rule.mem_numbered]
  constructor
  · intro h
    obtain ⟨⟨i, r⟩, hi, heq⟩ := h
    obtain ⟨rfl, rfl⟩ := Prod.mk.injEq .. ▸ heq
    show rules[f i]? = some r
    rw [← hrules i (Rule.lt_of_mem_numbered hi)]
    exact Rule.mem_numbered.1 hi
  · intro hk
    -- Every place of the one list is the place of a rule of the other.
    obtain ⟨i, hi, rfl⟩ := hf.surjOn (List.getElem?_eq_some_iff.1 hk).1
    rw [← hrules i hi] at hk
    exact ⟨(i, r), Rule.mem_numbered.2 hk, rfl⟩

variable (config : Config)

/-- The same rules are analyzed. -/
theorem perm_retained :
    ((ofRules rules' config).retained.map (Prod.map f id)).Perm
      (ofRules rules config).retained := by
  have hperm := (perm_numbered hf hrules).filter fun x =>
    x.2.isApplicable || !config.dropInapplicable
  rw [List.filter_map] at hperm
  rw [retained_ofRules, retained_ofRules, retain_eq_filter, retain_eq_filter]
  exact hperm

theorem perm_origins :
    ((ofRules rules' config).origins.map f).Perm (ofRules rules config).origins := by
  have hperm := (perm_retained hf hrules config).map Prod.fst
  rw [List.map_map] at hperm
  rw [origins, List.map_map]
  exact hperm

/-- A rule is analyzed or left out wherever it stands. -/
theorem mem_origins_permuted {i : Nat} (hi : i < rules'.length) :
    f i ∈ (ofRules rules config).origins ↔ i ∈ (ofRules rules' config).origins := by
  rw [← (perm_origins hf hrules config).mem_iff, List.mem_map]
  refine ⟨fun h => ?_, fun h => ⟨i, h, rfl⟩⟩
  -- The place belongs to no other rule.
  obtain ⟨j, hj, hji⟩ := h
  rwa [← hf.injOn (lt_of_mem_origins hj) hi hji]

/-- The same rules are left out. -/
theorem perm_dropped :
    ((ofRules rules' config).dropped.map f).Perm (ofRules rules config).dropped := by
  have hnodup : ∀ rules, (ofRules rules config).dropped.Nodup :=
    fun rules => List.nodup_range.filter _
  have hnodup' : ((ofRules rules' config).dropped.map f).Nodup := by
    apply (hnodup rules').map_on
    intro i hi j hj
    exact hf.injOn (mem_dropped_ofRules.1 hi).1 (mem_dropped_ofRules.1 hj).1
  -- What is left out is what is not analyzed, on both sides.
  apply (List.perm_ext_iff_of_nodup hnodup' (hnodup rules)).2
  intro k
  rw [List.mem_map, mem_dropped_ofRules]
  constructor
  · intro h
    obtain ⟨i, hi, rfl⟩ := h
    obtain ⟨hlt, hout⟩ := mem_dropped_ofRules.1 hi
    exact ⟨hf.mapsTo hlt, fun hin => hout ((mem_origins_permuted hf hrules config hlt).1 hin)⟩
  · intro h
    obtain ⟨i, hi, rfl⟩ := hf.surjOn h.1
    refine ⟨i, mem_dropped_ofRules.2 ⟨hi, fun hin => h.2 ?_⟩, rfl⟩
    exact (mem_origins_permuted hf hrules config hi).2 hin

/-- Read by places in the one list, the reliances are the same. -/
theorem agree_reliances :
    RelianceNetwork.Agree (f ∘ (ofRules rules' config).origin) (ofRules rules config).origin
      (ofRules rules' config).reliances (ofRules rules config).reliances where
  closed := by
    rw [reliances_ofRules]
    exact RelianceNetwork.closed_ofRules _ config
  closed' := by
    rw [reliances_ofRules]
    exact RelianceNetwork.closed_ofRules _ config
  injOn := by
    rw [reliances_ofRules, RelianceNetwork.ruleCount_ofRules]
    apply hf.injOn.comp (strictMonoOn_origin rules' config).injOn
    intro i hi
    exact lt_of_mem_origins (mem_origins_iff.2 ⟨i, hi, rfl⟩)
  injOn' := by
    rw [reliances_ofRules, RelianceNetwork.ruleCount_ofRules]
    exact (strictMonoOn_origin rules config).injOn
  labels := by
    intro k
    rw [reliances_ofRules, reliances_ofRules, RelianceNetwork.ruleCount_ofRules,
      RelianceNetwork.ruleCount_ofRules, ← mem_origins_iff,
      ← (perm_origins hf hrules config).mem_iff, List.mem_map]
    simp only [mem_origins_iff]
    constructor
    · intro h
      obtain ⟨i, hi, rfl⟩ := h
      exact ⟨_, ⟨i, hi, rfl⟩, rfl⟩
    · intro h
      obtain ⟨_, ⟨i, hi, rfl⟩, rfl⟩ := h
      exact ⟨i, hi, rfl⟩
  edges := by
    have hedges := RelianceNetwork.perm_edgesAmong config (perm_retained hf hrules config)
    rw [← RelianceNetwork.map_relabel_edgesAmong, ← edges_relabel_origin, ← edges_relabel_origin,
      List.map_map] at hedges
    exact hedges

end Order

/-- The order in which the rules are given does not matter. If they are given in another order, and
are known by the places that they have in the first one, then the same of them are applicable and
the same are left out, they have the same reliances, and they are in the same components and in the
same strata, recursive or not as before. -/
theorem ofRules_permuted {rules rules' : List Rule} {f : Nat → Nat}
    (hf : Set.BijOn f (Set.Iio rules'.length) (Set.Iio rules.length))
    (hrules : ∀ i < rules'.length, rules'[i]? = rules[f i]?) (config : Config) :
    let a := ofRules rules config
    let b := ofRules rules' config
    let place := f ∘ b.origin
    (∀ i < rules'.length, b.applicability[i]? = a.applicability[f i]?) ∧
      (b.dropped.map f).Perm a.dropped ∧
      (b.reliances.edges.map (RelianceEdge.relabel place)).Perm
        (a.reliances.edges.map (RelianceEdge.relabel a.origin)) ∧
      (b.components.map (labelSet place)).Perm (a.components.map (labelSet a.origin)) ∧
      (b.strata.map (Stratum.labelled place)).Perm (a.strata.map (Stratum.labelled a.origin)) := by
  intro a b place
  have hagree := agree_reliances hf hrules config
  refine ⟨fun i hi => ?_, perm_dropped hf hrules config, hagree.edges, ?_, ?_⟩
  · rw [applicability_ofRules, applicability_ofRules, Rule.applicability, Rule.applicability,
      List.getElem?_map, List.getElem?_map, hrules i hi]
  · rw [components_ofRules, components_ofRules]
    exact hagree.perm_components
  · rw [strata_ofRules, strata_ofRules, dependencies_ofRules, dependencies_ofRules]
    exact hagree.perm_strata

/-- Ancestors of ancestors are ancestors, and parts of parts are parts. -/
def transitivityRules : List Rule :=
  ["ancestor", "part"].map fun predicate =>
    ⟨[⟨predicate, [.universal "X", .universal "Y"]⟩, ⟨predicate, [.universal "Y", .universal "Z"]⟩],
      [⟨predicate, [.universal "X", .universal "Z"]⟩]⟩

/-- Where the two rules change places, their strata do so too. -/
theorem strata_reverse_transitivityRules :
    let a := ofRules transitivityRules .default
    let b := ofRules transitivityRules.reverse .default
    let place := (fun i => 1 - i) ∘ b.origin
    a.strata.map (Stratum.labelled a.origin) = [({0}, true), ({1}, true)] ∧
      (b.strata.map (Stratum.labelled place)).Perm [({0}, true), ({1}, true)] ∧
      b.strata.map (Stratum.labelled place) = [({1}, true), ({0}, true)] := by
  intro a b place
  have hvalues : a.strata.map (Stratum.labelled a.origin) = [({0}, true), ({1}, true)] ∧
      b.strata.map (Stratum.labelled place) = [({1}, true), ({0}, true)] := by
    decide +kernel
  have hf : Set.BijOn (fun i => 1 - i) (Set.Iio transitivityRules.reverse.length)
      (Set.Iio transitivityRules.length) := by
    show Set.BijOn (fun i => 1 - i) (Set.Iio 2) (Set.Iio 2)
    refine ⟨fun i hi => ?_, fun i hi j hj hij => ?_, fun k hk => ⟨1 - k, ?_, ?_⟩⟩
    all_goals simp only [Set.mem_Iio] at *
    all_goals omega
  have hrules : ∀ i < transitivityRules.reverse.length,
      transitivityRules.reverse[i]? = transitivityRules[1 - i]? := by
    decide
  obtain ⟨-, -, -, -, hstrata⟩ := ofRules_permuted hf hrules .default
  refine ⟨hvalues.1, ?_, hvalues.2⟩
  rw [← hvalues.1]
  exact hstrata

end Analysis

end ExistentialRules
