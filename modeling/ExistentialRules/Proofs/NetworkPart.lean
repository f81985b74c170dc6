import ExistentialRules.Proofs.LinkHistory
import ExistentialRules.Proofs.StrataPart
import ExistentialRules.Proofs.StrataReliance

/-!
# Parts of a reliance network

The reliances between some of the rules of a list are those that the same rules have in the list.
Where no reliance leads into such a part, the dependencies of its rules are all in the part; where
none leads out of it either, no component of the list is divided.

## Main definitions

* `RelianceNetwork.Linked`: reliance in either direction and of either polarity;
* `RelianceNetwork.Embeds`: the reliances between some of the rules.

## Main statements

* `Analysis.mem_neighbours_linkGraph`, `Analysis.mem_nodes_linkGraph`: the graph whose components
  are those of the analysis;
* `RelianceNetwork.embeds_ofRules`: the reliances of a list of some of the rules;
* `RelianceNetwork.Embeds.dependencies`, `RelianceNetwork.Embeds.restrict_components`: dependencies
  and components of a part.
-/

namespace ExistentialRules

/-! ## §1 Networks -/

namespace RelianceNetwork

/-- The reliances are between rules of the network. -/
def Closed (N : RelianceNetwork) : Prop :=
  ∀ e ∈ N.edges, e.source < N.ruleCount ∧ e.target < N.ruleCount

/-- One of the rules relies on the other, in whatever way. -/
def Linked (N : RelianceNetwork) (i j : Nat) : Prop :=
  ∃ e ∈ N.edges, i = e.source ∧ j = e.target ∨ i = e.target ∧ j = e.source

theorem closed_ofRules (rules : List Rule) (config : Config) : (ofRules rules config).Closed := by
  intro e he
  obtain ⟨r₁, r₂, hr₁, hr₂, -⟩ := mem_edges_ofRules_iff.1 he
  rw [ruleCount_ofRules]
  exact ⟨(List.getElem?_eq_some_iff.1 hr₁).1, (List.getElem?_eq_some_iff.1 hr₂).1⟩

/-- Positive reliances are among the reliances, so that they stay within the network, too. -/
theorem Closed.bounded {N : RelianceNetwork} (hN : N.Closed) : N.Bounded :=
  fun _ _ hij => hN _ hij

theorem Linked.lt_ruleCount {N : RelianceNetwork} (hN : N.Closed) {i j : Nat} (h : N.Linked i j) :
    i < N.ruleCount ∧ j < N.ruleCount := by
  -- The reliance leads from the one to the other, or back.
  obtain ⟨e, he, ⟨rfl, rfl⟩ | ⟨rfl, rfl⟩⟩ := h
  · exact hN e he
  · exact (hN e he).symm

end RelianceNetwork

/-! ## §2 The graph of links -/

namespace Analysis

open LinkGraph

variable (N : RelianceNetwork)

/-- How the graph is built: every rule is added as a node, and every reliance as a link. -/
def linkChanges : List (Change Nat) :=
  (List.range N.ruleCount).map .node ++ N.edges.map fun e => .link e.source e.target

theorem linkGraph_eq_ofChanges : linkGraph N = ofChanges (linkChanges N) := by
  rw [ofChanges, linkChanges, List.foldl_append, List.foldl_map, List.foldl_map]
  rfl

theorem symmetric_linkGraph : (linkGraph N).Symmetric := by
  rw [linkGraph_eq_ofChanges]
  exact symmetric_ofChanges _

variable {N}

theorem links_linkChanges {i j : Nat} : Links (linkChanges N) i j ↔ N.Linked i j := by
  simp only [Links, linkChanges, RelianceNetwork.Linked, and_or_left, exists_or]
  simp [eq_comm, and_comm]

theorem mem_neighbours_linkGraph {i j : Nat} :
    j ∈ (linkGraph N).neighbours i ↔ N.Linked i j := by
  rw [linkGraph_eq_ofChanges, mem_neighbours_ofChanges, links_linkChanges]

/-- The nodes are the numbers of the rules. -/
theorem mem_nodes_linkGraph (hN : N.Closed) {i : Nat} :
    i ∈ (linkGraph N).nodes ↔ i < N.ruleCount := by
  simp only [linkGraph_eq_ofChanges, mem_nodes_ofChanges, Registers, links_linkChanges]
  have hnode : .node i ∈ linkChanges N ↔ i < N.ruleCount := by simp [linkChanges]
  rw [hnode, or_iff_left_of_imp]
  -- The links are between rules of the network, which are nodes already.
  intro h
  obtain ⟨j, hij⟩ := h
  exact (hij.lt_ruleCount hN).1

end Analysis

/-! ## §3 Parts -/

namespace RelianceNetwork

/-- The rules of the first network, renumbered, are rules of the second one. They keep their order
and have the same reliances on each other. -/
structure Embeds (f : Nat → Nat) (N' N : RelianceNetwork) : Prop where
  closed' : N'.Closed
  closed : N.Closed
  strictMono : StrictMonoOn f (Set.Iio N'.ruleCount)
  lt_ruleCount : ∀ i < N'.ruleCount, f i < N.ruleCount
  mem_edges : ∀ i < N'.ruleCount, ∀ j < N'.ruleCount, ∀ polarity,
    (⟨f i, f j, polarity⟩ : RelianceEdge) ∈ N.edges ↔ (⟨i, j, polarity⟩ : RelianceEdge) ∈ N'.edges

/-- The reliances between some of the rules are found again when these rules are listed alone, in
the same order, since every pair is decided on its own. -/
theorem embeds_ofRules {rules rules' : List Rule} {config config' : Config} {f : Nat → Nat}
    (hf : StrictMonoOn f (Set.Iio rules'.length))
    (hrules : ∀ i r, rules'[i]? = some r → rules[f i]? = some r)
    (hrelies : ∀ r₁ r₂ : Rule, r₁.relies r₂ config' = r₁.relies r₂ config) :
    Embeds f (ofRules rules' config') (ofRules rules config) where
  closed' := closed_ofRules rules' config'
  closed := closed_ofRules rules config
  strictMono := by rwa [ruleCount_ofRules]
  lt_ruleCount := by
    rw [ruleCount_ofRules, ruleCount_ofRules]
    intro i hi
    exact (List.getElem?_eq_some_iff.1 (hrules i _ (List.getElem?_eq_getElem hi))).1
  mem_edges := by
    rw [ruleCount_ofRules]
    intro i hi j hj polarity
    have hi' := List.getElem?_eq_getElem hi
    have hj' := List.getElem?_eq_getElem hj
    -- Whether there is a reliance depends on the two rules only, and these are the same.
    rw [mem_edges_ofRules_iff, mem_edges_ofRules_iff]
    simp only [hi', hj', hrules i _ hi', hrules j _ hj', hrelies]

section Embeds

variable {f : Nat → Nat} {N' N : RelianceNetwork} (h : Embeds f N' N)

include h

/-- If the part contains all that its rules rely on positively, then it contains what they depend
on. -/
theorem Embeds.dependencies
    (hclosed : ∀ a, ∀ j < N'.ruleCount, N.Positive a (f j) → ∃ i < N'.ruleCount, f i = a) :
    DependencyGraph.Embeds f (.ofReliances N') (.ofReliances N) where
  bounded' := DependencyGraph.bounded_ofReliances h.closed'.bounded
  bounded := DependencyGraph.bounded_ofReliances h.closed.bounded
  strictMono := by
    rw [DependencyGraph.ruleCount_ofReliances]
    exact h.strictMono
  lt_ruleCount := by
    rw [DependencyGraph.ruleCount_ofReliances, DependencyGraph.ruleCount_ofReliances]
    exact h.lt_ruleCount
  dependencies := by
    rw [DependencyGraph.ruleCount_ofReliances]
    intro j hj a
    simp only [DependencyGraph.mem_dependenciesOf_iff_positive h.closed.bounded,
      DependencyGraph.mem_dependenciesOf_iff_positive h.closed'.bounded]
    refine ⟨fun ha => ?_, fun ha => ?_⟩
    -- What a rule of the part depends on is in the part, by assumption.
    · obtain ⟨i, hi, rfl⟩ := hclosed a j hj ha
      exact ⟨i, (h.mem_edges i hi j hj .positive).1 ha, rfl⟩
    · obtain ⟨i, hij, rfl⟩ := ha
      exact (h.mem_edges i (h.closed' _ hij).1 j hj .positive).2 hij

/-- Links are kept, since reliances of both polarities are. -/
theorem Embeds.linked_iff {i j : Nat} (hi : i < N'.ruleCount) (hj : j < N'.ruleCount) :
    N.Linked (f i) (f j) ↔ N'.Linked i j := by
  -- In both directions, the link comes from a reliance of some polarity, which is kept.
  refine ⟨fun hlinked => ?_, fun hlinked => ?_⟩
  · obtain ⟨⟨_, _, polarity⟩, he, ⟨rfl, rfl⟩ | ⟨rfl, rfl⟩⟩ := hlinked
    · exact ⟨_, (h.mem_edges i hi j hj polarity).1 he, Or.inl ⟨rfl, rfl⟩⟩
    · exact ⟨_, (h.mem_edges j hj i hi polarity).1 he, Or.inr ⟨rfl, rfl⟩⟩
  · obtain ⟨⟨_, _, polarity⟩, he, ⟨rfl, rfl⟩ | ⟨rfl, rfl⟩⟩ := hlinked
    · exact ⟨_, (h.mem_edges i hi j hj polarity).2 he, Or.inl ⟨rfl, rfl⟩⟩
    · exact ⟨_, (h.mem_edges j hj i hi polarity).2 he, Or.inr ⟨rfl, rfl⟩⟩

/-- If no reliance leads out of the part or into it, then its components are those of the network
without the other rules. -/
theorem Embeds.restrict_components
    (hclosed : ∀ i < N'.ruleCount, ∀ a, N.Linked (f i) a → ∃ j < N'.ruleCount, f j = a)
    {p : Nat → Bool} (hp : ∀ a < N.ruleCount, p a = true ↔ ∃ i < N'.ruleCount, f i = a) :
    Ascending.restrict p (Analysis.linkGraph N).components =
      (Analysis.linkGraph N').components.map (List.map f) := by
  have hnodes : ∀ i, i ∈ (Analysis.linkGraph N).nodes ↔ i < N.ruleCount :=
    fun i => Analysis.mem_nodes_linkGraph h.closed
  apply LinkGraph.restrict_components (Analysis.symmetric_linkGraph N)
    (Analysis.symmetric_linkGraph N') h.strictMono
  · exact fun i => Analysis.mem_nodes_linkGraph h.closed'
  · exact fun i hi => (hnodes _).2 (h.lt_ruleCount i hi)
  -- A link from a rule of the part leads to a rule of the part, with the same link there.
  · intro i hi a
    simp only [Analysis.mem_neighbours_linkGraph]
    refine ⟨fun hlinked => ?_, fun hlinked => ?_⟩
    · obtain ⟨j, hj, rfl⟩ := hclosed i hi a hlinked
      exact ⟨j, (h.linked_iff hi hj).1 hlinked, rfl⟩
    · obtain ⟨j, hij, rfl⟩ := hlinked
      exact (h.linked_iff hi (hij.lt_ruleCount h.closed').2).2 hij
  · exact fun a ha => hp a ((hnodes a).1 ha)

end Embeds

end RelianceNetwork

end ExistentialRules
