import Mathlib.Data.List.ProdSigma
import ExistentialRules.Proofs.Origin
import ExistentialRules.Proofs.StronglyConnected

/-!
# Reliances and dependencies, collected one by one

The reliances of a list of rules are listed pair by pair, and the dependencies of a rule are read
off this list. Both can also be collected into sets that are kept in ascending order, one element at
a time.

The pairs of rules may be decided side by side. About this it is assumed that every pair is decided
as it is when it stands alone, and that what is found for the pairs is collected in some order of
the pairs. Then it does not matter which order this is.

## Main definitions

* `RelianceNetwork.Collects`: the reliances collected pair by pair, in turn or side by side;
* `DependencyGraph.fillRows`: sets of numbers that are filled in turn.

## Main statements

* `RelianceNetwork.strict_edges_ofRules`: reliances are listed in ascending order;
* `RelianceNetwork.collects_iff`: the same reliances are collected in every order of the pairs;
* `DependencyGraph.fillRows_eq_map`: what sets are filled with;
* `DependencyGraph.fillRows_reliances`, `DependencyGraph.fillRows_dependents`: dependencies and
  dependents.
-/

namespace ExistentialRules

open Std

/-! ## §1 Reliances -/

/-- A positive reliance comes before a negative one. -/
def Polarity.rank : Polarity → Nat
  | .positive => 0
  | .negative => 1

/-- The rank tells the polarities apart. -/
theorem Polarity.rank_injective : Function.Injective Polarity.rank := by
  intro p q h
  cases p with
  | positive =>
    cases q with
    | positive => rfl
    | negative => cases h
  | negative =>
    cases q with
    | positive => cases h
    | negative => rfl

namespace RelianceEdge

/-- Reliances go by their source, then by their target and then by their polarity. -/
instance : Ord RelianceEdge :=
  ⟨compareLex (compareOn source)
    (compareLex (compareOn target) (compareOn fun e => e.polarity.rank))⟩

instance : TransOrd RelianceEdge :=
  inferInstanceAs (TransCmp (compareLex (compareOn source)
    (compareLex (compareOn target) (compareOn fun e => e.polarity.rank))))

theorem compare_eq_then (e f : RelianceEdge) :
    compare e f = (compare e.source f.source).then
      ((compare e.target f.target).then (compare e.polarity.rank f.polarity.rank)) :=
  rfl

theorem compare_eq_lt_iff {e f : RelianceEdge} :
    compare e f = .lt ↔ e.source < f.source ∨ e.source = f.source ∧
      (e.target < f.target ∨ e.target = f.target ∧ e.polarity.rank < f.polarity.rank) := by
  simp only [compare_eq_then, Ordering.then_eq_lt, Nat.compare_eq_lt, Nat.compare_eq_eq]

instance : LawfulEqOrd RelianceEdge where
  eq_of_compare {e f} h := by
    simp only [compare_eq_then, Ordering.then_eq_eq, Nat.compare_eq_eq] at h
    obtain ⟨hsource, htarget, hrank⟩ := h
    cases e
    cases f
    exact RelianceEdge.mk.injEq .. ▸ ⟨hsource, htarget, Polarity.rank_injective hrank⟩

end RelianceEdge

namespace RelianceNetwork

variable {config : Config}

/-- Where the numbers ascend, the reliances do: by the source, for one source by the target, and for
one pair by the polarity. -/
theorem strict_edgesAmong {xs : List (Nat × Rule)} (hxs : xs.Pairwise fun x y => x.1 < y.1) :
    Ascending.Strict (edgesAmong config xs) := by
  have hpair : ∀ x y, Ascending.Strict (edgesOf config x y) := by
    intro x y
    have hpolarities : [Polarity.positive, Polarity.negative].Pairwise
        fun p q => p.rank < q.rank := by decide
    refine List.pairwise_map.2 ((hpolarities.filter _).imp fun hrank => ?_)
    exact RelianceEdge.compare_eq_lt_iff.2 (Or.inr ⟨rfl, Or.inr ⟨rfl, hrank⟩⟩)
  -- All reliances of a pair have the numbers of the pair.
  have hends : ∀ x y, ∀ e ∈ edgesOf config x y, e.source = x.1 ∧ e.target = y.1 := by
    intro x y e he
    obtain ⟨polarity, -, rfl⟩ := List.mem_map.1 he
    exact ⟨rfl, rfl⟩
  refine List.pairwise_flatMap.2 ⟨fun x _ => List.pairwise_flatMap.2 ⟨fun y _ => hpair x y, ?_⟩, ?_⟩
  · refine hxs.imp fun {y z} hyz e he f hf => ?_
    obtain ⟨hsource, htarget⟩ := hends x y e he
    obtain ⟨hsource', htarget'⟩ := hends x z f hf
    rw [RelianceEdge.compare_eq_lt_iff, hsource, hsource', htarget, htarget']
    exact Or.inr ⟨rfl, Or.inl hyz⟩
  · refine hxs.imp fun {x y} hxy e he f hf => ?_
    obtain ⟨z, -, he⟩ := List.mem_flatMap.1 he
    obtain ⟨z', -, hf⟩ := List.mem_flatMap.1 hf
    rw [RelianceEdge.compare_eq_lt_iff, (hends x z e he).1, (hends y z' f hf).1]
    exact Or.inl hxy

/-- The reliances of a list of rules are listed in ascending order. -/
theorem strict_edges_ofRules (rules : List Rule) (config : Config) :
    Ascending.Strict (ofRules rules config).edges := by
  rw [edges_ofRules_eq_edgesAmong]
  apply strict_edgesAmong
  rw [← List.pairwise_map (f := Prod.fst), Rule.map_fst_numbered]
  exact List.pairwise_lt_range

/-- The reliances of the rules are collected pair by pair. If the pairs may be decided side by side,
then they are decided in some order, otherwise the source goes outermost. -/
def Collects (rules : List Rule) (config : Config) (edges : List RelianceEdge) : Prop :=
  ∃ pairs : List ((Nat × Rule) × (Nat × Rule)),
    (if config.parallel then
      pairs.Perm (Rule.numbered rules ×ˢ Rule.numbered rules)
    else
      pairs = Rule.numbered rules ×ˢ Rule.numbered rules) ∧
    edges = Ascending.ofList (pairs.flatMap fun pair => edgesOf config pair.1 pair.2)

/-- In whatever order the pairs are decided, the reliances of the network are collected. -/
theorem ofList_flatMap_edgesOf (rules : List Rule) {pairs : List ((Nat × Rule) × (Nat × Rule))}
    (hpairs : pairs.Perm (Rule.numbered rules ×ˢ Rule.numbered rules)) :
    Ascending.ofList (pairs.flatMap fun pair => edgesOf config pair.1 pair.2) =
      (ofRules rules config).edges := by
  refine Ascending.Strict.ext (Ascending.strict_ofList _) (strict_edges_ofRules rules config)
    fun e => ?_
  rw [Ascending.mem_ofList, edges_ofRules_eq_edgesAmong, edgesAmong]
  simp only [List.mem_flatMap, hpairs.mem_iff]
  constructor
  · intro h
    obtain ⟨⟨x, y⟩, hpair, he⟩ := h
    obtain ⟨hx, hy⟩ := List.pair_mem_product.1 hpair
    exact ⟨x, hx, y, hy, he⟩
  · intro h
    obtain ⟨x, hx, y, hy, he⟩ := h
    exact ⟨(x, y), List.pair_mem_product.2 ⟨hx, hy⟩, he⟩

/-- Whether pairs may be decided side by side or not, and whatever the order is then, the reliances
collected are those of the network, and there is a way to collect them. -/
theorem collects_iff (rules : List Rule) (config : Config) (edges : List RelianceEdge) :
    Collects rules config edges ↔ edges = (ofRules rules config).edges := by
  constructor
  · intro hcollects
    obtain ⟨pairs, hpairs, rfl⟩ := hcollects
    apply ofList_flatMap_edgesOf
    -- One after the other is one of the orders in which pairs may be decided side by side.
    split at hpairs
    · exact hpairs
    · exact hpairs ▸ .refl _
  · intro hedges
    refine ⟨_, ?_, hedges.trans (ofList_flatMap_edgesOf rules (.refl _)).symm⟩
    split
    · exact .refl _
    · rfl

end RelianceNetwork

/-! ## §2 Rows of numbers -/

namespace DependencyGraph

/-- Empty rows, filled with the entries in turn: the second number of an entry goes into the row
with the first number. -/
def fillRows (count : Nat) (entries : List (Nat × Nat)) : List (List Nat) :=
  entries.foldl (fun rows entry => rows.modify entry.1 (Ascending.insert entry.2))
    (List.replicate count [])

theorem fillRows_append_singleton (count : Nat) (entries : List (Nat × Nat)) (i a : Nat) :
    fillRows count (entries ++ [(i, a)]) =
      (fillRows count entries).modify i (Ascending.insert a) := by
  simp [fillRows]

/-- There are as many rows as asked for, also if an entry goes into none of them. -/
@[simp]
theorem length_fillRows (count : Nat) (entries : List (Nat × Nat)) :
    (fillRows count entries).length = count := by
  induction entries using List.reverseRecOn with
  | nil => simp [fillRows]
  | append_singleton entries entry ih => rw [fillRows_append_singleton, List.length_modify, ih]

/-- Every row is an ascending list of the numbers that the entries put there. -/
theorem fillRows_spec (count : Nat) (entries : List (Nat × Nat)) {i : Nat} {row : List Nat}
    (hrow : (fillRows count entries)[i]? = some row) :
    Ascending.Strict row ∧ ∀ a, a ∈ row ↔ (i, a) ∈ entries := by
  -- By induction on the entries, the last one at the end.
  induction entries using List.reverseRecOn generalizing row with
  | nil =>
    have hempty : row = [] := List.eq_of_mem_replicate (List.mem_of_getElem? hrow)
    subst hempty
    exact ⟨List.Pairwise.nil, by simp⟩
  | append_singleton entries entry ih =>
    obtain ⟨j, b⟩ := entry
    rw [fillRows_append_singleton, List.getElem?_modify] at hrow
    obtain ⟨old, hold, rfl⟩ := Option.map_eq_some_iff.1 hrow
    obtain ⟨hstrict, hmem⟩ := ih hold
    -- The last entry goes into this row or into another one.
    by_cases hij : j = i
    · subst hij
      simp only [if_true, List.mem_append, List.mem_singleton, Ascending.mem_insert, hmem,
        Prod.mk.injEq, true_and]
      exact ⟨Ascending.strict_insert b hstrict, fun a => or_comm⟩
    · simp only [hij, if_false, List.mem_append, List.mem_singleton, Prod.mk.injEq, hmem]
      refine ⟨hstrict, fun a => ?_⟩
      simp [Ne.symm hij]

/-- Rows are determined by what they are filled with. -/
theorem fillRows_eq_map {count : Nat} {entries : List (Nat × Nat)} {f : Nat → List Nat}
    (hstrict : ∀ i < count, Ascending.Strict (f i))
    (hmem : ∀ i < count, ∀ a, a ∈ f i ↔ (i, a) ∈ entries) :
    fillRows count entries = (List.range count).map f := by
  apply List.ext_getElem (by simp)
  intro i hi _
  rw [length_fillRows] at hi
  obtain ⟨hfilled, hentries⟩ := fillRows_spec count entries
    (List.getElem?_eq_getElem (by simpa using hi) : (fillRows count entries)[i]? = _)
  rw [List.getElem_map, List.getElem_range]
  exact hfilled.ext (hstrict i hi) fun a => (hentries a).trans (hmem i hi a).symm

/-! ## §3 Dependencies -/

/-- The dependencies are collected from the positive reliances in turn: each puts its source into
the row of its target. -/
theorem fillRows_reliances {N : RelianceNetwork} (hN : Ascending.Strict N.edges) :
    fillRows N.ruleCount ((N.ofPolarity .positive).map fun e => (e.target, e.source)) =
      (ofReliances N).dependencies := by
  refine fillRows_eq_map (fun i _ => ?_) fun i _ a => ?_
  · have hpositive : (N.ofPolarity .positive).Pairwise fun e f => compare e f = .lt := hN.filter _
    refine List.pairwise_map.2 ((hpositive.filter _).imp_of_mem fun {e f} he hf hlt => ?_)
    -- Of two positive reliances with one target, the one listed first has the smaller source.
    simp only [RelianceNetwork.ofPolarity, List.mem_filter, decide_eq_true_eq] at he hf
    rw [RelianceEdge.compare_eq_lt_iff, he.2, hf.2, he.1.2, hf.1.2] at hlt
    rw [Nat.compare_eq_lt]
    simpa using hlt
  · simp only [List.mem_map, List.mem_filter, decide_eq_true_eq, Prod.mk.injEq]
    constructor
    · intro h
      obtain ⟨e, ⟨he, htarget⟩, hsource⟩ := h
      exact ⟨e, he, htarget, hsource⟩
    · intro h
      obtain ⟨e, he, htarget, hsource⟩ := h
      exact ⟨e, ⟨he, htarget⟩, hsource⟩

/-- The dependents of the rules are collected from the dependencies in turn: each rule is put into
the rows of those on which it depends. -/
theorem fillRows_dependents (g : DependencyGraph) :
    fillRows g.ruleCount (g.dependencies.zipIdx.flatMap fun (dependencies, rule) =>
      dependencies.map fun dependency => (dependency, rule)) =
        (List.range g.ruleCount).map g.dependentsOf := by
  refine fillRows_eq_map (fun i _ => (Ascending.strict_range _).filter _) fun i _ a => ?_
  -- The numbers along the list of dependencies are the numbers of the rules.
  rw [mem_dependentsOf, dependenciesOf, dependenciesOf?]
  simp only [List.mem_flatMap, List.mem_map]
  constructor
  · intro h
    cases hrow : g.dependencies[a]? with
    | none => simp [hrow] at h
    | some row =>
      rw [hrow, Option.getD_some] at h
      exact ⟨(row, a), List.mem_zipIdx_iff_getElem?.2 hrow, i, h, rfl⟩
  · intro h
    obtain ⟨⟨row, rule⟩, hrow, dependency, hmem, heq⟩ := h
    cases heq
    rw [List.mem_zipIdx_iff_getElem?.1 hrow, Option.getD_some]
    exact hmem

end DependencyGraph

end ExistentialRules
