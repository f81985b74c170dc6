import Mathlib.Data.Finset.Union
import ExistentialRules.Proofs.LinkComponents
import ExistentialRules.Proofs.StrataPartition

/-!
# Graphs with labelled nodes

In a graph the rules are known by numbers, which depend on the order in which the rules were given.
Here they have labels besides. Strata and components, read by labels, are sets of labels, and these
depend on the labels and the relation between them only, not on the numbers.

For the strata this is shown round by round. Which components are ready can be said of their sets of
labels, and so can what is made of them.

## Main definitions

* `labelSet`, `Stratum.labelled`: rules and strata read by labels;
* `DependencyGraph.Labelling`: the relation between labels that a graph stands for;
* `DependencyGraph.IsGroup`, `DependencyGraph.Ready`, `DependencyGraph.mergeFlat`: components,
  readiness and rounds said of labels.

## Main statements

* `DependencyGraph.Labelling.mem_labelled_components`: the components;
* `DependencyGraph.Labelling.isReady_iff`, `DependencyGraph.perm_labelled_round`: one round;
* `DependencyGraph.perm_labelled_rounds`: all rounds;
* `DependencyGraph.perm_labelled_strata`: graphs of the same relation have the same strata;
* `LinkGraph.perm_labelled_components`: graphs of the same links have the same components.
-/

namespace ExistentialRules

open Relation

/-! ## §1 Sets of labels -/

/-- The labels of the given rules. -/
def labelSet (label : Nat → Nat) (rules : List Nat) : Finset Nat :=
  (rules.map label).toFinset

/-- A stratum read by labels: the labels of its rules, and whether it is recursive. -/
def Stratum.labelled (label : Nat → Nat) (s : Stratum) : Finset Nat × Bool :=
  (labelSet label s.rules, s.recursive)

section LabelSet

variable {label : Nat → Nat} {c : List Nat}

@[simp]
theorem mem_labelSet {a : Nat} : a ∈ labelSet label c ↔ ∃ i ∈ c, label i = a := by
  simp [labelSet]

variable {m : Nat} (hlabel : Set.InjOn label (Set.Iio m))

include hlabel

/-- Labels tell the rules apart, so that a rule can be found again by its label. -/
theorem apply_mem_labelSet (hc : ∀ i ∈ c, i < m) {i : Nat} (hi : i < m) :
    label i ∈ labelSet label c ↔ i ∈ c := by
  rw [mem_labelSet]
  refine ⟨fun h => ?_, fun h => ⟨i, h, rfl⟩⟩
  obtain ⟨j, hj, hji⟩ := h
  rwa [← hlabel (hc j hj) hi hji]

/-- An ascending list can be read off its labels. -/
theorem eq_of_labelSet_eq {d : List Nat} (hc : ∀ i ∈ c, i < m) (hd : ∀ i ∈ d, i < m)
    (hstrict : Ascending.Strict c) (hstrict' : Ascending.Strict d)
    (heq : labelSet label c = labelSet label d) : c = d := by
  apply hstrict.ext hstrict'
  intro i
  -- Numbers that are not below the bound are in neither list.
  by_cases hi : i < m
  · rw [← apply_mem_labelSet hlabel hc hi, heq, apply_mem_labelSet hlabel hd hi]
  · exact iff_of_false (fun h => hi (hc i h)) fun h => hi (hd i h)

end LabelSet

namespace DependencyGraph

/-! ## §2 Components -/

/-- The rules of the graph have different labels, and a rule depends on those whose labels its own
label is related to. -/
structure Labelling (g : DependencyGraph) (label : Nat → Nat) (depends : Nat → Nat → Prop) :
    Prop where
  bounded : g.Bounded
  injOn : Set.InjOn label (Set.Iio g.ruleCount)
  depends_iff : ∀ j < g.ruleCount, ∀ a,
    depends (label j) a ↔ ∃ i, i ∈ g.dependenciesOf j ∧ label i = a

/-- The set holds the labels that a label is connected with. It is marked as recursive unless the
label is the only one and not related to itself. -/
structure IsGroup (depends : Nat → Nat → Prop) (a : Nat) (x : Finset Nat × Bool) : Prop where
  mem_iff : ∀ b, b ∈ x.1 ↔ ReflTransGen depends a b ∧ ReflTransGen depends b a
  flat_iff : x.2 = false ↔ x.1 = {a} ∧ ¬ depends a a

/-- A label belongs to one group only. -/
theorem IsGroup.eq {depends : Nat → Nat → Prop} {a : Nat} {x y : Finset Nat × Bool}
    (hx : IsGroup depends a x) (hy : IsGroup depends a y) : x = y := by
  have hset : x.1 = y.1 := by
    ext b
    rw [hx.mem_iff, hy.mem_iff]
  have hmark : x.2 = y.2 := by
    rw [← Bool.not_inj_iff, Bool.eq_iff_iff, Bool.not_eq_true', Bool.not_eq_true', hx.flat_iff,
      hy.flat_iff, hset]
  exact Prod.ext hset hmark

section Labelling

variable {g : DependencyGraph} {label : Nat → Nat} {depends : Nat → Nat → Prop}
  (h : g.Labelling label depends)

include h

theorem Labelling.reaches_iff {i : Nat} (hi : i < g.ruleCount) {b : Nat} :
    ReflTransGen depends (label i) b ↔ ∃ j < g.ruleCount, g.Reaches i j ∧ label j = b :=
  reflTransGen_renumbered_iff (fun j _ k hk => h.bounded j k hk) h.depends_iff hi

theorem Labelling.connected_iff {i : Nat} (hi : i < g.ruleCount) {b : Nat} :
    ReflTransGen depends (label i) b ∧ ReflTransGen depends b (label i) ↔
      ∃ j < g.ruleCount, g.Connected i j ∧ label j = b := by
  constructor
  · intro hconnected
    obtain ⟨j, hj, hij, rfl⟩ := (h.reaches_iff hi).1 hconnected.1
    obtain ⟨k, hk, hjk, hki⟩ := (h.reaches_iff hj).1 hconnected.2
    rw [h.injOn hk hi hki] at hjk
    exact ⟨j, hj, ⟨hij, hjk⟩, rfl⟩
  · intro hconnected
    obtain ⟨j, hj, hij, rfl⟩ := hconnected
    exact ⟨(h.reaches_iff hi).2 ⟨j, hj, hij.1, rfl⟩, (h.reaches_iff hj).2 ⟨i, hi, hij.2, rfl⟩⟩

theorem Labelling.depends_self_iff {i : Nat} (hi : i < g.ruleCount) :
    depends (label i) (label i) ↔ i ∈ g.dependenciesOf i := by
  rw [h.depends_iff i hi]
  refine ⟨fun hself => ?_, fun hself => ⟨i, hself, rfl⟩⟩
  obtain ⟨j, hj, hji⟩ := hself
  rwa [h.injOn (h.bounded i j hj) hi hji] at hj

/-- A component, read by labels, is the group of each of its rules. -/
theorem Labelling.isGroup_componentStratum {c : List Nat} (hc : c ∈ g.stronglyConnected) {i : Nat}
    (hi : i ∈ c) : IsGroup depends (label i) ((g.componentStratum c).labelled label) := by
  obtain ⟨hstrict, hcomponent⟩ := (mem_stronglyConnected h.bounded).1 hc
  have hbelow := hcomponent.lt_ruleCount
  refine ⟨fun b => ?_, ?_⟩
  · rw [h.connected_iff (hbelow i hi)]
    show b ∈ labelSet label c ↔ _
    rw [mem_labelSet]
    apply exists_congr
    intro j
    rw [← and_assoc, ← hcomponent.mem_iff i hi j, and_iff_right_of_imp (hbelow j)]
  -- A component is one rule exactly if it has one label.
  · have hsingle : c = [i] ↔ labelSet label c = {label i} := by
      refine ⟨fun hsingle => by simp [hsingle, labelSet], fun hsingle => ?_⟩
      apply eq_of_labelSet_eq h.injOn hbelow (by simpa using hbelow i hi) hstrict
        (List.pairwise_singleton _ i)
      rw [hsingle]
      rfl
    show (g.componentStratum c).recursive = false ↔ labelSet label c = {label i} ∧ _
    rw [recursive_componentStratum_eq_false_iff, ← hsingle, h.depends_self_iff (hbelow i hi)]
    constructor
    · intro hflat
      obtain ⟨r, rfl, hr⟩ := hflat
      rw [List.mem_singleton.1 hi]
      exact ⟨rfl, hr⟩
    · exact fun hflat => ⟨i, hflat⟩

/-- The components, read by labels, are the groups of the relation. -/
theorem Labelling.mem_labelled_components {x : Finset Nat × Bool} :
    x ∈ (g.stronglyConnected.map g.componentStratum).map (Stratum.labelled label) ↔
      ∃ a, (∃ i < g.ruleCount, label i = a) ∧ IsGroup depends a x := by
  rw [List.map_map, List.mem_map]
  constructor
  · intro hx
    obtain ⟨c, hc, rfl⟩ := hx
    have hcomponent := isComponent_of_mem_stronglyConnected h.bounded hc
    obtain ⟨i, hi⟩ := List.exists_mem_of_ne_nil c hcomponent.nonempty
    exact ⟨label i, ⟨i, hcomponent.lt_ruleCount i hi, rfl⟩, h.isGroup_componentStratum hc hi⟩
  · intro hx
    obtain ⟨_, ⟨i, hi, rfl⟩, hgroup⟩ := hx
    obtain ⟨c, hc, hic⟩ := exists_component_of_lt h.bounded hi
    exact ⟨c, hc, (h.isGroup_componentStratum hc hic).eq hgroup⟩

theorem Labelling.nodup_labelled_components :
    ((g.stronglyConnected.map g.componentStratum).map (Stratum.labelled label)).Nodup := by
  have hnodup : ((g.stronglyConnected.map g.componentStratum).map Stratum.rules).Nodup := by
    apply nodup_map_rules ((perm_components h.bounded).nodup_iff.2 List.nodup_range)
    exact fun s hs => (isComponent_of_mem_components h.bounded hs).nonempty
  apply (hnodup.of_map Stratum.rules).map_on
  intro s hs t ht heq
  obtain ⟨c, hc, rfl⟩ := List.mem_map.1 hs
  obtain ⟨d, hd, rfl⟩ := List.mem_map.1 ht
  apply congrArg g.componentStratum
  have hc' := (mem_stronglyConnected h.bounded).1 hc
  have hd' := (mem_stronglyConnected h.bounded).1 hd
  exact eq_of_labelSet_eq h.injOn hc'.2.lt_ruleCount hd'.2.lt_ruleCount hc'.1 hd'.1
    (congrArg Prod.fst heq)

end Labelling

/-! ## §3 One round -/

/-- The components still there: rules of the graph, with no rule in two of them. -/
structure Tidy (g : DependencyGraph) (pending : List Stratum) : Prop where
  lt_ruleCount : ∀ s ∈ pending, ∀ i ∈ s.rules, i < g.ruleCount
  nonempty : ∀ s ∈ pending, s.rules ≠ []
  nodup : (pending.flatMap Stratum.rules).Nodup

theorem Tidy.filter {g : DependencyGraph} {pending : List Stratum} (h : g.Tidy pending)
    (p : Stratum → Bool) : g.Tidy (pending.filter p) where
  lt_ruleCount := fun s hs => h.lt_ruleCount s (List.mem_of_mem_filter hs)
  nonempty := fun s hs => h.nonempty s (List.mem_of_mem_filter hs)
  nodup := nodup_filter h.nodup p

theorem tidy_components {g : DependencyGraph} (hg : g.Bounded) :
    g.Tidy (g.stronglyConnected.map g.componentStratum) where
  lt_ruleCount := fun _ hs => (isComponent_of_mem_components hg hs).lt_ruleCount
  nonempty := fun _ hs => (isComponent_of_mem_components hg hs).nonempty
  nodup := (perm_components hg).nodup_iff.2 List.nodup_range

/-- A set of labels is related to no label of the others. -/
def Ready (depends : Nat → Nat → Prop) (groups : List (Finset Nat × Bool))
    (x : Finset Nat × Bool) : Prop :=
  ∀ b ∈ x.1, ∀ a, depends b a → ∀ y ∈ groups, a ∈ y.1 → a ∈ x.1

/-- The sets of one round: the union of those that are not recursive, and each recursive one. -/
def mergeFlat (groups : List (Finset Nat × Bool)) : List (Finset Nat × Bool) :=
  let flat := (groups.filter fun x => !x.2).toFinset.biUnion Prod.fst
  (if flat = ∅ then [] else [(flat, false)]) ++ groups.filter fun x => x.2

/-- The order of the groups does not matter for what is made of them in a round. -/
theorem perm_mergeFlat {groups groups' : List (Finset Nat × Bool)} (h : groups.Perm groups') :
    (mergeFlat groups).Perm (mergeFlat groups') := by
  have hflat : (groups.filter fun x => !x.2).toFinset = (groups'.filter fun x => !x.2).toFinset :=
    List.toFinset_eq_of_perm _ _ (h.filter _)
  rw [mergeFlat, mergeFlat, hflat]
  exact (h.filter _).append_left _

/-- Whether a component is ready can be read off the labels. -/
theorem Labelling.isReady_iff {g : DependencyGraph} {label : Nat → Nat}
    {depends : Nat → Nat → Prop} (h : g.Labelling label depends) {pending : List Stratum}
    (hpending : g.Tidy pending) {s : Stratum} (hs : s ∈ pending) :
    g.isReady pending s = true ↔
      Ready depends (pending.map (Stratum.labelled label)) (s.labelled label) := by
  have hbelow := hpending.lt_ruleCount
  rw [DependencyGraph.isReady_iff, Ready]
  constructor
  -- Every label in question comes from a rule, which is known by its label.
  · intro hready b hb a hba y hy hay
    obtain ⟨j, hj, rfl⟩ := mem_labelSet.1 hb
    obtain ⟨i, hi, rfl⟩ := (h.depends_iff j (hbelow s hs j hj) a).1 hba
    obtain ⟨t, ht, rfl⟩ := List.mem_map.1 hy
    have hlt : i < g.ruleCount := h.bounded j i hi
    apply (apply_mem_labelSet h.injOn (hbelow s hs) hlt).2
    exact hready j hj i hi t ht ((apply_mem_labelSet h.injOn (hbelow t ht) hlt).1 hay)
  · intro hready j hj i hi t ht hit
    have hlt : i < g.ruleCount := h.bounded j i hi
    apply (apply_mem_labelSet h.injOn (hbelow s hs) hlt).1
    have hji := (h.depends_iff j (hbelow s hs j hj) (label i)).2 ⟨i, hi, rfl⟩
    apply hready (label j) (mem_labelSet.2 ⟨j, hj, rfl⟩) (label i) hji (t.labelled label)
    · exact List.mem_map_of_mem ht
    · exact mem_labelSet.2 ⟨i, hit, rfl⟩

/-- The labels of the merged stratum are the labels of all the components that go into it. -/
theorem labelSet_flat (label : Nat → Nat) (ready : List Stratum) :
    labelSet label (Ascending.ofList ((ready.filter fun s => !s.recursive).flatMap Stratum.rules)) =
      ((ready.map (Stratum.labelled label)).filter fun x => !x.2).toFinset.biUnion Prod.fst := by
  ext a
  simp only [mem_labelSet, Ascending.mem_ofList, List.mem_flatMap, List.mem_filter,
    Finset.mem_biUnion, List.mem_toFinset, List.mem_map]
  constructor
  · intro ha
    obtain ⟨i, ⟨s, hs, hi⟩, rfl⟩ := ha
    exact ⟨s.labelled label, ⟨⟨s, hs.1, rfl⟩, hs.2⟩, mem_labelSet.2 ⟨i, hi, rfl⟩⟩
  · intro ha
    obtain ⟨_, ⟨⟨s, hs, rfl⟩, hflat⟩, ha⟩ := ha
    obtain ⟨i, hi, rfl⟩ := mem_labelSet.1 ha
    exact ⟨i, ⟨s, ⟨hs, hflat⟩, hi⟩, rfl⟩

/-- What is made of the components in one round can be said of their sets of labels. -/
theorem perm_labelled_round (label : Nat → Nat) {g : DependencyGraph} {ready : List Stratum}
    (hready : g.Tidy ready) :
    ((round ready).map (Stratum.labelled label)).Perm
      (mergeFlat (ready.map (Stratum.labelled label))) := by
  have hrecursive : ((Ascending.ofList ((ready.filter fun s => s.recursive).map Stratum.rules)).map
      fun rules => (labelSet label rules, true)).Perm
        ((ready.map (Stratum.labelled label)).filter fun x => x.2) := by
    have htidy := hready.filter fun s => s.recursive
    apply ((Ascending.perm_ofList (nodup_map_rules htidy.nodup htidy.nonempty)).map _).trans
    rw [List.map_map, List.filter_map]
    apply List.Perm.of_eq
    apply List.map_congr_left
    intro s hs
    exact congrArg (Prod.mk _) (List.mem_filter.1 hs).2.symm
  have hflat := labelSet_flat label ready
  unfold round mergeFlat
  dsimp only
  rw [List.map_append, ← hflat, List.map_map]
  refine List.Perm.append (List.Perm.of_eq ?_) hrecursive
  -- There are labels exactly if there are rules.
  cases Ascending.ofList ((ready.filter fun s => !s.recursive).flatMap Stratum.rules) with
  | nil => rfl
  | cons i rules =>
    have hne : labelSet label (i :: rules) ≠ ∅ :=
      Finset.ne_empty_of_mem (mem_labelSet.2 ⟨i, List.mem_cons_self, rfl⟩)
    rw [if_neg hne]
    rfl

/-! ## §4 All rounds -/

section Rounds

variable {g g' : DependencyGraph} {label label' : Nat → Nat} {depends : Nat → Nat → Prop}
  (h : g.Labelling label depends) (h' : g'.Labelling label' depends)

open Classical in
include h in
/-- To choose components by their readiness is to choose sets of labels. -/
theorem Labelling.map_filter_isReady {pending : List Stratum} (hpending : g.Tidy pending)
    (p : Bool → Bool) :
    (pending.filter fun s => p (g.isReady pending s)).map (Stratum.labelled label) =
      (pending.map (Stratum.labelled label)).filter fun x =>
        p (Ready depends (pending.map (Stratum.labelled label)) x) := by
  rw [List.filter_map]
  congr 1
  apply List.filter_congr
  intro s hs
  congr 1
  rw [Bool.eq_iff_iff, h.isReady_iff hpending hs]
  simp

include h h'

/-- What is ready, and what is not, has the same sets of labels in both graphs. -/
theorem perm_labelled_filter {pending pending' : List Stratum} (hpending : g.Tidy pending)
    (hpending' : g'.Tidy pending')
    (hperm : (pending.map (Stratum.labelled label)).Perm (pending'.map (Stratum.labelled label')))
    (p : Bool → Bool) :
    ((pending.filter fun s => p (g.isReady pending s)).map (Stratum.labelled label)).Perm
      ((pending'.filter fun s => p (g'.isReady pending' s)).map (Stratum.labelled label')) := by
  -- To be ready only depends on which groups there are, not on their order.
  have hready : Ready depends (pending.map (Stratum.labelled label)) =
      Ready depends (pending'.map (Stratum.labelled label')) := by
    funext x
    simp only [Ready, hperm.mem_iff]
  rw [h.map_filter_isReady hpending, h'.map_filter_isReady hpending', hready]
  exact hperm.filter _

/-- By induction on the rounds: what is left of two graphs of the same relation has the same sets of
labels. -/
theorem perm_labelled_rounds (n : Nat) {pending pending' : List Stratum}
    (hpending : g.Tidy pending) (hpending' : g'.Tidy pending')
    (hperm : (pending.map (Stratum.labelled label)).Perm (pending'.map (Stratum.labelled label'))) :
    ((g.rounds n pending).map (Stratum.labelled label)).Perm
      ((g'.rounds n pending').map (Stratum.labelled label')) := by
  induction n generalizing pending pending' with
  | zero => exact List.Perm.nil
  | succ n ih =>
    -- Both what is ready and what is left is chosen by the sets of labels.
    have hready := perm_labelled_filter h h' hpending hpending' hperm id
    have hrest := perm_labelled_filter h h' hpending hpending' hperm not
    rw [rounds, rounds, List.map_append, List.map_append]
    apply List.Perm.append
    · apply (perm_labelled_round label (hpending.filter _)).trans
      apply (perm_mergeFlat hready).trans
      exact (perm_labelled_round label' (hpending'.filter _)).symm
    · exact ih (hpending.filter _) (hpending'.filter _) hrest

variable (hnames : ∀ a, (∃ i < g.ruleCount, label i = a) ↔ ∃ i < g'.ruleCount, label' i = a)

include hnames

/-- Both graphs have the same components, read by labels. -/
theorem perm_labelled_stronglyConnected :
    ((g.stronglyConnected.map g.componentStratum).map (Stratum.labelled label)).Perm
      ((g'.stronglyConnected.map g'.componentStratum).map (Stratum.labelled label')) := by
  apply (List.perm_ext_iff_of_nodup h.nodup_labelled_components h'.nodup_labelled_components).2
  intro x
  rw [h.mem_labelled_components, h'.mem_labelled_components]
  simp only [hnames]

/-- Graphs of the same relation have the same strata. -/
theorem perm_labelled_strata :
    (g.strata.map (Stratum.labelled label)).Perm (g'.strata.map (Stratum.labelled label')) := by
  have hcomponents := perm_labelled_stronglyConnected h h' hnames
  -- There are as many rounds for the one graph as for the other.
  have hlength : (g.stronglyConnected.map g.componentStratum).length =
      (g'.stronglyConnected.map g'.componentStratum).length := by
    have hlabelled := hcomponents.length_eq
    rwa [List.length_map, List.length_map (Stratum.labelled label')] at hlabelled
  rw [strata, strata, hlength]
  exact perm_labelled_rounds h h' _ (tidy_components h.bounded) (tidy_components h'.bounded)
    hcomponents

end Rounds

end DependencyGraph

/-! ## §5 Connected components -/

namespace LinkGraph

/-- The nodes are the numbers below a bound. They have different labels, and a node is linked to
those whose labels its own label is related to. -/
structure Labelling (g : LinkGraph Nat) (m : Nat) (label : Nat → Nat) (linked : Nat → Nat → Prop) :
    Prop where
  symmetric : g.Symmetric
  mem_nodes : ∀ i, i ∈ g.nodes ↔ i < m
  injOn : Set.InjOn label (Set.Iio m)
  linked_iff : ∀ i < m, ∀ b, linked (label i) b ↔ ∃ j, j ∈ g.neighbours i ∧ label j = b

section Labelling

variable {g : LinkGraph Nat} {m : Nat} {label : Nat → Nat} {linked : Nat → Nat → Prop}
  (h : g.Labelling m label linked)

include h

theorem Labelling.connected_iff {i : Nat} (hi : i < m) {b : Nat} :
    ReflTransGen linked (label i) b ↔ ∃ j < m, g.Connected i j ∧ label j = b := by
  refine reflTransGen_renumbered_iff (fun i _ j hij => ?_) h.linked_iff hi
  exact (h.mem_nodes j).1 (mem_nodes_of_mem_neighbours (h.symmetric.symm i j hij))

/-- The components, read by labels, are the classes of the relation. -/
theorem Labelling.mem_labelled_components {x : Finset Nat} :
    x ∈ g.components.map (labelSet label) ↔
      ∃ a, (∃ i < m, label i = a) ∧ ∀ b, b ∈ x ↔ ReflTransGen linked a b := by
  -- A list of the nodes that a node is connected with has the labels of the class.
  have hclass : ∀ i < m, ∀ c : List Nat, (∀ j, j ∈ c ↔ g.Connected i j) →
      ∀ b, b ∈ labelSet label c ↔ ReflTransGen linked (label i) b := by
    intro i hi c hc b
    rw [h.connected_iff hi, mem_labelSet]
    apply exists_congr
    intro j
    have hbelow : g.Connected i j → j < m := fun hij =>
      (h.mem_nodes j).1 (hij.mem_nodes h.symmetric ((h.mem_nodes i).2 hi))
    rw [← and_assoc, hc, and_iff_right_of_imp hbelow]
  rw [List.mem_map]
  constructor
  · intro hx
    obtain ⟨c, hc, rfl⟩ := hx
    obtain ⟨-, i, hi, hmem⟩ := (mem_components h.symmetric).1 hc
    have hi' := (h.mem_nodes i).1 hi
    exact ⟨label i, ⟨i, hi', rfl⟩, hclass i hi' c hmem⟩
  · intro hx
    obtain ⟨_, ⟨i, hi, rfl⟩, hmem⟩ := hx
    have hnode := (h.mem_nodes i).2 hi
    have hreachable : ∀ j, j ∈ Ascending.insert i (g.reachable i) ↔ g.Connected i j :=
      fun j => mem_insert_reachable h.symmetric
    refine ⟨Ascending.insert i (g.reachable i), ?_, ?_⟩
    · rw [mem_components h.symmetric]
      exact ⟨Ascending.strict_insert i (Ascending.strict_ofList _), i, hnode, hreachable⟩
    · ext b
      rw [hclass i hi _ hreachable, hmem]

theorem Labelling.nodup_labelled_components : (g.components.map (labelSet label)).Nodup := by
  apply (strict_components h.symmetric).nodup.map_on
  have hbelow : ∀ c ∈ g.components, ∀ i ∈ c, i < m :=
    fun c hc i => lt_of_mem_components h.symmetric h.mem_nodes hc
  intro c hc d hd
  exact eq_of_labelSet_eq h.injOn (hbelow c hc) (hbelow d hd)
    ((mem_components h.symmetric).1 hc).1 ((mem_components h.symmetric).1 hd).1

end Labelling

/-- Graphs of the same links have the same components. -/
theorem perm_labelled_components {g g' : LinkGraph Nat} {m m' : Nat} {label label' : Nat → Nat}
    {linked : Nat → Nat → Prop} (h : g.Labelling m label linked)
    (h' : g'.Labelling m' label' linked)
    (hnames : ∀ a, (∃ i < m, label i = a) ↔ ∃ i < m', label' i = a) :
    (g.components.map (labelSet label)).Perm (g'.components.map (labelSet label')) := by
  -- Neither list has repetitions, so it is enough to compare their members.
  apply (List.perm_ext_iff_of_nodup h.nodup_labelled_components h'.nodup_labelled_components).2
  intro x
  rw [h.mem_labelled_components, h'.mem_labelled_components]
  simp only [hnames]

end LinkGraph

end ExistentialRules
