import Mathlib.Data.Finset.Lattice.Fold
import Mathlib.Order.Lattice.Nat
import ExistentialRules.Proofs.StrataPartition

/-!
# The levels of the strata

A component that depends on no other has level 0. Any other component has a level one higher than
the highest level of the components that it depends on. The strata come level by level: first the
rules of the level that are components by themselves and do not depend on themselves, all in one
stratum, then the other components of the level, by their smallest rules.

Neither the order in which the walks find the components nor what is left over in a round has a part
in this. A component of level `l` waits for the components of all lower levels and for nothing else,
so it is taken in round `l`.

## Main definitions

* `DependencyGraph.level`: the level of the component of a rule;
* `DependencyGraph.layer`: the strata of one level.

## Main statements

* `DependencyGraph.level_lt_of_mem_outside`, `DependencyGraph.exists_level_succ`: a level and the
  levels below it;
* `DependencyGraph.isReady_pendingFrom`, `DependencyGraph.round_readyAt`: one round takes one level;
* `DependencyGraph.rounds_pendingFrom`: the rounds take level after level;
* `DependencyGraph.strata_eq_flatMap_layer`: the strata.
-/

namespace ExistentialRules

namespace DependencyGraph

variable {g : DependencyGraph} {i j d l : Nat}

/-! ## §1 Dependence on other components -/

/-- The component of the first rule depends on the second rule, which is in another component. -/
def DependsOutside (g : DependencyGraph) (i d : Nat) : Prop :=
  ∃ j, g.Connected i j ∧ d ∈ g.dependenciesOf j ∧ ¬ g.Connected i d

open Classical in
/-- The rules of other components that the component of a rule depends on. -/
noncomputable def outside (g : DependencyGraph) (i : Nat) : Finset Nat :=
  (Finset.range g.ruleCount).filter (g.DependsOutside i)

open Classical in
/-- The rules that a rule depends on through other rules, itself included. -/
noncomputable def reached (g : DependencyGraph) (i : Nat) : Finset Nat :=
  (Finset.range g.ruleCount).filter (g.Reaches i)

theorem mem_outside : d ∈ g.outside i ↔ d < g.ruleCount ∧ g.DependsOutside i d := by
  simp [outside]

theorem mem_reached : d ∈ g.reached i ↔ d < g.ruleCount ∧ g.Reaches i d := by
  simp [reached]

/-- Fewer rules can be reached from a rule outside than from the component itself. -/
theorem card_reached_lt (hd : d ∈ g.outside i) : (g.reached d).card < (g.reached i).card := by
  obtain ⟨-, j, hij, hdepends, hnot⟩ := mem_outside.1 hd
  have hid : g.Reaches i d := hij.1.tail hdepends
  apply Finset.card_lt_card
  refine Finset.ssubset_iff_of_subset (fun k hk => ?_) |>.2 ⟨j, ?_, fun hj => hnot ?_⟩
  · rw [mem_reached] at hk ⊢
    exact ⟨hk.1, hid.trans hk.2⟩
  · exact mem_reached.2 ⟨lt_ruleCount_of_mem hdepends, hij.1⟩
  -- A way back to the component would put the rule outside into it.
  · exact ⟨hid, (mem_reached.1 hj).2.trans hij.2⟩

/-! ## §2 Levels -/

/-- The level of the component of a rule: 0 if the component depends on no other, else one more than
the highest level of a component that it depends on. -/
noncomputable def level (g : DependencyGraph) (i : Nat) : Nat :=
  (g.outside i).attach.sup fun d => g.level d + 1
termination_by (g.reached i).card
decreasing_by exact card_reached_lt d.property

theorem level_eq_sup (g : DependencyGraph) (i : Nat) :
    g.level i = (g.outside i).sup fun d => g.level d + 1 := by
  rw [level]
  exact Finset.sup_attach (g.outside i) fun d => g.level d + 1

theorem level_lt_of_mem_outside (hd : d ∈ g.outside i) : g.level d < g.level i := by
  rw [level_eq_sup g i]
  exact Finset.le_sup (f := fun d => g.level d + 1) hd

/-- Above level 0, some component that it depends on is one level below. -/
theorem exists_level_succ (hi : 0 < g.level i) : ∃ d ∈ g.outside i, g.level i = g.level d + 1 := by
  rw [level_eq_sup g i] at hi ⊢
  have hnonempty : (g.outside i).Nonempty := by
    by_contra hempty
    simp [Finset.not_nonempty_iff_eq_empty.1 hempty] at hi
  exact Finset.exists_mem_eq_sup _ hnonempty _

/-- Connected rules are in one component, which has one level. -/
theorem level_eq_of_connected (hij : g.Connected i j) : g.level i = g.level j := by
  -- Both rules are connected with the same rules, so they have the same rules outside.
  have hclass : ∀ k, g.Connected i k ↔ g.Connected j k :=
    fun k => ⟨hij.symm.trans, hij.trans⟩
  have houtside : g.outside i = g.outside j := by
    ext d
    simp [mem_outside, DependsOutside, hclass]
  rw [level_eq_sup, level_eq_sup, houtside]

/-! ## §3 The components of a level -/

/-- The components of level `l` and of the levels above it. -/
noncomputable def pendingFrom (g : DependencyGraph) (l : Nat) : List Stratum :=
  (g.stronglyConnected.map g.componentStratum).filter fun s => ∀ i ∈ s.rules, l ≤ g.level i

/-- The components of level `l`. -/
noncomputable def readyAt (g : DependencyGraph) (l : Nat) : List Stratum :=
  (g.stronglyConnected.map g.componentStratum).filter fun s => ∀ i ∈ s.rules, g.level i = l

section Rounds

variable (hg : g.Bounded)

include hg

/-- All rules of a component have its level. -/
theorem forall_level_iff {s : Stratum} (hs : s ∈ g.stronglyConnected.map g.componentStratum)
    (hi : i ∈ s.rules) (P : Nat → Prop) : (∀ j ∈ s.rules, P (g.level j)) ↔ P (g.level i) := by
  refine ⟨fun h => h i hi, fun h j hj => ?_⟩
  have hij := ((isComponent_of_mem_components hg hs).mem_iff i hi j).1 hj
  rwa [← level_eq_of_connected hij]

/-- A component is still there exactly if its level has not been taken yet. -/
theorem mem_pendingFrom {s : Stratum} (hs : s ∈ g.stronglyConnected.map g.componentStratum)
    (hi : i ∈ s.rules) : s ∈ g.pendingFrom l ↔ l ≤ g.level i := by
  simp only [pendingFrom, List.mem_filter, hs, true_and, decide_eq_true_eq]
  exact forall_level_iff hg hs hi (l ≤ ·)

/-- Among the components from a level on, those of this level are ready and no others. -/
theorem isReady_pendingFrom {s : Stratum} (hs : s ∈ g.stronglyConnected.map g.componentStratum)
    (hi : i ∈ s.rules) (hle : l ≤ g.level i) :
    g.isReady (g.pendingFrom l) s = true ↔ g.level i = l := by
  have hcomponent := isComponent_of_mem_components hg hs
  rw [isReady_iff]
  refine ⟨fun hready => ?_, fun hlevel j hj d hd t ht hdt => ?_⟩
  -- A component of a higher level depends on one that is one level below it, which is still there.
  · by_contra hne
    obtain ⟨d, hd, hsucc⟩ := exists_level_succ (g := g) (i := i) (by omega)
    obtain ⟨hlt, j, hij, hdepends, hnot⟩ := mem_outside.1 hd
    obtain ⟨c, hc, hdc⟩ := exists_component_of_lt hg hlt
    have hpending : g.componentStratum c ∈ g.pendingFrom l :=
      (mem_pendingFrom hg (List.mem_map_of_mem hc) hdc).2 (by omega)
    have hj := (hcomponent.mem_iff i hi j).2 hij
    exact hnot ((hcomponent.mem_iff i hi d).1 (hready j hj d hdepends _ hpending hdc))
  -- What a component of this level depends on in other components has a lower level.
  · by_contra hdnot
    have hij := (hcomponent.mem_iff i hi j).1 hj
    have houtside : d ∈ g.outside i := mem_outside.2
      ⟨hg j d hd, j, hij, hd, fun hid => hdnot ((hcomponent.mem_iff i hi d).2 hid)⟩
    have hlt := level_lt_of_mem_outside houtside
    have hge := (mem_pendingFrom hg (List.mem_of_mem_filter ht) hdt).1 ht
    omega

/-- To select from the components from a level on is to select components by their levels. -/
theorem filter_pendingFrom_eq (P : Nat → Prop) [DecidablePred P] {q : Stratum → Bool}
    (hq : ∀ s ∈ g.stronglyConnected.map g.componentStratum, ∀ i ∈ s.rules,
      l ≤ g.level i ∧ q s = true ↔ P (g.level i)) :
    (g.pendingFrom l).filter q =
      (g.stronglyConnected.map g.componentStratum).filter fun s =>
        ∀ i ∈ s.rules, P (g.level i) := by
  rw [pendingFrom, List.filter_filter]
  refine List.filter_congr fun s hs => ?_
  -- One rule of the component decides, since all of them have the same level.
  obtain ⟨i, hi⟩ := List.exists_mem_of_ne_nil _ (isComponent_of_mem_components hg hs).nonempty
  rw [Bool.eq_iff_iff, Bool.and_eq_true, decide_eq_true_iff, decide_eq_true_iff,
    forall_level_iff hg hs hi (l ≤ ·), forall_level_iff hg hs hi P, ← hq s hs i hi, and_comm]

/-- A round takes the components of one level. -/
theorem filter_isReady_pendingFrom (l : Nat) :
    (g.pendingFrom l).filter (g.isReady (g.pendingFrom l)) = g.readyAt l := by
  refine filter_pendingFrom_eq hg (· = l) fun s hs i hi => ⟨fun h => ?_, fun h => ?_⟩
  · exact (isReady_pendingFrom hg hs hi h.1).1 h.2
  · exact ⟨h.ge, (isReady_pendingFrom hg hs hi h.ge).2 h⟩

/-- It leaves the components of the levels above. -/
theorem filter_not_isReady_pendingFrom (l : Nat) :
    ((g.pendingFrom l).filter fun s => !g.isReady (g.pendingFrom l) s) = g.pendingFrom (l + 1) := by
  refine filter_pendingFrom_eq hg (l + 1 ≤ ·) fun s hs i hi => ?_
  rw [Bool.not_eq_true', ← Bool.not_eq_true]
  refine ⟨fun h => ?_, fun h => ?_⟩
  · rw [isReady_pendingFrom hg hs hi h.1] at h
    omega
  · have hle : l ≤ g.level i := by omega
    rw [isReady_pendingFrom hg hs hi hle]
    omega

end Rounds

/-! ## §4 The strata of a level -/

/-- The rule is a component by itself and does not depend on itself. -/
def Alone (g : DependencyGraph) (i : Nat) : Prop :=
  (∀ j, g.Connected i j → j = i) ∧ i ∉ g.dependenciesOf i

open Classical in
/-- The component of a rule in ascending order. -/
noncomputable def componentOf (g : DependencyGraph) (i : Nat) : List Nat :=
  (List.range g.ruleCount).filter fun j => g.Connected i j

/-- No rule of its component has a smaller number. -/
def IsSmallest (g : DependencyGraph) (i : Nat) : Prop :=
  ∀ j, g.Connected i j → i ≤ j

open Classical in
/-- The rules of a level that are alone, in ascending order. -/
noncomputable def aloneAt (g : DependencyGraph) (l : Nat) : List Nat :=
  (List.range g.ruleCount).filter fun i => g.level i = l ∧ g.Alone i

open Classical in
/-- The smallest rules of the other components of a level, in ascending order. -/
noncomputable def smallestAt (g : DependencyGraph) (l : Nat) : List Nat :=
  (List.range g.ruleCount).filter fun i => g.level i = l ∧ ¬ g.Alone i ∧ g.IsSmallest i

/-- The strata of a level: one stratum of the rules that are alone, if there are any, then the other
components, each in ascending order, by their smallest rules. -/
noncomputable def layer (g : DependencyGraph) (l : Nat) : List Stratum :=
  (if (g.aloneAt l).isEmpty then [] else [⟨g.aloneAt l, false⟩]) ++
    (g.smallestAt l).map fun i => ⟨g.componentOf i, true⟩

theorem strict_componentOf (g : DependencyGraph) (i : Nat) : Ascending.Strict (g.componentOf i) :=
  List.Pairwise.filter _ (Ascending.strict_range g.ruleCount)

theorem strict_aloneAt (g : DependencyGraph) (l : Nat) : Ascending.Strict (g.aloneAt l) :=
  List.Pairwise.filter _ (Ascending.strict_range g.ruleCount)

theorem strict_smallestAt (g : DependencyGraph) (l : Nat) : Ascending.Strict (g.smallestAt l) :=
  List.Pairwise.filter _ (Ascending.strict_range g.ruleCount)

theorem mem_aloneAt : i ∈ g.aloneAt l ↔ i < g.ruleCount ∧ g.level i = l ∧ g.Alone i := by
  simp [aloneAt]

theorem mem_smallestAt :
    i ∈ g.smallestAt l ↔ i < g.ruleCount ∧ g.level i = l ∧ ¬ g.Alone i ∧ g.IsSmallest i := by
  simp [smallestAt]

section Layers

variable (hg : g.Bounded)

include hg

theorem mem_componentOf (hi : i < g.ruleCount) : j ∈ g.componentOf i ↔ g.Connected i j := by
  simp only [componentOf, List.mem_filter, List.mem_range, decide_eq_true_eq]
  exact and_iff_right_of_imp fun hij => hij.1.lt_ruleCount hg hi

theorem componentOf_mem_stronglyConnected (hi : i < g.ruleCount) :
    g.componentOf i ∈ g.stronglyConnected :=
  (mem_stronglyConnected hg).2
    ⟨strict_componentOf g i, isComponent_of_connected_iff hg hi fun _ => mem_componentOf hg hi⟩

theorem eq_componentOf {c : List Nat} (hc : c ∈ g.stronglyConnected) (hi : i ∈ c) :
    c = g.componentOf i := by
  obtain ⟨hstrict, hcomponent⟩ := (mem_stronglyConnected hg).1 hc
  apply hstrict.ext (strict_componentOf g i)
  intro j
  rw [hcomponent.mem_iff i hi, mem_componentOf hg (hcomponent.lt_ruleCount i hi)]

/-- The smallest rule of a component comes first in it. -/
theorem exists_componentOf_eq_cons (hi : i < g.ruleCount) (hsmallest : g.IsSmallest i) :
    ∃ rest, g.componentOf i = i :: rest := by
  have hmem := (mem_componentOf hg hi).2 (.refl g i)
  have hstrict := strict_componentOf g i
  cases hlist : g.componentOf i with
  | nil => simp [hlist] at hmem
  | cons a rest =>
    rw [hlist] at hmem hstrict
    -- The first rule of the list is not smaller than `i`, and none of the later ones is `i`.
    have hle : i ≤ a := hsmallest a ((mem_componentOf hg hi).1 (by simp [hlist]))
    rcases List.mem_cons.1 hmem with heq | hrest
    · exact ⟨rest, by rw [heq]⟩
    · have hlt := Nat.compare_eq_lt.1 ((List.pairwise_cons.1 hstrict).1 i hrest)
      omega

/-- A component is not recursive exactly if its rule is alone. -/
theorem recursive_componentOf_eq_false_iff (hi : i < g.ruleCount) :
    (g.componentStratum (g.componentOf i)).recursive = false ↔ g.Alone i := by
  rw [recursive_componentStratum_eq_false_iff]
  refine ⟨fun h => ?_, fun h => ?_⟩
  -- If the component has one rule only, then this is the given one.
  · obtain ⟨r, hr, hself⟩ := h
    have hmem : ∀ j, g.Connected i j ↔ j = r := by
      intro j
      rw [← mem_componentOf hg hi, hr, List.mem_singleton]
    have hir : i = r := (hmem i).1 (.refl g i)
    subst hir
    exact ⟨fun j hij => (hmem j).1 hij, hself⟩
  · obtain ⟨halone, hself⟩ := h
    refine ⟨i, ?_, hself⟩
    apply (strict_componentOf g i).ext (List.pairwise_singleton _ _)
    intro j
    rw [mem_componentOf hg hi, List.mem_singleton]
    exact ⟨halone j, fun hji => hji ▸ .refl g i⟩

/-- The components of a level are those of its rules. -/
theorem mem_readyAt {s : Stratum} :
    s ∈ g.readyAt l ↔
      ∃ i < g.ruleCount, g.level i = l ∧ g.componentStratum (g.componentOf i) = s := by
  simp only [readyAt, List.mem_filter, decide_eq_true_eq]
  refine ⟨fun h => ?_, fun h => ?_⟩
  · obtain ⟨hs, hlevels⟩ := h
    obtain ⟨c, hc, rfl⟩ := List.mem_map.1 hs
    have hcomponent := isComponent_of_mem_stronglyConnected hg hc
    obtain ⟨i, hi⟩ := List.exists_mem_of_ne_nil c hcomponent.nonempty
    exact ⟨i, hcomponent.lt_ruleCount i hi, hlevels i hi, by rw [← eq_componentOf hg hc hi]⟩
  · obtain ⟨i, hi, hlevel, rfl⟩ := h
    have hs := List.mem_map_of_mem (f := g.componentStratum)
      (componentOf_mem_stronglyConnected hg hi)
    refine ⟨hs, (forall_level_iff hg hs ?_ (· = l)).2 hlevel⟩
    exact (mem_componentOf hg hi).2 (.refl g i)

/-- The components of a level that are not recursive make one list of the rules that are alone. -/
theorem ofList_flat_readyAt (l : Nat) :
    Ascending.ofList (((g.readyAt l).filter fun s => !s.recursive).flatMap Stratum.rules) =
      g.aloneAt l := by
  apply (Ascending.strict_ofList _).ext (strict_aloneAt g l)
  intro i
  simp only [Ascending.mem_ofList, List.mem_flatMap, List.mem_filter, Bool.not_eq_true',
    mem_readyAt hg, mem_aloneAt]
  refine ⟨fun h => ?_, fun h => ?_⟩
  · obtain ⟨s, ⟨⟨k, hk, hlevel, rfl⟩, hflat⟩, hi⟩ := h
    have halone := (recursive_componentOf_eq_false_iff hg hk).1 hflat
    have hik : i = k := halone.1 i ((mem_componentOf hg hk).1 hi)
    subst hik
    exact ⟨hk, hlevel, halone⟩
  · obtain ⟨hi, hlevel, halone⟩ := h
    exact ⟨_, ⟨⟨i, hi, hlevel, rfl⟩, (recursive_componentOf_eq_false_iff hg hi).2 halone⟩,
      (mem_componentOf hg hi).2 (.refl g i)⟩

/-- Components come in the order of their smallest rules. -/
theorem strict_map_componentOf (l : Nat) :
    Ascending.Strict ((g.smallestAt l).map g.componentOf) := by
  -- Two of them differ in their first rules already.
  refine (strict_smallestAt g l).map fun i hi k hk hik => ?_
  obtain ⟨hi, -, -, hsmallest⟩ := mem_smallestAt.1 hi
  obtain ⟨hk, -, -, hsmallest'⟩ := mem_smallestAt.1 hk
  obtain ⟨rest, hrest⟩ := exists_componentOf_eq_cons hg hi hsmallest
  obtain ⟨rest', hrest'⟩ := exists_componentOf_eq_cons hg hk hsmallest'
  rw [hrest, hrest', List.compare_cons_cons, hik]
  rfl

theorem exists_isSmallest (hi : i < g.ruleCount) :
    ∃ k < g.ruleCount, g.Connected i k ∧ g.IsSmallest k := by
  obtain ⟨k, hik, hmin⟩ := Nat.lt_wfRel.wf.has_min {k | g.Connected i k} ⟨i, .refl g i⟩
  exact ⟨k, hik.1.lt_ruleCount hg hi, hik, fun j hkj => Nat.le_of_not_lt (hmin j (hik.trans hkj))⟩

/-- The recursive components of a level, each of them listed under its smallest rule. -/
theorem ofList_recursive_readyAt (l : Nat) :
    Ascending.ofList (((g.readyAt l).filter fun s => s.recursive).map Stratum.rules) =
      (g.smallestAt l).map g.componentOf := by
  apply (Ascending.strict_ofList _).ext (strict_map_componentOf hg l)
  intro c
  simp only [Ascending.mem_ofList, List.mem_map, List.mem_filter, mem_readyAt hg, mem_smallestAt]
  refine ⟨fun h => ?_, fun h => ?_⟩
  · obtain ⟨s, ⟨⟨i, hi, hlevel, rfl⟩, hrecursive⟩, rfl⟩ := h
    -- The component is listed under its smallest rule, whichever rule it is given by.
    obtain ⟨k, hk, hik, hsmallest⟩ := exists_isSmallest hg hi
    have hsame : g.componentOf i = g.componentOf k :=
      eq_componentOf hg (componentOf_mem_stronglyConnected hg hi) ((mem_componentOf hg hi).2 hik)
    have hnot : ¬ g.Alone k := by
      rw [← recursive_componentOf_eq_false_iff hg hk, ← hsame, hrecursive]
      decide
    exact ⟨k, ⟨hk, (level_eq_of_connected hik).symm.trans hlevel, hnot, hsmallest⟩, hsame.symm⟩
  · obtain ⟨i, ⟨hi, hlevel, hnot, -⟩, rfl⟩ := h
    rw [← recursive_componentOf_eq_false_iff hg hi, Bool.not_eq_false] at hnot
    exact ⟨_, ⟨⟨i, hi, hlevel, rfl⟩, hnot⟩, rfl⟩

/-- One round takes one level. -/
theorem round_readyAt (l : Nat) : round (g.readyAt l) = g.layer l := by
  simp only [round, layer, ofList_flat_readyAt hg, ofList_recursive_readyAt hg, List.map_map]
  rfl

/-- The rounds take level after level. -/
theorem rounds_pendingFrom (n l : Nat) :
    g.rounds n (g.pendingFrom l) = (List.range' l n).flatMap g.layer := by
  -- By induction on the number of rounds, from whichever level they begin.
  induction n generalizing l with
  | zero => rfl
  | succ n ih =>
    rw [rounds, filter_isReady_pendingFrom hg, filter_not_isReady_pendingFrom hg, ih,
      round_readyAt hg, List.range'_succ, List.flatMap_cons]

/-- There are no more components than rules. -/
theorem length_stronglyConnected_le : g.stronglyConnected.length ≤ g.ruleCount := by
  -- Every component has a rule, and no rule is counted twice.
  have hpositive : ∀ k ∈ g.stronglyConnected.map List.length, 1 ≤ k := by
    intro k hk
    obtain ⟨c, hc, rfl⟩ := List.mem_map.1 hk
    exact List.length_pos_iff.2 (isComponent_of_mem_stronglyConnected hg hc).nonempty
  calc g.stronglyConnected.length = (g.stronglyConnected.map List.length).length := by simp
    _ ≤ (g.stronglyConnected.map List.length).sum := List.length_le_sum_of_one_le _ hpositive
    _ = g.ruleCount := by
      rw [← List.length_flatten, (perm_flatten_stronglyConnected hg).length_eq, List.length_range]

end Layers

/-- The strata are those of level 0, those of level 1 and so on: in each level first one stratum of
all rules that are components by themselves and do not depend on themselves, if there are any, then
the recursive components, by their smallest rules. -/
theorem strata_eq_flatMap_layer (g : DependencyGraph) (hg : g.Bounded) :
    g.strata = (List.range g.ruleCount).flatMap g.layer := by
  have hall : g.stronglyConnected.map g.componentStratum = g.pendingFrom 0 := by
    simp [pendingFrom]
  have hlength : (g.stronglyConnected.map g.componentStratum).length ≤ g.ruleCount := by
    simpa using length_stronglyConnected_le hg
  -- One round for each rule is enough, for more rounds than components change nothing.
  have hrounds : g.strata = g.rounds g.ruleCount (g.pendingFrom 0) := by
    obtain ⟨extra, hextra⟩ := Nat.exists_eq_add_of_le hlength
    rw [← hall, hextra]
    exact (rounds_add extra (fun s hs => isComponent_of_mem_components hg hs) le_rfl).symm
  rw [hrounds, rounds_pendingFrom hg, ← List.range_eq_range']

/-- Two circles, one of them a rule that depends on itself, and three rules that are alone. -/
def twoCircles : DependencyGraph :=
  ⟨[[], [0, 2], [1], [3], [0, 3], [2, 4]]⟩

theorem flatMap_layer_twoCircles :
    twoCircles.Bounded ∧ (List.range 6).flatMap twoCircles.layer =
      [⟨[0], false⟩, ⟨[3], true⟩, ⟨[4], false⟩, ⟨[1, 2], true⟩, ⟨[5], false⟩] := by
  have hbounded : twoCircles.Bounded := by decide
  have hstrata : twoCircles.strata =
      [⟨[0], false⟩, ⟨[3], true⟩, ⟨[4], false⟩, ⟨[1, 2], true⟩, ⟨[5], false⟩] := by decide
  exact ⟨hbounded, (strata_eq_flatMap_layer twoCircles hbounded).symm.trans hstrata⟩

end DependencyGraph

end ExistentialRules
