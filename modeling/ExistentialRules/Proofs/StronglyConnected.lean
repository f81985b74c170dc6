import Mathlib.Data.List.Perm.Lattice
import ExistentialRules.Proofs.DepthFirstWalk
import ExistentialRules.Proofs.Renumbering
import ExistentialRules.Proofs.StrataOrder

/-!
# Strongly connected components

The components that two depth-first walks collect are the classes of rules that depend on each
other, and every rule is in one of them.

The second walk goes against the dependencies. It starts from the rule that the first walk has
finished last among those still there. Whatever leads to this rule is either on a circle with it or
on a circle with a rule that was finished still later, and so was collected before.

## Main definitions

* `DependencyGraph.Reaches`, `DependencyGraph.Connected`: dependency through other rules, and mutual
  dependency;
* `DependencyGraph.IsComponent`: classes of mutual dependency.

## Main statements

* `DependencyGraph.exists_connected_of_reaches`: the order of finishing;
* `DependencyGraph.connected_iff_mem`: one walk collects one class;
* `DependencyGraph.isComponent_of_mem_stronglyConnected`,
  `DependencyGraph.perm_flatten_stronglyConnected`: the components are classes, and they contain
  every rule once;
* `DependencyGraph.stronglyConnected_exact`: what the two walks do together.
-/

namespace ExistentialRules

open Relation

namespace DependencyGraph

/-! ## §1 Dependency through other rules -/

/-- The dependencies are rules of the graph. -/
def Bounded (g : DependencyGraph) : Prop :=
  ∀ j, ∀ i ∈ g.dependenciesOf j, i < g.ruleCount

/-- The first rule is the second one or depends on it, perhaps through other rules. -/
def Reaches (g : DependencyGraph) : Nat → Nat → Prop :=
  ReflTransGen fun j i => i ∈ g.dependenciesOf j

/-- The two rules are the same or depend on each other. -/
def Connected (g : DependencyGraph) (i j : Nat) : Prop :=
  g.Reaches i j ∧ g.Reaches j i

/-- The list holds all rules that some rule is connected with. -/
structure IsComponent (g : DependencyGraph) (c : List Nat) : Prop where
  nonempty : c ≠ []
  lt_ruleCount : ∀ i ∈ c, i < g.ruleCount
  mem_iff : ∀ i ∈ c, ∀ j, j ∈ c ↔ g.Connected i j

variable {g : DependencyGraph} {i j k : Nat}

theorem Connected.refl (g : DependencyGraph) (i : Nat) : g.Connected i i :=
  ⟨.refl, .refl⟩

theorem Connected.symm (h : g.Connected i j) : g.Connected j i :=
  ⟨h.2, h.1⟩

theorem Connected.trans (hij : g.Connected i j) (hjk : g.Connected j k) : g.Connected i k :=
  ⟨hij.1.trans hjk.1, hjk.2.trans hij.2⟩

theorem Reaches.lt_ruleCount (hg : g.Bounded) (h : g.Reaches i j) (hi : i < g.ruleCount) :
    j < g.ruleCount := by
  induction h with
  | refl => exact hi
  | tail _ hstep _ => exact hg _ _ hstep

/-- All that one rule is connected with is a component. -/
theorem isComponent_of_connected_iff (hg : g.Bounded) (hi : i < g.ruleCount) {c : List Nat}
    (h : ∀ j, j ∈ c ↔ g.Connected i j) : g.IsComponent c where
  nonempty := List.ne_nil_of_mem ((h i).2 (.refl g i))
  lt_ruleCount := fun j hj => ((h j).1 hj).1.lt_ruleCount hg hi
  mem_iff := by
    intro k hk j
    have hik := (h k).1 hk
    rw [h j]
    exact ⟨fun hij => hik.symm.trans hij, fun hkj => hik.trans hkj⟩

theorem lt_ruleCount_of_mem (h : i ∈ g.dependenciesOf j) : j < g.ruleCount := by
  by_contra hj
  have hnone : g.dependencies[j]? = none := List.getElem?_eq_none (Nat.le_of_not_lt hj)
  simp [dependenciesOf, dependenciesOf?, hnone] at h

/-- Whether all dependencies are rules of the graph can be read off the list of them. -/
theorem bounded_iff : g.Bounded ↔ ∀ ds ∈ g.dependencies, ∀ i ∈ ds, i < g.ruleCount := by
  refine ⟨fun h ds hds i hi => ?_, fun h j i hi => ?_⟩
  · obtain ⟨j, hj⟩ := List.mem_iff_getElem?.1 hds
    exact h j i (by simpa [dependenciesOf, dependenciesOf?, hj] using hi)
  · have hj : j < g.dependencies.length := lt_ruleCount_of_mem hi
    apply h g.dependencies[j] (List.getElem_mem hj)
    simpa [dependenciesOf, dependenciesOf?, hj] using hi

instance : Decidable g.Bounded :=
  decidable_of_iff _ bounded_iff.symm

theorem mem_dependentsOf : j ∈ g.dependentsOf i ↔ i ∈ g.dependenciesOf j := by
  simp only [dependentsOf, List.mem_filter, List.mem_range, List.contains_iff_mem]
  exact and_iff_right_of_imp lt_ruleCount_of_mem

/-! ## §2 The order of finishing -/

theorem reaches_iff_walk : g.Reaches i j ↔ Walk.Reaches g.dependenciesOf [] i j := by
  simp [Reaches, Walk.Reaches]

/-- Paths against the dependencies lead to rules that depend on the first one. -/
theorem reaches_of_walk_dependentsOf {seen : List Nat} (h : Walk.Reaches g.dependentsOf seen i j) :
    g.Reaches j i := by
  induction h with
  | refl => exact .refl
  | tail _ hstep ih => exact ReflTransGen.head (mem_dependentsOf.1 hstep.1) ih

theorem dependenciesOf_mem_range (hg : g.Bounded) :
    ∀ i ∈ Finset.range g.ruleCount, ∀ j ∈ g.dependenciesOf i, j ∈ Finset.range g.ruleCount :=
  fun i _ j hj => Finset.mem_range.2 (hg i j hj)

theorem dependentsOf_mem_range :
    ∀ i ∈ Finset.range g.ruleCount, ∀ j ∈ g.dependentsOf i, j ∈ Finset.range g.ruleCount :=
  fun _ _ _ hj => Finset.mem_range.2 (lt_ruleCount_of_mem (mem_dependentsOf.1 hj))

theorem card_unseen_range_le (w : Walk Nat) :
    (Walk.unseen (Finset.range g.ruleCount) w).card ≤ g.ruleCount :=
  (Finset.card_le_card Finset.sdiff_subset).trans (Finset.card_range g.ruleCount).le

/-- The first walk explores the graph from all rules. -/
theorem explores_finishingOrder (hg : g.Bounded) :
    ∃ w, Walk.Explores g.dependenciesOf (List.range g.ruleCount) .start w g.finishingOrder := by
  obtain ⟨new, h⟩ := Walk.exists_explores_foldl (dependenciesOf_mem_range hg) g.ruleCount
    (List.range g.ruleCount) (by simp) .start (card_unseen_range_le .start)
  have hnew : g.finishingOrder = new := by
    rw [finishingOrder, h.finished]
    exact List.append_nil new
  rw [hnew]
  exact ⟨_, h⟩

theorem mem_finishingOrder (hg : g.Bounded) : i ∈ g.finishingOrder ↔ i < g.ruleCount := by
  obtain ⟨w, h⟩ := explores_finishingOrder hg
  refine ⟨fun hi => ?_, fun hi => ?_⟩
  · obtain ⟨a, ha, -, hai⟩ := h.found i hi
    exact hai.mem_of_closed (fun j _ k hk _ => hg j k hk) (List.mem_range.1 ha)
  · exact h.mem_new_iff.2 ⟨i, List.mem_range.2 hi, List.not_mem_nil, .refl⟩

/-- Every rule is finished once. -/
theorem perm_finishingOrder (hg : g.Bounded) : g.finishingOrder.Perm (List.range g.ruleCount) := by
  obtain ⟨w, h⟩ := explores_finishingOrder hg
  refine (List.perm_ext_iff_of_nodup h.nodup List.nodup_range).2 fun i => ?_
  rw [mem_finishingOrder hg, List.mem_range]

/-- A rule that depends on another is connected with one that is finished no earlier than the
other. -/
theorem exists_connected_of_reaches (hg : g.Bounded) {later earlier : List Nat} {r x : Nat}
    (horder : g.finishingOrder = later ++ r :: earlier) (hx : x < g.ruleCount)
    (hxr : g.Reaches x r) : ∃ z ∈ later ++ [r], g.Connected x z := by
  obtain ⟨w, h⟩ := explores_finishingOrder hg
  have hsplit : g.finishingOrder = (later ++ [r]) ++ earlier := by simp [horder]
  have hmem := (mem_finishingOrder hg).2 hx
  rw [hsplit] at hmem
  -- The rule itself is finished no earlier than the other, or the order of finishing gives one that
  -- is.
  rcases List.mem_append.1 hmem with hx | hx
  · exact ⟨x, hx, .refl g x⟩
  · obtain ⟨z, hz, hxz, hzx⟩ := h.ordered _ _ hsplit x hx r (by simp) (reaches_iff_walk.1 hxr)
    exact ⟨z, hz, reaches_iff_walk.2 hxz, reaches_iff_walk.2 hzx⟩

/-! ## §3 Collecting the components -/

/-- Rules are seen together with all that they are connected with. -/
def SeenTogether (g : DependencyGraph) (seen : List Nat) : Prop :=
  ∀ i ∈ seen, ∀ j, g.Connected i j → j ∈ seen

section Collect

/-- The number of rules is deep enough for a walk against the dependencies, too. -/
theorem exists_explores_dependentsOf (seen : List Nat) {r : Nat} (hr : r < g.ruleCount) :
    ∃ new, Walk.Explores g.dependentsOf [r] ⟨seen, []⟩
      (Walk.visit g.dependentsOf g.ruleCount ⟨seen, []⟩ r) new :=
  Walk.exists_explores_visit dependentsOf_mem_range g.ruleCount ⟨seen, []⟩ (Finset.mem_range.2 hr)
    (card_unseen_range_le _)

variable (hg : g.Bounded) {seen later earlier : List Nat} {r : Nat}
  (horder : g.finishingOrder = later ++ r :: earlier) (hlater : ∀ i ∈ later, i ∈ seen)
  (hseen : g.SeenTogether seen) (hr : r ∉ seen)

include hg horder

theorem lt_ruleCount_of_finishingOrder : r < g.ruleCount :=
  (mem_finishingOrder hg).1 (by simp [horder])

include hlater hseen hr

/-- From the rule finished last among those not seen, a walk against the dependencies finds the
rules that are connected with it. -/
theorem connected_iff_mem {w : Walk Nat} {new : List Nat}
    (h : Walk.Explores g.dependentsOf [r] ⟨seen, []⟩ w new) {x : Nat} :
    x ∈ new ↔ g.Connected r x := by
  have hrnew : r ∈ new := h.mem_new_iff.2 ⟨r, List.mem_cons_self, hr, .refl⟩
  refine ⟨fun hx => ?_, fun hx => ?_⟩
  -- What the walk finds depends on the start; it remains to show that the start depends on it.
  · obtain ⟨a, ha, -, hax⟩ := h.found x hx
    rw [List.mem_singleton.1 ha] at hax
    have hxr := reaches_of_walk_dependentsOf hax
    have hxlt : x < g.ruleCount :=
      hax.mem_of_closed (P := fun k => k < g.ruleCount)
        (fun j _ k hk _ => lt_ruleCount_of_mem (mem_dependentsOf.1 hk))
        (lt_ruleCount_of_finishingOrder hg horder)
    obtain ⟨z, hz, hxz⟩ := exists_connected_of_reaches hg horder hxlt hxr
    rcases List.mem_append.1 hz with hz | hz
    -- A rule connected with a later one would have been collected with it.
    · exact absurd (hseen z (hlater z hz) x hxz.symm) (h.fresh x hx)
    · rw [List.mem_singleton.1 hz] at hxz
      exact hxz.symm
  -- By induction on the path to the start: all rules on it are connected with the start.
  · obtain ⟨hrx, hxr⟩ := hx
    induction hxr using ReflTransGen.head_induction_on with
    | refl => exact hrnew
    | @head y y' hyy' hy'r ih =>
      have hy' : y' ∈ new := ih (hrx.tail hyy')
      have hy : g.Connected r y := ⟨hrx, ReflTransGen.head hyy' hy'r⟩
      have hyseen := h.closed y' hy' y (mem_dependentsOf.2 hyy')
      exact ((h.seen y).1 hyseen).resolve_left fun hold => hr (hseen y hold r hy.symm)

/-- The class is added to what has been seen. -/
theorem seenTogether_of_explores {w : Walk Nat} {new : List Nat}
    (h : Walk.Explores g.dependentsOf [r] ⟨seen, []⟩ w new) : g.SeenTogether w.seen := by
  have hclass : ∀ x, x ∈ new ↔ g.Connected r x :=
    fun x => connected_iff_mem hg horder hlater hseen hr h
  intro i hi j hij
  rcases (h.seen i).1 hi with hi | hi
  · exact (h.seen j).2 (Or.inl (hseen i hi j hij))
  · exact (h.seen j).2 (Or.inr ((hclass j).2 (((hclass i).1 hi).trans hij)))

end Collect

/-- By induction on the rules still to be looked at, in the order of finishing: what has been seen
is a union of classes and contains the rules looked at before. -/
theorem isComponent_collectFrom (hg : g.Bounded) (seen later : List Nat) {rules : List Nat}
    (horder : g.finishingOrder = later ++ rules) (hlater : ∀ i ∈ later, i ∈ seen)
    (hseen : g.SeenTogether seen) :
    (∀ c ∈ g.collectFrom seen rules, g.IsComponent c) ∧
      ∀ i ∈ rules, i ∈ seen ∨ ∃ c ∈ g.collectFrom seen rules, i ∈ c := by
  induction rules generalizing seen later with
  | nil => simp [collectFrom]
  | cons r rules ih =>
    have horder' : g.finishingOrder = (later ++ [r]) ++ rules := by simp [horder]
    rw [collectFrom]
    split
    -- A rule that was seen is in an earlier component and is passed over.
    · rename_i hr
      have hlater' : ∀ i ∈ later ++ [r], i ∈ seen :=
        List.forall_mem_append.2 ⟨hlater, List.forall_mem_singleton.2 hr⟩
      obtain ⟨hcomponents, hall⟩ := ih _ _ horder' hlater' hseen
      exact ⟨hcomponents, List.forall_mem_cons.2 ⟨Or.inl hr, hall⟩⟩
    · rename_i hr
      have hlt := lt_ruleCount_of_finishingOrder hg horder
      obtain ⟨new, h⟩ := exists_explores_dependentsOf seen hlt
      generalize Walk.visit g.dependentsOf g.ruleCount ⟨seen, []⟩ r = w at h
      have hold : ∀ i ∈ seen, i ∈ w.seen := fun i hi => (h.seen i).2 (Or.inl hi)
      have hrseen : r ∈ w.seen := h.started r List.mem_cons_self
      have hlater' : ∀ i ∈ later ++ [r], i ∈ w.seen :=
        List.forall_mem_append.2 ⟨fun i hi => hold i (hlater i hi),
          List.forall_mem_singleton.2 hrseen⟩
      obtain ⟨hcomponents, hall⟩ :=
        ih _ _ horder' hlater' (seenTogether_of_explores hg horder hlater hseen hr h)
      have hnew : ∀ j, j ∈ Ascending.ofList w.finished ↔ j ∈ new := by
        intro j
        rw [Ascending.mem_ofList, h.finished, List.append_nil]
      have hclass : ∀ j, j ∈ Ascending.ofList w.finished ↔ g.Connected r j :=
        fun j => (hnew j).trans (connected_iff_mem hg horder hlater hseen hr h)
      -- What has been seen by now was seen before or is in the component just collected.
      have hfound : ∀ i ∈ w.seen, i ∈ seen ∨
          ∃ c ∈ Ascending.ofList w.finished :: g.collectFrom w.seen rules, i ∈ c :=
        fun i hi => ((h.seen i).1 hi).imp_right fun hi => ⟨_, List.mem_cons_self, (hnew i).2 hi⟩
      refine ⟨List.forall_mem_cons.2 ⟨isComponent_of_connected_iff hg hlt hclass, hcomponents⟩,
        List.forall_mem_cons.2 ⟨hfound r hrseen, fun i hi => ?_⟩⟩
      rcases hall i hi with hi | ⟨c, hc, hi⟩
      · exact hfound i hi
      · exact Or.inr ⟨c, List.mem_cons_of_mem _ hc, hi⟩

/-- Every collected list ascends. -/
theorem strict_of_mem_collectFrom {seen rules c : List Nat} (hc : c ∈ g.collectFrom seen rules) :
    Ascending.Strict c := by
  induction rules generalizing seen with
  | nil => cases hc
  | cons r rules ih =>
    rw [collectFrom] at hc
    split at hc
    · exact ih hc
    · rcases List.mem_cons.1 hc with rfl | hc
      · exact Ascending.strict_ofList _
      · exact ih hc

/-! ## §4 The components -/

section Components

variable (hg : g.Bounded)

include hg

theorem isComponent_of_mem_stronglyConnected {c : List Nat} (hc : c ∈ g.stronglyConnected) :
    g.IsComponent c :=
  (isComponent_collectFrom hg [] [] rfl (by simp) (by simp [SeenTogether])).1 c hc

theorem mem_flatten_stronglyConnected : i ∈ g.stronglyConnected.flatten ↔ i < g.ruleCount := by
  rw [List.mem_flatten]
  refine ⟨fun hi => ?_, fun hi => ?_⟩
  · obtain ⟨c, hc, hi⟩ := hi
    exact (isComponent_of_mem_stronglyConnected hg hc).lt_ruleCount i hi
  · have hall := (isComponent_collectFrom hg [] [] rfl (by simp) (by simp [SeenTogether])).2
    exact (hall i ((mem_finishingOrder hg).2 hi)).resolve_left List.not_mem_nil

theorem exists_component_of_lt (hi : i < g.ruleCount) : ∃ c ∈ g.stronglyConnected, i ∈ c :=
  List.mem_flatten.1 ((mem_flatten_stronglyConnected hg).2 hi)

/-- Every rule is in one component, and listed there once. -/
theorem perm_flatten_stronglyConnected :
    g.stronglyConnected.flatten.Perm (List.range g.ruleCount) := by
  have hnodup : g.stronglyConnected.flatten.Nodup := by
    refine List.nodup_flatten.2 ⟨fun c hc => ?_, pairwise_disjoint_stronglyConnected⟩
    exact (strict_of_mem_collectFrom hc).nodup
  refine (List.perm_ext_iff_of_nodup hnodup List.nodup_range).2 fun i => ?_
  rw [mem_flatten_stronglyConnected hg, List.mem_range]

/-- The collected lists are the components as ascending lists. -/
theorem mem_stronglyConnected {c : List Nat} :
    c ∈ g.stronglyConnected ↔ Ascending.Strict c ∧ g.IsComponent c := by
  refine ⟨fun hc => ⟨strict_of_mem_collectFrom hc, isComponent_of_mem_stronglyConnected hg hc⟩,
    fun h => ?_⟩
  obtain ⟨hstrict, hcomponent⟩ := h
  obtain ⟨i, hi⟩ := List.exists_mem_of_ne_nil c hcomponent.nonempty
  obtain ⟨d, hd, hid⟩ := exists_component_of_lt hg (hcomponent.lt_ruleCount i hi)
  -- Two components with a rule in common are the same.
  have hcd : c = d := by
    apply hstrict.ext (strict_of_mem_collectFrom hd)
    intro j
    rw [hcomponent.mem_iff i hi, (isComponent_of_mem_stronglyConnected hg hd).mem_iff i hid]
  rwa [hcd]

/-- Rules are collected together exactly if they are connected. -/
theorem exists_mem_stronglyConnected_iff (hi : i < g.ruleCount) :
    (∃ c ∈ g.stronglyConnected, i ∈ c ∧ j ∈ c) ↔ g.Connected i j := by
  refine ⟨fun h => ?_, fun hij => ?_⟩
  · obtain ⟨c, hc, hic, hjc⟩ := h
    exact ((isComponent_of_mem_stronglyConnected hg hc).mem_iff i hic j).1 hjc
  · obtain ⟨c, hc, hic⟩ := exists_component_of_lt hg hi
    exact ⟨c, hc, hic, ((isComponent_of_mem_stronglyConnected hg hc).mem_iff i hic j).2 hij⟩

end Components

/-! ## §5 The two walks -/

/-- In a graph whose dependencies are rules of the graph, the number of rules is deep enough for
both walks: each obeys the recursion that knows no depth. The first finishes every rule once, and
the second goes exactly against the dependencies. It collects every rule once, its lists are exactly
the components as ascending lists, and two rules are in one list exactly if each reaches the
other. -/
theorem stronglyConnected_exact (hg : g.Bounded) :
    (∀ w : Walk Nat, ∀ i < g.ruleCount, w.visit g.dependenciesOf g.ruleCount i =
      w.enter g.dependenciesOf (Walk.visit g.dependenciesOf g.ruleCount) i) ∧
    (∀ w : Walk Nat, ∀ i < g.ruleCount, w.visit g.dependentsOf g.ruleCount i =
      w.enter g.dependentsOf (Walk.visit g.dependentsOf g.ruleCount) i) ∧
    g.finishingOrder.Perm (List.range g.ruleCount) ∧
    (∀ i j, j ∈ g.dependentsOf i ↔ i ∈ g.dependenciesOf j) ∧
    g.stronglyConnected.flatten.Perm (List.range g.ruleCount) ∧
    (∀ c, c ∈ g.stronglyConnected ↔ Ascending.Strict c ∧ g.IsComponent c) ∧
    ∀ i < g.ruleCount, ∀ j,
      (∃ c ∈ g.stronglyConnected, i ∈ c ∧ j ∈ c) ↔ g.Reaches i j ∧ g.Reaches j i := by
  refine ⟨fun w i hi => ?_, fun w i hi => ?_, perm_finishingOrder hg, fun i j => mem_dependentsOf,
    perm_flatten_stronglyConnected hg, fun c => mem_stronglyConnected hg,
    fun i hi j => exists_mem_stronglyConnected_iff hg hi⟩
  · exact Walk.visit_eq_enter (dependenciesOf_mem_range hg) _ w (Finset.mem_range.2 hi)
      (card_unseen_range_le w)
  · exact Walk.visit_eq_enter dependentsOf_mem_range _ w (Finset.mem_range.2 hi)
      (card_unseen_range_le w)

/-- A circle of three rules, one of which depends on a rule that depends on itself, and a rule that
is alone. -/
def circleLoopAndPoint : DependencyGraph :=
  ⟨[[2], [0], [1, 3], [3], []]⟩

theorem stronglyConnected_exact_circleLoopAndPoint :
    circleLoopAndPoint.Bounded ∧
    circleLoopAndPoint.finishingOrder = [4, 0, 2, 3, 1] ∧
    circleLoopAndPoint.stronglyConnected = [[4], [0, 1, 2], [3]] ∧
    (circleLoopAndPoint.Reaches 0 1 ∧ circleLoopAndPoint.Reaches 1 0) ∧
    ¬ (circleLoopAndPoint.Reaches 2 3 ∧ circleLoopAndPoint.Reaches 3 2) := by
  have hbounded : circleLoopAndPoint.Bounded := by decide
  have htogether := (stronglyConnected_exact hbounded).2.2.2.2.2.2
  exact ⟨hbounded, by decide, by decide, (htogether 0 (by decide) 1).1 (by decide),
    fun h => absurd ((htogether 2 (by decide) 3).2 h) (by decide)⟩

end DependencyGraph

end ExistentialRules
