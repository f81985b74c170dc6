import Mathlib.Data.List.Basic
import Mathlib.Data.List.Pairwise
import ExistentialRules.Strata

/-!
# The order of the strata

No rule depends on a rule of a later stratum. For this it is not needed that the collected
components are strongly connected: they only have to be disjoint, and every round takes components
that depend on no other component still there.

## Main statements

* `Walk.extends_visit`: what a walk finishes, it has not seen before;
* `DependencyGraph.pairwise_disjoint_stronglyConnected`: components have no rule in common;
* `DependencyGraph.pairwise_precedes_strata`: earlier strata do not depend on later ones;
* `DependencyGraph.mem_dependenciesOf_ofReliances`: the dependencies are the positive reliances.
-/

namespace ExistentialRules

/-! ## §1 Walks -/

namespace Walk

universe u

variable {α : Type u}

/-- The later walk has seen all that the earlier one has, and what it has finished since then, it
has first seen since then. -/
structure Extends (w w' : Walk α) : Prop where
  seen : ∀ x ∈ w.seen, x ∈ w'.seen
  finished : ∀ x ∈ w'.finished, x ∈ w.finished ∨ x ∉ w.seen ∧ x ∈ w'.seen

theorem Extends.refl (w : Walk α) : w.Extends w where
  seen := fun _ hx => hx
  finished := fun _ hx => Or.inl hx

theorem Extends.trans {w₁ w₂ w₃ : Walk α} (h₁₂ : w₁.Extends w₂) (h₂₃ : w₂.Extends w₃) :
    w₁.Extends w₃ where
  seen := fun x hx => h₂₃.seen x (h₁₂.seen x hx)
  finished := by
    intro x hx
    rcases h₂₃.finished x hx with hx | ⟨hnew, hseen⟩
    · exact (h₁₂.finished x hx).imp_right fun h => ⟨h.1, h₂₃.seen x h.2⟩
    · exact Or.inr ⟨fun hx => hnew (h₁₂.seen x hx), hseen⟩

/-- If every step extends the walk, then so do several steps in turn. -/
theorem extends_foldl {step : Walk α → α → Walk α}
    (hstep : ∀ (w : Walk α) (a : α), w.Extends (step w a)) (w : Walk α) (as : List α) :
    w.Extends (as.foldl step w) := by
  induction as generalizing w with
  | nil => exact .refl w
  | cons a as ih => exact (hstep w a).trans (ih (step w a))

/-- What a visit finishes, it has not seen before. -/
theorem extends_visit [DecidableEq α] (next : α → List α) (depth : Nat) (w : Walk α) (a : α) :
    w.Extends (w.visit next depth a) := by
  induction depth generalizing w a with
  | zero => exact .refl w
  | succ depth ih =>
    unfold visit
    split
    · exact .refl w
    · rename_i hnew
      -- By induction every visit of a successor extends the walk, and so do all of them in turn.
      have hsuccessors := extends_foldl ih { w with seen := a :: w.seen } (next a)
      refine ⟨fun x hx => hsuccessors.seen x (List.mem_cons_of_mem a hx), fun x hx => ?_⟩
      rcases List.mem_cons.1 hx with rfl | hx
      · exact Or.inr ⟨hnew, hsuccessors.seen x List.mem_cons_self⟩
      -- The node itself counts as seen when its successors are visited.
      · refine (hsuccessors.finished x hx).imp_right fun h => ⟨?_, h.2⟩
        exact fun hx => h.1 (List.mem_cons_of_mem a hx)

end Walk

namespace DependencyGraph

variable {g : DependencyGraph}

/-! ## §2 Components -/

/-- A component has no rule that was seen before it was collected, and none of another component. -/
theorem disjoint_collectFrom (seen rules : List Nat) :
    (∀ c ∈ g.collectFrom seen rules, c.Disjoint seen) ∧
      (g.collectFrom seen rules).Pairwise List.Disjoint := by
  -- By induction on the rules to start from; what was seen grows along the way.
  induction rules generalizing seen with
  | nil => simp [collectFrom]
  | cons rule rules ih =>
    rw [collectFrom]
    split
    · exact ih seen
    · have hwalk := Walk.extends_visit g.dependentsOf g.ruleCount ⟨seen, []⟩ rule
      obtain ⟨hlater, hpairwise⟩ := ih (Walk.visit g.dependentsOf g.ruleCount ⟨seen, []⟩ rule).seen
      -- What this walk finishes becomes one component; later walks start from what it has seen.
      have hfinished : ∀ x ∈ Ascending.ofList
            (Walk.visit g.dependentsOf g.ruleCount ⟨seen, []⟩ rule).finished,
          x ∉ seen ∧ x ∈ (Walk.visit g.dependentsOf g.ruleCount ⟨seen, []⟩ rule).seen := by
        intro x hx
        rw [Ascending.mem_ofList] at hx
        exact (hwalk.finished x hx).resolve_left (by simp)
      refine ⟨fun c hc => ?_, List.pairwise_cons.2 ⟨fun c hc x hx hxc => ?_, hpairwise⟩⟩
      · rcases List.mem_cons.1 hc with rfl | hc
        · exact fun x hx hseen => (hfinished x hx).1 hseen
        · exact fun x hx hseen => hlater c hc hx (hwalk.seen x hseen)
      · exact hlater c hc hxc (hfinished x hx).2

theorem pairwise_disjoint_stronglyConnected : g.stronglyConnected.Pairwise List.Disjoint :=
  (disjoint_collectFrom [] g.finishingOrder).2

/-! ## §3 Rounds -/

/-- No rule of the first stratum depends on a rule of the second. -/
def Precedes (g : DependencyGraph) (s t : Stratum) : Prop :=
  ∀ j ∈ s.rules, ∀ i ∈ t.rules, i ∉ g.dependenciesOf j

/-- Different components have no rule in common. -/
def Separate (pending : List Stratum) : Prop :=
  ∀ s ∈ pending, ∀ t ∈ pending, s ≠ t → s.rules.Disjoint t.rules

/-- A component is ready if what it depends on is its own or not there any more. -/
theorem isReady_iff {pending : List Stratum} {s : Stratum} :
    g.isReady pending s = true ↔
      ∀ j ∈ s.rules, ∀ d ∈ g.dependenciesOf j, ∀ t ∈ pending, d ∈ t.rules → d ∈ s.rules := by
  simp only [isReady, Bool.not_eq_true', ← Bool.not_eq_true, List.any_eq_true, Bool.and_eq_true,
    List.contains_iff_mem, not_exists, not_and, not_not]
  refine forall₄_congr fun j _ d _ => ?_
  simp only [forall_exists_index, and_imp]

/-- A component that is ready depends on no other component. -/
theorem precedes_of_isReady {pending : List Stratum} (hseparate : Separate pending)
    {s t : Stratum} (hs : s ∈ pending) (hready : g.isReady pending s = true) (ht : t ∈ pending)
    (hne : s ≠ t) : g.Precedes s t := by
  intro j hj i hi hdepends
  exact hseparate s hs t ht hne (isReady_iff.1 hready j hj i hdepends t ht hi) hi

/-- The strata of a round consist of the components that are ready. -/
theorem exists_of_mem_round {ready : List Stratum} {t : Stratum} (ht : t ∈ round ready) {i : Nat}
    (hi : i ∈ t.rules) : ∃ s ∈ ready, s.recursive = t.recursive ∧ i ∈ s.rules := by
  rcases List.mem_append.1 ht with ht | ht
  · split at ht
    · cases ht
    · rw [List.mem_singleton.1 ht, Ascending.mem_ofList] at hi
      obtain ⟨s, hs, hi⟩ := List.mem_flatMap.1 hi
      obtain ⟨hs, hflat⟩ := List.mem_filter.1 hs
      refine ⟨s, hs, ?_, hi⟩
      rw [List.mem_singleton.1 ht]
      simpa using hflat
  · obtain ⟨rules, hrules, rfl⟩ := List.mem_map.1 ht
    rw [Ascending.mem_ofList] at hrules
    obtain ⟨s, hs, rfl⟩ := List.mem_map.1 hrules
    obtain ⟨hs, hrecursive⟩ := List.mem_filter.1 hs
    exact ⟨s, hs, hrecursive, hi⟩

/-- No stratum of a round depends on another one of the round. -/
theorem pairwise_precedes_round {pending ready : List Stratum} (hseparate : Separate pending)
    (hready : ∀ s ∈ ready, s ∈ pending ∧ g.isReady pending s = true) :
    (round ready).Pairwise g.Precedes := by
  -- All components of a round are ready, so none depends on another.
  have hprecedes : ∀ s ∈ ready, ∀ t ∈ ready, s ≠ t → g.Precedes s t := by
    intro s hs t ht hne
    exact precedes_of_isReady hseparate (hready s hs).1 (hready s hs).2 (hready t ht).1 hne
  refine List.pairwise_append.2 ⟨?_, List.pairwise_map.2 ?_, fun s hs t ht j hj i hi => ?_⟩
  · split
    · exact List.Pairwise.nil
    · exact List.pairwise_singleton _ _
  -- Recursive components are listed once each, so any two of them are different.
  · refine (Ascending.strict_ofList _).imp_of_mem fun {rules rules'} hrules hrules' hlt => ?_
    rw [Ascending.mem_ofList] at hrules hrules'
    obtain ⟨s, hs, rfl⟩ := List.mem_map.1 hrules
    obtain ⟨t, ht, rfl⟩ := List.mem_map.1 hrules'
    have hne : s ≠ t := by
      intro heq
      rw [heq, Std.compare_self] at hlt
      cases hlt
    exact hprecedes s (List.mem_of_mem_filter hs) t (List.mem_of_mem_filter ht) hne
  -- One of the two strata is recursive and the other is not.
  · obtain ⟨s', hs', hsrec, hj⟩ := exists_of_mem_round (List.mem_append_left _ hs) hj
    obtain ⟨t', ht', htrec, hi⟩ := exists_of_mem_round (List.mem_append_right _ ht) hi
    have hflat : s.recursive = false := by
      split at hs
      · cases hs
      · rw [List.mem_singleton.1 hs]
    have hrecursive : t.recursive = true := by
      obtain ⟨rules, -, rfl⟩ := List.mem_map.1 ht
      rfl
    have hne : s' ≠ t' := by
      intro heq
      rw [heq, htrec, hrecursive, hflat] at hsrec
      cases hsrec
    exact hprecedes s' hs' t' ht' hne j hj i hi

/-- The strata of all rounds consist of the components. -/
theorem exists_of_mem_rounds {n : Nat} {pending : List Stratum} {t : Stratum}
    (ht : t ∈ g.rounds n pending) {i : Nat} (hi : i ∈ t.rules) :
    ∃ s ∈ pending, s.recursive = t.recursive ∧ i ∈ s.rules := by
  induction n generalizing pending with
  | zero => cases ht
  | succ n ih =>
    rcases List.mem_append.1 ht with ht | ht
    · obtain ⟨s, hs, hrecursive, hi⟩ := exists_of_mem_round ht hi
      exact ⟨s, List.mem_of_mem_filter hs, hrecursive, hi⟩
    · obtain ⟨s, hs, hrecursive, hi⟩ := ih ht
      exact ⟨s, List.mem_of_mem_filter hs, hrecursive, hi⟩

/-- No stratum depends on one of a later round either. -/
theorem pairwise_precedes_rounds (n : Nat) {pending : List Stratum}
    (hseparate : Separate pending) : (g.rounds n pending).Pairwise g.Precedes := by
  -- By induction on the number of rounds, for whatever is still there.
  induction n generalizing pending with
  | zero => exact List.Pairwise.nil
  | succ n ih =>
    refine List.pairwise_append.2 ⟨?_, ih ?_, fun s hs t ht j hj i hi => ?_⟩
    · exact pairwise_precedes_round hseparate fun s hs => List.mem_filter.1 hs
    · intro s hs t ht
      exact hseparate s (List.mem_of_mem_filter hs) t (List.mem_of_mem_filter ht)
    -- What is taken later was not ready, so it is another component.
    · obtain ⟨s', hs', -, hj⟩ := exists_of_mem_round hs hj
      obtain ⟨t', ht', -, hi⟩ := exists_of_mem_rounds ht hi
      obtain ⟨hs', hready⟩ := List.mem_filter.1 hs'
      obtain ⟨ht', hunready⟩ := List.mem_filter.1 ht'
      have hne : s' ≠ t' := by
        intro heq
        rw [heq] at hready
        simp [hready] at hunready
      exact precedes_of_isReady hseparate hs' hready ht' hne j hj i hi

/-- Different components have no rule in common, also when they are read as strata. -/
theorem separate_components : Separate (g.stronglyConnected.map g.componentStratum) := by
  intro s hs t ht hne
  obtain ⟨c, hc, rfl⟩ := List.mem_map.1 hs
  obtain ⟨d, hd, rfl⟩ := List.mem_map.1 ht
  have hcd : c ≠ d := by
    intro heq
    exact hne (by rw [heq])
  -- Disjointness is symmetric, so the order of the two components does not matter.
  have hsymm : Std.Symm fun c d : List Nat => c.Disjoint d := ⟨fun _ _ h _ hc hd => h hd hc⟩
  exact pairwise_disjoint_stronglyConnected.forall hc hd hcd

/-- Earlier strata do not depend on later ones. -/
theorem pairwise_precedes_strata (g : DependencyGraph) : g.strata.Pairwise g.Precedes :=
  pairwise_precedes_rounds _ separate_components

/-! ## §4 Dependencies -/

/-- The dependencies are the positive reliances. -/
theorem mem_dependenciesOf_ofReliances {N : RelianceNetwork} {i j : Nat} :
    i ∈ (ofReliances N).dependenciesOf j ↔
      j < N.ruleCount ∧ (⟨i, j, .positive⟩ : RelianceEdge) ∈ N.edges := by
  by_cases hj : j < N.ruleCount
  · simp only [dependenciesOf, dependenciesOf?, ofReliances, List.getElem?_map,
      List.getElem?_range hj, Option.map_some, Option.getD_some, RelianceNetwork.ofPolarity,
      List.mem_map, List.mem_filter, decide_eq_true_eq, hj, true_and]
    constructor
    · intro h
      obtain ⟨⟨_, _, _⟩, ⟨⟨he, rfl⟩, rfl⟩, rfl⟩ := h
      exact he
    · intro he
      exact ⟨_, ⟨⟨he, rfl⟩, rfl⟩, rfl⟩
  · simp [dependenciesOf, dependenciesOf?, ofReliances, hj]

end DependencyGraph

end ExistentialRules
