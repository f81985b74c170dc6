import ExistentialRules.Proofs.Origin
import ExistentialRules.Proofs.StrataPartition

/-!
# The strata of a part of a graph

A part of a dependency graph that contains all that its rules depend on has the strata of the graph
without the other rules: these neither delay the rules of the part nor change their order.

The rounds over the part follow the rounds over the graph. A component of the graph lies in the part
or outside of it. One that lies in the part depends on nothing outside, so it is ready in the same
round.

## Main definitions

* `Stratum.restrictAll`: strata without some of the rules;
* `DependencyGraph.Embeds`: a part of a graph, with numbers of its own;
* `DependencyGraph.Corresponds`: the components of the graph and of the part that are still there.

## Main statements

* `DependencyGraph.Embeds.isReady_relabel`, `DependencyGraph.Corresponds.restrictAll_round`: one
  round;
* `DependencyGraph.Embeds.restrictAll_rounds`: all rounds;
* `DependencyGraph.Embeds.restrictAll_strata`: the strata.
-/

namespace ExistentialRules

/-! ## §1 Leaving out rules -/

namespace Stratum

/-- A stratum without the rules that lack a certain property. -/
def restrict (p : Nat → Bool) (s : Stratum) : Stratum :=
  ⟨s.rules.filter p, s.recursive⟩

/-- Leave out the rules without a certain property, and the strata of which nothing is left. -/
def restrictAll (p : Nat → Bool) (strata : List Stratum) : List Stratum :=
  (strata.map (restrict p)).filter fun s => !s.rules.isEmpty

variable (p : Nat → Bool)

theorem restrictAll_append (strata strata' : List Stratum) :
    restrictAll p (strata ++ strata') = restrictAll p strata ++ restrictAll p strata' := by
  rw [restrictAll, List.map_append, List.filter_append]
  rfl

/-- Of a stratum that is not recursive, what is left is not recursive; it goes if nothing is left.
-/
theorem restrictAll_flat (rules : List Nat) :
    restrictAll p (if rules.isEmpty then [] else [⟨rules, false⟩]) =
      if (rules.filter p).isEmpty then [] else [⟨rules.filter p, false⟩] := by
  cases rules with
  | nil => rfl
  | cons i rules =>
    show [(⟨(i :: rules).filter p, false⟩ : Stratum)].filter (fun s => !s.rules.isEmpty) = _
    cases (i :: rules).filter p with
    | nil => rfl
    | cons j kept => rfl

/-- Recursive strata are restricted like any family of sets. -/
theorem restrictAll_recursive (L : List (List Nat)) :
    restrictAll p (L.map fun rules => ⟨rules, true⟩) =
      (Ascending.restrict p L).map fun rules => ⟨rules, true⟩ := by
  rw [restrictAll, Ascending.restrict, List.map_map, List.filter_map, List.filter_map, List.map_map]
  rfl

theorem map_relabel_flat (f : Nat → Nat) (rules : List Nat) :
    (if rules.isEmpty then [] else [(⟨rules, false⟩ : Stratum)]).map (relabel f) =
      if (rules.map f).isEmpty then [] else [⟨rules.map f, false⟩] := by
  cases rules with
  | nil => rfl
  | cons i rules => rfl

end Stratum

namespace DependencyGraph

/-! ## §2 Parts -/

/-- The rules of the first graph, renumbered, are rules of the second one. They keep their order,
and their dependencies in the second graph are those in the first one. -/
structure Embeds (f : Nat → Nat) (g' g : DependencyGraph) : Prop where
  bounded' : g'.Bounded
  bounded : g.Bounded
  strictMono : StrictMonoOn f (Set.Iio g'.ruleCount)
  lt_ruleCount : ∀ i < g'.ruleCount, f i < g.ruleCount
  dependencies : ∀ j < g'.ruleCount, ∀ d,
    d ∈ g.dependenciesOf (f j) ↔ ∃ i, i ∈ g'.dependenciesOf j ∧ f i = d

section Embeds

variable {f : Nat → Nat} {g' g : DependencyGraph} (h : Embeds f g' g)

include h

/-- What a rule of the part depends on, through other rules, is in the part. -/
theorem Embeds.reaches_iff {i : Nat} (hi : i < g'.ruleCount) {a : Nat} :
    g.Reaches (f i) a ↔ ∃ j < g'.ruleCount, g'.Reaches i j ∧ f j = a :=
  reflTransGen_renumbered_iff (fun j _ k hk => h.bounded' j k hk) h.dependencies hi

theorem Embeds.reaches_renumbered_iff {i j : Nat} (hi : i < g'.ruleCount) (hj : j < g'.ruleCount) :
    g.Reaches (f i) (f j) ↔ g'.Reaches i j := by
  rw [h.reaches_iff hi]
  refine ⟨fun hreaches => ?_, fun hij => ⟨j, hj, hij, rfl⟩⟩
  obtain ⟨k, hk, hik, hkj⟩ := hreaches
  rwa [← h.strictMono.injOn hk hj hkj]

theorem Embeds.connected_renumbered_iff {i j : Nat} (hi : i < g'.ruleCount)
    (hj : j < g'.ruleCount) : g.Connected (f i) (f j) ↔ g'.Connected i j := by
  rw [Connected, Connected, h.reaches_renumbered_iff hi hj, h.reaches_renumbered_iff hj hi]

theorem Embeds.exists_of_connected {i a : Nat} (hi : i < g'.ruleCount)
    (hia : g.Connected (f i) a) : ∃ j < g'.ruleCount, f j = a := by
  obtain ⟨j, hj, -, hja⟩ := (h.reaches_iff hi).1 hia.1
  exact ⟨j, hj, hja⟩

/-- The components in the part are the components of the part. -/
theorem Embeds.isComponent_map_iff {c : List Nat} (hc : ∀ i ∈ c, i < g'.ruleCount) :
    g.IsComponent (c.map f) ↔ g'.IsComponent c := by
  -- Renumbering keeps rules apart, so that membership can be read on either side.
  have hmem : ∀ i < g'.ruleCount, f i ∈ c.map f ↔ i ∈ c :=
    fun i hi => Ascending.mem_map_iff_of_lt h.strictMono hc hi
  refine ⟨fun hcomponent => ?_, fun hcomponent => ?_⟩
  · refine ⟨fun hnil => hcomponent.nonempty (by rw [hnil, List.map_nil]), hc, fun i hi j => ?_⟩
    have hclass := hcomponent.mem_iff (f i) (List.mem_map_of_mem hi) (f j)
    refine ⟨fun hj => ?_, fun hij => ?_⟩
    · rw [← h.connected_renumbered_iff (hc i hi) (hc j hj), ← hclass]
      exact List.mem_map_of_mem hj
    · have hj : j < g'.ruleCount := hij.1.lt_ruleCount h.bounded' (hc i hi)
      rw [← hmem j hj, hclass, h.connected_renumbered_iff (hc i hi) hj]
      exact hij
  · obtain ⟨i, hi⟩ := List.exists_mem_of_ne_nil c hcomponent.nonempty
    apply isComponent_of_connected_iff h.bounded (h.lt_ruleCount i (hc i hi))
    intro a
    refine ⟨fun ha => ?_, fun hia => ?_⟩
    · obtain ⟨j, hj, rfl⟩ := List.mem_map.1 ha
      exact (h.connected_renumbered_iff (hc i hi) (hc j hj)).2 ((hcomponent.mem_iff i hi j).1 hj)
    · obtain ⟨j, hj, rfl⟩ := h.exists_of_connected (hc i hi) hia
      rw [hmem j hj, hcomponent.mem_iff i hi]
      exact (h.connected_renumbered_iff (hc i hi) hj).1 hia

/-- A component is recursive in the part exactly if it is in the graph. -/
theorem Embeds.componentStratum_map {c : List Nat} (hc : ∀ i ∈ c, i < g'.ruleCount) :
    g.componentStratum (c.map f) = (g'.componentStratum c).relabel f := by
  -- Only a single rule has to be looked at; several rules are recursive in any case.
  match c, hc with
  | [], _ => rfl
  | [i], hc =>
    have hi := hc i (List.mem_singleton_self i)
    have hself : (g.dependenciesOf (f i)).contains (f i) = (g'.dependenciesOf i).contains i := by
      rw [Bool.eq_iff_iff, List.contains_iff_mem, List.contains_iff_mem, h.dependencies i hi]
      refine ⟨fun hdepends => ?_, fun hdepends => ⟨i, hdepends, rfl⟩⟩
      obtain ⟨j, hj, hji⟩ := hdepends
      rwa [h.strictMono.injOn (h.bounded' i j hj) hi hji] at hj
    exact congrArg (Stratum.mk [f i]) hself
  | _ :: _ :: _, _ => rfl

end Embeds

/-! ## §3 One round -/

/-- The components still there in a graph and in a part of it. Those of the graph lie in the part or
outside of it, and the ones in the part are those of the part. -/
structure Corresponds (f : Nat → Nat) (m : Nat) (p : Nat → Bool) (pending pending' : List Stratum) :
    Prop where
  below : ∀ s ∈ pending', ∀ i ∈ s.rules, i < m
  whole : ∀ s ∈ pending,
    s.rules ≠ [] ∧ ((∀ i ∈ s.rules, p i = true) ∨ ∀ i ∈ s.rules, p i = false)
  mem_iff : ∀ s, (s ∈ pending ∧ ∀ i ∈ s.rules, p i = true) ↔ ∃ s' ∈ pending', s'.relabel f = s

section Corresponds

variable {f : Nat → Nat} {m : Nat} {p : Nat → Bool} {pending pending' : List Stratum}
  (h : Corresponds f m p pending pending')

include h

theorem Corresponds.exists_of_mem {s : Stratum} (hs : s ∈ pending) {i : Nat} (hi : i ∈ s.rules)
    (hp : p i = true) : ∃ s' ∈ pending', s'.relabel f = s := by
  refine (h.mem_iff s).1 ⟨hs, (h.whole s hs).2.resolve_right fun hnone => ?_⟩
  rw [hnone i hi] at hp
  cases hp

/-- A choice that both sides agree on leaves lists that correspond. -/
theorem Corresponds.filter {q q' : Stratum → Bool}
    (hq : ∀ s ∈ pending', q (s.relabel f) = q' s) :
    Corresponds f m p (pending.filter q) (pending'.filter q') where
  below := fun s hs => h.below s (List.mem_of_mem_filter hs)
  whole := fun s hs => h.whole s (List.mem_of_mem_filter hs)
  mem_iff := by
    intro s
    refine ⟨fun hs => ?_, fun hs => ?_⟩
    · obtain ⟨hmem, hall⟩ := hs
      obtain ⟨hmem, hqs⟩ := List.mem_filter.1 hmem
      obtain ⟨s', hs', rfl⟩ := (h.mem_iff s).1 ⟨hmem, hall⟩
      exact ⟨s', List.mem_filter.2 ⟨hs', hq s' hs' ▸ hqs⟩, rfl⟩
    · obtain ⟨s', hs', rfl⟩ := hs
      obtain ⟨hs', hqs'⟩ := List.mem_filter.1 hs'
      obtain ⟨hmem, hall⟩ := (h.mem_iff (s'.relabel f)).2 ⟨s', hs', rfl⟩
      exact ⟨List.mem_filter.2 ⟨hmem, (hq s' hs').trans hqs'⟩, hall⟩

variable (hf : StrictMonoOn f (Set.Iio m))

include hf

/-- The rules of all components together, without those outside the part. -/
theorem Corresponds.filter_flat :
    (Ascending.ofList (pending.flatMap Stratum.rules)).filter p =
      (Ascending.ofList (pending'.flatMap Stratum.rules)).map f := by
  have hbelow : ∀ i ∈ Ascending.ofList (pending'.flatMap Stratum.rules), i < m := by
    intro i hi
    rw [Ascending.mem_ofList] at hi
    obtain ⟨s, hs, hi⟩ := List.mem_flatMap.1 hi
    exact h.below s hs i hi
  apply Ascending.Strict.ext (List.Pairwise.filter _ (Ascending.strict_ofList _))
    ((Ascending.strict_ofList _).map_below hf hbelow)
  intro a
  simp only [List.mem_filter, List.mem_map, Ascending.mem_ofList, List.mem_flatMap]
  refine ⟨fun ha => ?_, fun ha => ?_⟩
  · obtain ⟨⟨s, hs, ha⟩, hp⟩ := ha
    obtain ⟨s', hs', rfl⟩ := h.exists_of_mem hs ha hp
    obtain ⟨i, hi, rfl⟩ := List.mem_map.1 ha
    exact ⟨i, ⟨s', hs', hi⟩, rfl⟩
  · obtain ⟨i, ⟨s', hs', hi⟩, rfl⟩ := ha
    obtain ⟨hmem, hall⟩ := (h.mem_iff (s'.relabel f)).2 ⟨s', hs', rfl⟩
    have hi' : f i ∈ (s'.relabel f).rules := List.mem_map_of_mem hi
    exact ⟨⟨_, hmem, hi'⟩, hall _ hi'⟩

/-- The families of components, without those outside the part. -/
theorem Corresponds.restrict_rules :
    Ascending.restrict p (Ascending.ofList (pending.map Stratum.rules)) =
      (Ascending.ofList (pending'.map Stratum.rules)).map (List.map f) := by
  apply Ascending.restrict_eq_map hf (Ascending.strict_ofList _) (Ascending.strict_ofList _)
  · intro c hc
    rw [Ascending.mem_ofList] at hc
    obtain ⟨s, hs, rfl⟩ := List.mem_map.1 hc
    exact h.whole s hs
  · intro c hc
    rw [Ascending.mem_ofList] at hc
    obtain ⟨s, hs, rfl⟩ := List.mem_map.1 hc
    exact h.below s hs
  · intro c
    simp only [Ascending.mem_ofList, List.mem_map, exists_exists_and_eq_and]
    refine ⟨fun hc => ?_, fun hc => ?_⟩
    · obtain ⟨⟨s, hs, rfl⟩, hall⟩ := hc
      obtain ⟨s', hs', rfl⟩ := (h.mem_iff s).1 ⟨hs, hall⟩
      exact ⟨s', hs', rfl⟩
    · obtain ⟨s', hs', rfl⟩ := hc
      obtain ⟨hmem, hall⟩ := (h.mem_iff (s'.relabel f)).2 ⟨s', hs', rfl⟩
      exact ⟨⟨_, hmem, rfl⟩, hall⟩

/-- The strata of a round over the part are those of a round over the graph. -/
theorem Corresponds.restrictAll_round :
    Stratum.restrictAll p (round pending) = (round pending').map (.relabel f) := by
  -- The two kinds of components are chosen by their marks, which renumbering keeps.
  have hflat : Corresponds f m p (pending.filter fun s => !s.recursive)
      (pending'.filter fun s => !s.recursive) := h.filter fun _ _ => rfl
  have hrecursive : Corresponds f m p (pending.filter fun s => s.recursive)
      (pending'.filter fun s => s.recursive) := h.filter fun _ _ => rfl
  unfold round
  dsimp only
  rw [Stratum.restrictAll_append, Stratum.restrictAll_flat, Stratum.restrictAll_recursive,
    hflat.filter_flat hf, hrecursive.restrict_rules hf, List.map_append, Stratum.map_relabel_flat,
    List.map_map, List.map_map]
  rfl

end Corresponds

/-! ## §4 All rounds -/

section Rounds

variable {f : Nat → Nat} {g' g : DependencyGraph} (h : Embeds f g' g) {p : Nat → Bool}

include h

/-- A component in the part waits for others in the part only. -/
theorem Embeds.isReady_relabel {pending pending' : List Stratum}
    (hcorresponds : Corresponds f g'.ruleCount p pending pending')
    (hp : ∀ i < g'.ruleCount, p (f i) = true) {s : Stratum} (hs : s ∈ pending') :
    g.isReady pending (s.relabel f) = g'.isReady pending' s := by
  have hbelow := hcorresponds.below
  have hmem : ∀ t ∈ pending', ∀ i < g'.ruleCount, f i ∈ (t.relabel f).rules ↔ i ∈ t.rules :=
    fun t ht i hi => Ascending.mem_map_iff_of_lt h.strictMono (hbelow t ht) hi
  rw [Bool.eq_iff_iff, isReady_iff, isReady_iff]
  refine ⟨fun hready j hj d hd t ht hdt => ?_, fun hready b hb a ha t ht hat => ?_⟩
  · have hlt : d < g'.ruleCount := h.bounded' j d hd
    have hdepends : f d ∈ g.dependenciesOf (f j) :=
      (h.dependencies j (hbelow s hs j hj) _).2 ⟨d, hd, rfl⟩
    rw [← hmem s hs d hlt]
    apply hready (f j) (List.mem_map_of_mem hj) (f d) hdepends (t.relabel f)
    · exact ((hcorresponds.mem_iff (t.relabel f)).2 ⟨t, ht, rfl⟩).1
    · exact (hmem t ht d hlt).2 hdt
  -- What a rule of the part depends on is in the part, and so is the component that it belongs to.
  · obtain ⟨j, hj, rfl⟩ := List.mem_map.1 hb
    obtain ⟨d, hd, rfl⟩ := (h.dependencies j (hbelow s hs j hj) _).1 ha
    have hlt : d < g'.ruleCount := h.bounded' j d hd
    obtain ⟨t', ht', rfl⟩ := hcorresponds.exists_of_mem ht hat (hp d hlt)
    rw [hmem t' ht' d hlt] at hat
    exact (hmem s hs d hlt).2 (hready j hj d hd t' ht' hat)

/-- By induction on the rounds: what is left of the graph and of the part corresponds again. -/
theorem Embeds.restrictAll_rounds (n : Nat) {pending pending' : List Stratum}
    (hcorresponds : Corresponds f g'.ruleCount p pending pending')
    (hp : ∀ i < g'.ruleCount, p (f i) = true) :
    Stratum.restrictAll p (g.rounds n pending) = (g'.rounds n pending').map (.relabel f) := by
  induction n generalizing pending pending' with
  | zero => rfl
  | succ n ih =>
    have hready : ∀ s ∈ pending', g.isReady pending (s.relabel f) = g'.isReady pending' s :=
      fun s hs => h.isReady_relabel hcorresponds hp hs
    rw [rounds, rounds, Stratum.restrictAll_append, List.map_append,
      (hcorresponds.filter hready).restrictAll_round h.strictMono, ih]
    exact hcorresponds.filter fun s hs => congrArg (! ·) (hready s hs)

variable (hp : ∀ a < g.ruleCount, p a = true ↔ ∃ i < g'.ruleCount, f i = a)

include hp

/-- A component lies in the part or outside of it. -/
theorem Embeds.whole_of_isComponent {c : List Nat} (hc : g.IsComponent c) :
    c ≠ [] ∧ ((∀ i ∈ c, p i = true) ∨ ∀ i ∈ c, p i = false) := by
  -- Connected rules are on the same side.
  have hside : ∀ a ∈ c, ∀ b ∈ c, p a = true → p b = true := by
    intro a ha b hb hpa
    obtain ⟨i, hi, rfl⟩ := (hp a (hc.lt_ruleCount a ha)).1 hpa
    rw [hp b (hc.lt_ruleCount b hb)]
    exact h.exists_of_connected hi ((hc.mem_iff (f i) ha b).1 hb)
  refine ⟨hc.nonempty, ?_⟩
  obtain ⟨a, ha⟩ := List.exists_mem_of_ne_nil c hc.nonempty
  cases hpa : p a with
  | true => exact Or.inl fun b hb => hside a ha b hb hpa
  | false =>
    refine Or.inr fun b hb => Bool.eq_false_iff.2 fun hpb => ?_
    rw [hside b hb a ha hpb] at hpa
    cases hpa

/-- At the start, the components of the graph and of the part correspond. -/
theorem Embeds.corresponds_components :
    Corresponds f g'.ruleCount p (g.stronglyConnected.map g.componentStratum)
      (g'.stronglyConnected.map g'.componentStratum) where
  below := by
    intro s hs
    obtain ⟨c, hc, rfl⟩ := List.mem_map.1 hs
    exact (isComponent_of_mem_stronglyConnected h.bounded' hc).lt_ruleCount
  whole := by
    intro s hs
    obtain ⟨c, hc, rfl⟩ := List.mem_map.1 hs
    exact h.whole_of_isComponent hp (isComponent_of_mem_stronglyConnected h.bounded hc)
  mem_iff := by
    intro s
    refine ⟨fun hs => ?_, fun hs => ?_⟩
    -- A component with all its rules in the part is a renumbered list, and as such a component of
    -- the part.
    · obtain ⟨hmem, hall⟩ := hs
      obtain ⟨c, hc, rfl⟩ := List.mem_map.1 hmem
      obtain ⟨hstrict, hcomponent⟩ := (mem_stronglyConnected h.bounded).1 hc
      obtain ⟨c', hstrict', hbelow, rfl⟩ := hstrict.exists_map_eq h.strictMono
        fun a ha => (hp a (hcomponent.lt_ruleCount a ha)).1 (hall a ha)
      rw [h.isComponent_map_iff hbelow] at hcomponent
      refine ⟨g'.componentStratum c', List.mem_map_of_mem ?_, (h.componentStratum_map hbelow).symm⟩
      exact (mem_stronglyConnected h.bounded').2 ⟨hstrict', hcomponent⟩
    · obtain ⟨s', hs', rfl⟩ := hs
      obtain ⟨c, hc, rfl⟩ := List.mem_map.1 hs'
      obtain ⟨hstrict, hcomponent⟩ := (mem_stronglyConnected h.bounded').1 hc
      have hbelow := hcomponent.lt_ruleCount
      rw [← h.componentStratum_map hbelow]
      refine ⟨List.mem_map_of_mem ((mem_stronglyConnected h.bounded).2
        ⟨hstrict.map_below h.strictMono hbelow, (h.isComponent_map_iff hbelow).2 hcomponent⟩), ?_⟩
      intro a ha
      obtain ⟨i, hi, rfl⟩ := List.mem_map.1 ha
      exact (hp _ (h.lt_ruleCount i (hbelow i hi))).2 ⟨i, hbelow i hi, rfl⟩

/-- The strata of a part that contains all that its rules depend on are those of the graph without
the other rules. -/
theorem Embeds.restrictAll_strata :
    Stratum.restrictAll p g.strata = g'.strata.map (.relabel f) := by
  have hkept : ∀ i < g'.ruleCount, p (f i) = true :=
    fun i hi => (hp _ (h.lt_ruleCount i hi)).2 ⟨i, hi, rfl⟩
  have hrounds := h.restrictAll_rounds
    ((g.stronglyConnected.map g.componentStratum).length +
      (g'.stronglyConnected.map g'.componentStratum).length) (h.corresponds_components hp) hkept
  -- Both graphs are done after as many rounds as both have components.
  rw [rounds_add _ (fun s => isComponent_of_mem_components h.bounded) le_rfl, Nat.add_comm,
    rounds_add _ (fun s => isComponent_of_mem_components h.bounded') le_rfl] at hrounds
  exact hrounds

end Rounds

end DependencyGraph

end ExistentialRules
