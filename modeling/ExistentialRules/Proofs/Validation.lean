import ExistentialRules.Proofs.Occurrence
import ExistentialRules.Proofs.Renumbering

/-!
# Which rules are accepted

A rule is accepted exactly if it is well formed. Any other gets one error, which says which of the
four conditions is the first to fail and names one variable: the first existential variable of the
body as the rule is read, the least name that is quantified both ways, or the least universal
variable of the head that is not bound.

`Rule.Blames` says this without the searches that find the variables. A search through an ascending
list finds the least variable, and a search through the body finds the one that is read first.

In an accepted rule every variable is universal or existential, and its name says which.

## Main definitions

* `Rule.FirstInBody`, `Rule.BothWays`, `Rule.Unbound`: what can be wrong with a variable;
* `Rule.Blames`: the error of a rule.

## Main statements

* `Rule.fault?_eq_some_iff`: which error is found;
* `Rule.ofLiterals_eq_ok_iff`: which rules are accepted;
* `Rule.WellFormed.union_universals_existentials`, `Rule.WellFormed.union_frontier_existentials`:
  the variables of an accepted rule;
* `Rule.ofLiterals_exact`: all of this.
-/

namespace ExistentialRules

open Std

theorem Variable.compare_of_quantifier_eq (a b : String) (q : Quantifier) :
    compare (⟨a, q⟩ : Variable) ⟨b, q⟩ = compare a b := by
  show (compare a b).then (compare q q) = compare a b
  rw [compare_self, Ordering.then_eq]

namespace Rule

/-! ## §1 Blame -/

/-- The variable is existential and stands in the body, before or at every other place at which an
existential variable stands. -/
def FirstInBody (r : Rule) (v : Variable) : Prop :=
  v.quantifier = .existential ∧ ∃ p ∈ r.placesOf v, p.literal.side = .body ∧
    ∀ w, w.quantifier = .existential → ∀ q ∈ r.placesOf w, (compare p q).isLE = true

/-- The name is quantified both ways. -/
def BothWays (r : Rule) (name : String) : Prop :=
  ⟨name, .existential⟩ ∈ r.allVariables ∧ ⟨name, .universal⟩ ∈ r.allVariables

/-- A universal variable of the head that the body does not bind. -/
def Unbound (r : Rule) (v : Variable) : Prop :=
  v ∈ r.headVariables ∧ v.quantifier = .universal ∧ v ∉ r.bodyVariables

/-- The error of a rule: the first condition that fails, and the variable that it fails for. -/
inductive Blames (r : Rule) : RuleError → Prop where
  | emptyHead (hhead : r.head = []) : Blames r (.emptyHead r)
  | bodyExistential {v : Variable} (hhead : r.head ≠ []) (hv : r.FirstInBody v) :
    Blames r (.bodyExistential r v)
  | bothQuantifiers {name : String} (hhead : r.head ≠ [])
    (hbody : ∀ v ∈ r.bodyVariables, v.quantifier = .universal) (hname : r.BothWays name)
    (hleast : ∀ other, r.BothWays other → (compare name other).isLE = true) :
    Blames r (.bothQuantifiers r ⟨name, .existential⟩)
  | unboundHeadVariable {v : Variable} (hhead : r.head ≠ [])
    (hbody : ∀ v ∈ r.bodyVariables, v.quantifier = .universal)
    (honce : ∀ name, ¬ r.BothWays name) (hv : r.Unbound v)
    (hleast : ∀ w, r.Unbound w → (compare v w).isLE = true) :
    Blames r (.unboundHeadVariable r v)

/-! ## §2 What the searches find -/

/-- The places of the body hold its arguments in order, and among them its variables. -/
theorem bodyVariables_eq_filterMap (r : Rule) :
    r.bodyVariables = (Side.body.places r.body).filterMap fun e => e.2.toVariable? :=
  calc r.bodyVariables
      = (r.body.flatMap Literal.arguments).filterMap Term.toVariable? :=
        List.filterMap_flatMap.symm
    _ = ((Side.body.places r.body).map Prod.snd).filterMap Term.toVariable? := by
        rw [Side.map_snd_places]
    _ = (Side.body.places r.body).filterMap fun e => e.2.toVariable? := List.filterMap_map

/-- The first existential variable of the body is the first one of the rule. -/
theorem bodyExistential?_eq_some_iff {r : Rule} {v : Variable} :
    r.bodyExistential? = some v ↔ r.FirstInBody v := by
  have hplaces : ∀ {w p}, p ∈ r.placesOf w ∧ p.literal.side = .body ↔
      (p, Term.var w) ∈ Side.body.places r.body := mem_placesOf_iff_mem_places
  have hexistential : ∀ t : Term, t.toVariable?.any Variable.isExistential = true ↔
      ∃ w, t = .var w ∧ w.quantifier = .existential := by
    intro t
    cases t <;> simp [Term.toVariable?, Variable.isExistential]
  -- The search goes along the variables, which are those at the places of the body.
  rw [bodyExistential?, bodyVariables_eq_filterMap, List.find?_filterMap, Option.bind_eq_some_iff]
  simp only [Ascending.find?_eq_some_iff (Side.pairwise_places .body r.body), hexistential]
  constructor
  · rintro ⟨⟨p, t⟩, ⟨hmem, ⟨u, rfl, hu⟩, hfirst⟩, ht⟩
    obtain rfl : u = v := Option.some.inj ht
    obtain ⟨hp, hbody⟩ := hplaces.2 hmem
    refine ⟨hu, p, hp, hbody, fun w hw q hq => ?_⟩
    -- The search has not looked at the head, but all its places come later.
    cases hside : q.literal.side with
    | body => exact hfirst _ (hplaces.1 ⟨hq, hside⟩) ⟨w, rfl, hw⟩
    | head =>
      rw [ArgumentPlace.compare_body_head hbody hside]
      rfl
  · rintro ⟨hv, p, hp, hbody, hfirst⟩
    refine ⟨(p, .var v), ⟨hplaces.1 ⟨hp, hbody⟩, ⟨v, rfl, hv⟩, ?_⟩, rfl⟩
    rintro ⟨q, t⟩ hq ⟨w, rfl, hw⟩
    exact hfirst w hw q (hplaces.2 hq).1

theorem strict_existentials (r : Rule) : Ascending.Strict r.existentials :=
  Ascending.strict_ofList _

theorem exists_name_of_mem_existentials {r : Rule} {v : Variable} (hv : v ∈ r.existentials) :
    ∃ name, v = ⟨name, .existential⟩ := by
  obtain ⟨name, q⟩ := v
  have hq : q = .existential := (mem_existentials.1 hv).2
  exact ⟨name, by rw [hq]⟩

theorem mem_universalNames {r : Rule} {name : String} :
    name ∈ r.universalNames ↔ ⟨name, .universal⟩ ∈ r.allVariables := by
  simp only [universalNames, List.mem_map, List.mem_filter, Variable.isUniversal,
    decide_eq_true_eq, allVariables, Ascending.mem_ofList]
  constructor
  · rintro ⟨⟨name', q⟩, ⟨hmem, rfl⟩, rfl⟩
    exact hmem
  · intro hmem
    exact ⟨_, ⟨hmem, rfl⟩, rfl⟩

section Body

variable {r : Rule} (hbody : ∀ v ∈ r.bodyVariables, v.quantifier = .universal)

include hbody

/-- If the body has no existential variable, then those of the rule are those of the head. -/
theorem bothWays_iff {name : String} :
    r.BothWays name ↔ ⟨name, .existential⟩ ∈ r.existentials ∧ name ∈ r.universalNames := by
  -- It cannot be the body that has the existential one.
  have hhead : (⟨name, .existential⟩ : Variable) ∈ r.allVariables ↔
      ⟨name, .existential⟩ ∈ r.existentials := by
    rw [mem_existentials, mem_allVariables, and_iff_left rfl, or_iff_right]
    intro hv
    cases hbody _ hv
  rw [BothWays, hhead, mem_universalNames]

/-- The least of the names that are quantified both ways is found. -/
theorem ambiguous?_eq_some_iff {v : Variable} :
    r.ambiguous? = some v ↔ ∃ name, r.BothWays name ∧
      (∀ other, r.BothWays other → (compare name other).isLE = true) ∧
        ⟨name, .existential⟩ = v := by
  rw [ambiguous?, Ascending.find?_eq_some_iff r.strict_existentials]
  simp only [List.contains_iff_mem]
  constructor
  · intro h
    obtain ⟨hv, hname, hleast⟩ := h
    obtain ⟨name, rfl⟩ := exists_name_of_mem_existentials hv
    refine ⟨name, (bothWays_iff hbody).2 ⟨hv, hname⟩, fun other hother => ?_, rfl⟩
    obtain ⟨hw, hwname⟩ := (bothWays_iff hbody).1 hother
    -- Variables of one quantifier go by their names.
    rw [← Variable.compare_of_quantifier_eq name other .existential]
    exact hleast _ hw hwname
  · intro h
    obtain ⟨name, hname, hleast, rfl⟩ := h
    obtain ⟨hv, huniversal⟩ := (bothWays_iff hbody).1 hname
    refine ⟨hv, huniversal, fun w hw hwname => ?_⟩
    obtain ⟨other, rfl⟩ := exists_name_of_mem_existentials hw
    rw [Variable.compare_of_quantifier_eq]
    exact hleast other ((bothWays_iff hbody).2 ⟨hw, hwname⟩)

/-- Nothing is found exactly if no name is quantified both ways. -/
theorem forall_not_bothWays_iff :
    (∀ name, ¬ r.BothWays name) ↔ r.ambiguous? = none := by
  rw [ambiguous?, List.find?_eq_none]
  simp only [bothWays_iff hbody, List.contains_iff_mem]
  constructor
  · intro h v hv hname
    obtain ⟨name, rfl⟩ := exists_name_of_mem_existentials hv
    exact h name ⟨hv, hname⟩
  · intro h name hname
    exact h _ hname.1 hname.2

end Body

/-- The least universal variable of the head that the body does not bind is found. -/
theorem unbound?_eq_some_iff {r : Rule} {v : Variable} :
    r.unbound? = some v ↔ r.Unbound v ∧ ∀ w, r.Unbound w → (compare v w).isLE = true := by
  rw [unbound?, Ascending.find?_eq_some_iff (Ascending.strict_ofList r.headVariables)]
  simp only [Ascending.mem_ofList, Variable.isUniversal, Bool.and_eq_true, decide_eq_true_eq,
    Bool.not_eq_true', ← Bool.not_eq_true, List.contains_iff_mem, Unbound, and_imp, and_assoc]

/-! ## §3 Acceptance -/

/-- The fault that is found is the one that the rule is to be blamed for. -/
theorem fault?_eq_some_iff {r : Rule} {e : RuleError} : r.fault? = some e ↔ r.Blames e := by
  unfold fault?
  split
  · rename_i hempty
    have hnil : r.head = [] := List.isEmpty_iff.1 hempty
    constructor
    · rintro ⟨⟩
      exact .emptyHead hnil
    · intro h
      cases h with
      | emptyHead => rfl
      | bodyExistential hhead => exact absurd hnil hhead
      | bothQuantifiers hhead => exact absurd hnil hhead
      | unboundHeadVariable hhead => exact absurd hnil hhead
  · rename_i hnonempty
    have hhead : r.head ≠ [] := fun hnil => hnonempty (List.isEmpty_iff.2 hnil)
    simp only [Option.or_eq_some_iff, Option.or_eq_none_iff, Option.map_eq_some_iff,
      Option.map_eq_none_iff, bodyExistential?_eq_some_iff, bodyExistential?_eq_none_iff]
    -- Each search is made only if those before it have found nothing.
    constructor
    · rintro ((⟨v, hv, rfl⟩ | ⟨hbody, v, hv, rfl⟩) | ⟨⟨hbody, honce⟩, v, hv, rfl⟩)
      · exact .bodyExistential hhead hv
      · obtain ⟨name, hname, hleast, rfl⟩ := (ambiguous?_eq_some_iff hbody).1 hv
        exact .bothQuantifiers hhead hbody hname hleast
      · obtain ⟨hv, hleast⟩ := unbound?_eq_some_iff.1 hv
        exact .unboundHeadVariable hhead hbody ((forall_not_bothWays_iff hbody).2 honce) hv hleast
    · intro h
      cases h with
      | emptyHead hnil => exact absurd hnil hhead
      | bodyExistential _ hv => exact Or.inl (Or.inl ⟨_, hv, rfl⟩)
      | bothQuantifiers _ hbody hname hleast =>
        have hfound := (ambiguous?_eq_some_iff hbody).2 ⟨_, hname, hleast, rfl⟩
        exact Or.inl (Or.inr ⟨hbody, _, hfound, rfl⟩)
      | unboundHeadVariable _ hbody honce hv hleast =>
        have hnone := (forall_not_bothWays_iff hbody).1 honce
        exact Or.inr ⟨⟨hbody, hnone⟩, _, unbound?_eq_some_iff.2 ⟨hv, hleast⟩, rfl⟩

/-- The conditions that a rule has to meet, in terms of names. -/
theorem wellFormed_iff {r : Rule} :
    r.WellFormed ↔
      r.head ≠ [] ∧ (∀ v ∈ r.bodyVariables, v.quantifier = .universal) ∧
        (∀ name, ¬ r.BothWays name) ∧
          ∀ v ∈ r.headVariables, v.quantifier = .universal → v ∈ r.bodyVariables := by
  constructor
  · intro hr
    have honce := (ambiguous?_eq_none_iff r).2 hr.quantified_once
    exact ⟨hr.head_ne_nil, hr.body_universal, (forall_not_bothWays_iff hr.body_universal).2 honce,
      hr.head_bound⟩
  · rintro ⟨hhead, hbody, honce, hbound⟩
    have hnone := (forall_not_bothWays_iff hbody).1 honce
    exact ⟨hhead, hbody, (ambiguous?_eq_none_iff r).1 hnone, hbound⟩

section Literals

variable {body head : List Literal}

/-- The well-formed rules are accepted as they are. -/
theorem ofLiterals_eq_ok_iff {r : Rule} :
    ofLiterals body head = .ok r ↔ r = ⟨body, head⟩ ∧ r.WellFormed := by
  unfold ofLiterals
  split
  · rename_i e hfault
    refine iff_of_false (by simp) ?_
    rintro ⟨rfl, hr⟩
    rw [(fault?_eq_none_iff _).2 hr] at hfault
    cases hfault
  · rename_i hfault
    have hr := (fault?_eq_none_iff _).1 hfault
    constructor
    · rintro ⟨⟩
      exact ⟨rfl, hr⟩
    · rintro ⟨rfl, -⟩
      rfl

/-- All other rules get the error that they are to be blamed for. -/
theorem ofLiterals_eq_error_iff {e : RuleError} :
    ofLiterals body head = .error e ↔ (Rule.mk body head).Blames e := by
  rw [← fault?_eq_some_iff, ofLiterals]
  cases (Rule.mk body head).fault? <;> simp

end Literals

/-! ## §4 The variables of an accepted rule -/

theorem mem_universals {r : Rule} {v : Variable} : v ∈ r.universals ↔ v ∈ r.bodyVariables := by
  rw [universals, Ascending.mem_ofList]

theorem mem_frontier {r : Rule} {v : Variable} :
    v ∈ r.frontier ↔ v ∈ r.headVariables ∧ v.quantifier = .universal ∧ v ∈ r.bodyVariables := by
  simp [frontier, Variable.isUniversal]

section Variables

variable {r : Rule} (hr : r.WellFormed)

include hr

theorem WellFormed.name_ne {v w : Variable} (hv : v ∈ r.universals) (hw : w ∈ r.existentials) :
    v.name ≠ w.name := by
  rw [mem_universals] at hv
  obtain ⟨hw, hex⟩ := mem_existentials.1 hw
  exact hr.quantified_once w hw hex v (List.mem_append_left _ hv) (hr.body_universal v hv)

theorem WellFormed.union_universals_existentials :
    Ascending.union r.universals r.existentials = r.allVariables := by
  apply (Ascending.strict_union _ r.strict_existentials).ext (Ascending.strict_ofList _)
  intro v
  rw [Ascending.mem_union, mem_universals]
  constructor
  · rintro (hv | hv)
    · exact mem_allVariables.2 (Or.inl hv)
    · exact mem_allVariables_of_mem_existentials hv
  · exact hr.mem_bodyVariables_or_existentials

theorem WellFormed.union_frontier_existentials :
    Ascending.union r.frontier r.existentials = Ascending.ofList r.headVariables := by
  apply (Ascending.strict_union _ r.strict_existentials).ext (Ascending.strict_ofList _)
  intro v
  rw [Ascending.mem_union, mem_frontier, mem_existentials, Ascending.mem_ofList]
  constructor
  · rintro (⟨hv, -⟩ | ⟨hv, -⟩) <;> exact hv
  · intro hv
    -- A universal variable of the head is bound by the body, hence in the frontier.
    cases hq : v.quantifier with
    | universal => exact Or.inl ⟨hv, rfl, hr.head_bound v hv hq⟩
    | existential => exact Or.inr ⟨hv, rfl⟩

end Variables

/-- For all lists of literals: the rule is accepted exactly if its head is not empty, no existential
variable occurs in its body, no name is quantified both ways, and the body binds the universal
variables of the head. Otherwise it gets the error for the first of these conditions that fails. In
an accepted rule, the universal and the existential variables have no name in common and are
together all variables, and the variables of the head are the frontier and the existential
variables. -/
theorem ofLiterals_exact (body head : List Literal) :
    let r : Rule := ⟨body, head⟩
    ((∃ r', ofLiterals body head = .ok r') ↔
      head ≠ [] ∧ (∀ v ∈ r.bodyVariables, v.quantifier = .universal) ∧
        (∀ name, ¬ r.BothWays name) ∧
          ∀ v ∈ r.headVariables, v.quantifier = .universal → v ∈ r.bodyVariables) ∧
    (∀ e, ofLiterals body head = .error e ↔ r.Blames e) ∧
    ∀ r', ofLiterals body head = .ok r' →
      r' = r ∧ r'.universals.Disjoint r'.existentials ∧
        (r'.universals.map Variable.name).Disjoint (r'.existentials.map Variable.name) ∧
        Ascending.union r'.universals r'.existentials = r'.allVariables ∧
        Ascending.union r'.frontier r'.existentials = Ascending.ofList r'.headVariables := by
  dsimp only
  refine ⟨?_, fun e => ofLiterals_eq_error_iff, fun r' hok => ?_⟩
  · simp only [ofLiterals_eq_ok_iff, exists_eq_left, wellFormed_iff]
  · obtain ⟨heq, hr⟩ := ofLiterals_eq_ok_iff.1 hok
    refine ⟨heq, fun v hv hw => hr.name_ne hv hw rfl, fun name hv hw => ?_,
      hr.union_universals_existentials, hr.union_frontier_existentials⟩
    obtain ⟨v, huniversal, rfl⟩ := List.mem_map.1 hv
    obtain ⟨w, hexistential, hname⟩ := List.mem_map.1 hw
    exact hr.name_ne huniversal hexistential hname.symm

/-- Of two conditions that fail, the first one gives the error, and of two names that are quantified
both ways the lesser one is blamed, not the one that is read first. -/
example :
    let body : List Literal := [⟨"knows", [.universal "Y", .universal "X"]⟩]
    let head : List Literal := [⟨"likes", [.existential "Y", .existential "X", .universal "Z"]⟩]
    ofLiterals body head = .error (.bothQuantifiers ⟨body, head⟩ ⟨"X", .existential⟩) := by
  decide

end Rule

end ExistentialRules
