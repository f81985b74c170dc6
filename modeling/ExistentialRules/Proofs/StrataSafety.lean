import Mathlib.Logic.Relation
import ExistentialRules.Proofs.Origin
import ExistentialRules.Proofs.PositiveReliance
import ExistentialRules.Proofs.StrataOrder

/-!
# Strata are safe to chase in order

Once no rule of the first strata has anything to add, applications of rules of later strata do not
change this: a new unsatisfied match would be a positive reliance on a rule of a later stratum. The
rules that the analysis leaves out never have anything to add.

## Main definitions

* `Rule.Exhausted`: the rule has nothing to add;
* `Analysis.InStratum`, `Analysis.LaterStep`: the rules of a stratum and chase steps after it.

## Main statements

* `Rule.Unsatisfied.of_chaseStep`: only rules that are relied on can bring about an application;
* `Analysis.not_positivelyRelies`: no rule relies on a rule of a later stratum;
* `Analysis.exhausted_of_laterSteps`: earlier strata stay exhausted along every run.
-/

namespace ExistentialRules

/-! ## §1 One chase step -/

namespace Rule

/-- The rule has no unsatisfied match in the facts. -/
def Exhausted (r : Rule) (I : Finset Literal) : Prop :=
  ∀ h, ¬ r.Unsatisfied h I

/-- Terms that are fresh for some rules are fresh for fewer of them. -/
theorem FreshValues.of_subset {r : Rule} {rules rules' : List Rule} {I : Finset Literal}
    {n : Assignment} (hfresh : r.FreshValues rules I n) (hsubset : ∀ s ∈ rules', s ∈ rules) :
    r.FreshValues rules' I n where
  injective := hfresh.injective
  fresh := fun v hv =>
    ⟨(hfresh.fresh v hv).notMem,
      fun hrigid s hs => (hfresh.fresh v hv).not_mentions hrigid s (hsubset s hs)⟩

section Step

variable {r₁ r₂ : Rule} (hr₁ : r₁.WellFormed) (hr₂ : r₂.WellFormed) (hbody : r₂.body.length ≤ 67)
  {rules : List Rule} (hmem₁ : r₁ ∈ rules) (hmem₂ : r₂ ∈ rules) {config : Config}
  (hrelies : ¬ r₁.positivelyRelies r₂ config = true) {I J : Finset Literal}
  (hstep : ChaseStep rules r₁ I J)

include hr₁ hr₂ hbody hmem₁ hmem₂ hrelies hstep

/-- An unsatisfied match of a rule that does not rely on the applied rule was there before. -/
theorem Unsatisfied.of_chaseStep {h₂ : Assignment} (henabled : r₂.Unsatisfied h₂ J) :
    r₂.Unsatisfied h₂ I := by
  cases hstep with
  | @apply h₁ n hunsatisfied hfresh =>
    by_cases hold : r₂.Matches h₂ I
    -- A match that is satisfied by more facts only was not satisfied before.
    · exact ⟨hold, fun hsatisfied => henabled.2 (hsatisfied.mono Finset.subset_union_left)⟩
    -- A new match is one that the applied rule has brought about.
    · exfalso
      apply hrelies
      have hsubset : ∀ s ∈ [r₁, r₂], s ∈ rules := by
        intro s hs
        rcases List.mem_pair.1 hs with rfl | rfl
        · exact hmem₁
        · exact hmem₂
      exact positivelyRelies_of_triggers hr₁ hr₂ hbody config
        ⟨hunsatisfied, hfresh.of_subset hsubset, hold, henabled⟩

/-- A rule that does not rely on the applied rule has nothing to add afterwards if it had nothing to
add before. -/
theorem Exhausted.chaseStep (hexhausted : r₂.Exhausted I) : r₂.Exhausted J :=
  fun h₂ henabled =>
    hexhausted h₂ (henabled.of_chaseStep hr₁ hr₂ hbody hmem₁ hmem₂ hrelies hstep)

end Step

end Rule

namespace Analysis

/-! ## §2 The rules of an analysis -/

theorem mem_of_getElem?_rules {config : Config} {rules : List Rule} {i : Nat} {r : Rule}
    (hr : (ofRules rules config).rules[i]? = some r) : r ∈ rules := by
  have hmem := List.mem_of_getElem? hr
  rw [Analysis.rules, retained_ofRules] at hmem
  obtain ⟨⟨k, r'⟩, hretained, rfl⟩ := List.mem_map.1 hmem
  exact List.mem_of_getElem? (mem_retain.1 hretained).1

/-- A rule is left out only if it can never add anything. -/
theorem isApplicable_of_mem_dropped {config : Config} {rules : List Rule} {i : Nat}
    (hi : i ∈ (ofRules rules config).dropped) {r : Rule} (hr : rules[i]? = some r) :
    r.isApplicable = false := by
  obtain ⟨-, r', hr', hidle⟩ := mem_dropped_ofRules_iff.1 hi
  rw [hr] at hr'
  cases hr'
  exact hidle

/-! ## §3 Strata -/

/-- The rule belongs to the stratum of a certain number. -/
def InStratum (a : Analysis) (k : Nat) (r : Rule) : Prop :=
  ∃ stratum, a.stratumRules[k]? = some stratum ∧ r ∈ stratum

/-- A chase step by a rule of a stratum after the given one. The terms it introduces are fresh for
all rules. -/
def LaterStep (a : Analysis) (rules : List Rule) (s : Nat) (I J : Finset Literal) : Prop :=
  ∃ k > s, ∃ r, a.InStratum k r ∧ ChaseStep rules r I J

theorem InStratum.exists_index {a : Analysis} {k : Nat} {r : Rule} (hr : a.InStratum k r) :
    ∃ s, a.strata[k]? = some s ∧ ∃ i ∈ s.rules, a.rules[i]? = some r := by
  obtain ⟨stratum, hstratum, hr⟩ := hr
  rw [stratumRules, List.getElem?_map, Option.map_eq_some_iff] at hstratum
  obtain ⟨s, hs, rfl⟩ := hstratum
  exact ⟨s, hs, List.mem_filterMap.1 hr⟩

variable {rules : List Rule} {config : Config}

theorem InStratum.mem_rules {k : Nat} {r : Rule} (hr : (ofRules rules config).InStratum k r) :
    r ∈ rules := by
  obtain ⟨s, -, i, -, hi⟩ := hr.exists_index
  exact mem_of_getElem?_rules hi

/-- A reliance between analyzed rules is a dependency. -/
theorem mem_dependenciesOf_of_positivelyRelies {i₁ i₂ : Nat} {r₁ r₂ : Rule}
    (hr₁ : (ofRules rules config).rules[i₁]? = some r₁)
    (hr₂ : (ofRules rules config).rules[i₂]? = some r₂)
    (hrelies : r₁.positivelyRelies r₂ config = true) :
    i₁ ∈ (ofRules rules config).dependencies.dependenciesOf i₂ := by
  rw [dependencies_ofRules, DependencyGraph.mem_dependenciesOf_ofReliances, reliances_ofRules,
    RelianceNetwork.mem_edges_ofRules_iff, RelianceNetwork.ruleCount_ofRules]
  exact ⟨(List.getElem?_eq_some_iff.1 hr₂).1, r₁, r₂, hr₁, hr₂, hrelies⟩

/-- No rule relies positively on a rule of a later stratum. -/
theorem not_positivelyRelies {j k : Nat} {r₁ r₂ : Rule} (hjk : j < k)
    (hr₁ : (ofRules rules config).InStratum k r₁) (hr₂ : (ofRules rules config).InStratum j r₂) :
    ¬ r₁.positivelyRelies r₂ config = true := by
  intro hrelies
  obtain ⟨t, ht, i₁, hi₁, hr₁⟩ := hr₁.exists_index
  obtain ⟨s, hs, i₂, hi₂, hr₂⟩ := hr₂.exists_index
  obtain ⟨hk, rfl⟩ := List.getElem?_eq_some_iff.1 ht
  obtain ⟨hj, rfl⟩ := List.getElem?_eq_some_iff.1 hs
  -- Dependencies do not lead to later strata.
  have hstrata := DependencyGraph.pairwise_precedes_strata (ofRules rules config).dependencies
  rw [← strata_ofRules] at hstrata
  have hprecedes := List.pairwise_iff_getElem.1 hstrata j k hj hk hjk
  exact hprecedes i₂ hi₂ i₁ hi₁ (mem_dependenciesOf_of_positivelyRelies hr₁ hr₂ hrelies)

section Run

variable (hrules : ∀ r ∈ rules, r.WellFormed) (hbodies : ∀ r ∈ rules, r.body.length ≤ 67) {s : Nat}

include hrules hbodies

/-- One step of a later stratum gives the earlier ones nothing to add. -/
theorem exhausted_of_laterStep {I J : Finset Literal}
    (hexhausted : ∀ k ≤ s, ∀ r, (ofRules rules config).InStratum k r → r.Exhausted I)
    (hstep : (ofRules rules config).LaterStep rules s I J) :
    ∀ k ≤ s, ∀ r, (ofRules rules config).InStratum k r → r.Exhausted J := by
  intro j hj r₂ hr₂
  obtain ⟨k, hk, r₁, hr₁, hstep⟩ := hstep
  have hmem₁ := hr₁.mem_rules
  have hmem₂ := hr₂.mem_rules
  -- The rule is of an earlier stratum, so it does not rely on the one that is applied.
  have hrelies := not_positivelyRelies (Nat.lt_of_le_of_lt hj hk) hr₁ hr₂
  exact (hexhausted j hj r₂ hr₂).chaseStep (hrules r₁ hmem₁) (hrules r₂ hmem₂) (hbodies r₂ hmem₂)
    hmem₁ hmem₂ hrelies hstep

/-- Nor do several steps. -/
theorem exhausted_of_laterSteps {I J : Finset Literal}
    (hexhausted : ∀ k ≤ s, ∀ r, (ofRules rules config).InStratum k r → r.Exhausted I)
    (hrun : Relation.ReflTransGen ((ofRules rules config).LaterStep rules s) I J) :
    ∀ k ≤ s, ∀ r, (ofRules rules config).InStratum k r → r.Exhausted J := by
  -- By induction on the run, from its last step.
  induction hrun with
  | refl => exact hexhausted
  | tail _ hstep ih => exact exhausted_of_laterStep hrules hbodies ih hstep

end Run

/-- Suppose that no rule of the strata up to `s` has an unsatisfied match. Then, whatever rules of
later strata are applied, with terms that are fresh for the facts and for all given rules, there is
still no unsatisfied match of a rule of these strata, and none of a rule that was left out. -/
theorem exhausted_of_chase_laterStrata (hrules : ∀ r ∈ rules, r.WellFormed)
    (hbodies : ∀ r ∈ rules, r.body.length ≤ 67) {s : Nat} {I J : Finset Literal}
    (hexhausted : ∀ k ≤ s, ∀ r, (ofRules rules config).InStratum k r → r.Exhausted I)
    (hrun : Relation.ReflTransGen ((ofRules rules config).LaterStep rules s) I J) :
    (∀ k ≤ s, ∀ r, (ofRules rules config).InStratum k r → r.Exhausted J) ∧
      ∀ i ∈ (ofRules rules config).dropped, ∀ r, rules[i]? = some r → r.Exhausted J := by
  refine ⟨exhausted_of_laterSteps hrules hbodies hexhausted hrun, fun i hi r hr h henabled => ?_⟩
  -- A rule that was left out has no unsatisfied match in any facts.
  have hidle := isApplicable_of_mem_dropped hi hr
  have hwellFormed := hrules r (List.mem_of_getElem? hr)
  exact henabled.2 (Rule.satisfied_of_not_isApplicable hwellFormed hidle henabled.1)

/-! ### Students, persons and parents -/

/-- Every student is a person. -/
def studentIsPerson : Rule :=
  ⟨[⟨"student", [.universal "X"]⟩], [⟨"person", [.universal "X"]⟩]⟩

/-- Rules in two strata, and one that never has anything to add. -/
def familyRules : List Rule :=
  [studentIsPerson, .personHasParent,
    ⟨[⟨"person", [.universal "X"]⟩], [⟨"person", [.universal "X"]⟩]⟩]

/-- What is known of a student. -/
def studentFacts : Finset Literal :=
  {⟨"student", [.constant "ann"]⟩, ⟨"person", [.constant "ann"]⟩}

/-- The student has an unknown parent. -/
def parentFact : Literal :=
  ⟨"hasParent", [.constant "ann", .null "parent"]⟩

theorem stratumRules_familyRules :
    (ofRules familyRules .default).stratumRules = [[studentIsPerson], [.personHasParent]] := by
  decide +kernel

/-- The only student is known to be a person. -/
theorem studentIsPerson_exhausted : studentIsPerson.Exhausted studentFacts := by
  intro h henabled
  apply henabled.2
  have hstudent := henabled.1 ⟨"student", [.universal "X"]⟩ List.mem_cons_self
  have hann : h ⟨"X", .universal⟩ = .constant "ann" := by
    simpa [studentFacts, Literal.under, Literal.mapTerms, Term.universal] using hstudent
  have huniversal : (⟨"X", .universal⟩ : Variable) ∉ studentIsPerson.existentials := by decide
  refine ⟨h, fun l hl => ?_⟩
  rw [List.mem_singleton.1 hl]
  simp [studentFacts, Literal.under, Literal.mapTerms, Term.universal, Rule.extended, huniversal,
    hann]

/-- The unknown parent is fresh for every list of rules that does not mention it. -/
theorem chaseStep_studentFacts {rules : List Rule}
    (hrules : ∀ r ∈ rules, ¬ r.Mentions (.null "parent")) :
    ChaseStep rules .personHasParent studentFacts (studentFacts ∪ {parentFact}) := by
  have hmatches : Rule.personHasParent.Matches (fun _ => .constant "ann") studentFacts := by
    unfold Rule.Matches
    decide
  have hadds : ¬ Rule.personHasParent.Satisfied (fun _ => .constant "ann") studentFacts := by
    intro hsatisfied
    obtain ⟨n, hn⟩ := hsatisfied
    have hparent := hn _ List.mem_cons_self
    simp [studentFacts, Literal.under, Literal.mapTerms] at hparent
  have hfresh : Rule.personHasParent.FreshValues rules studentFacts fun _ => .null "parent" := by
    refine ⟨?_, fun v _ => ⟨?_, fun _ => hrules⟩⟩
    · decide
    · decide
  have hresult : Rule.personHasParent.result (fun _ => .constant "ann") (fun _ => .null "parent") =
      {parentFact} := by
    decide
  have hstep := ChaseStep.apply ⟨hmatches, hadds⟩ hfresh
  rwa [hresult] at hstep

/-- The rule about parents is in the second stratum and can be applied. -/
theorem laterStep_studentFacts :
    (ofRules familyRules .default).LaterStep familyRules 0 studentFacts
      (studentFacts ∪ {parentFact}) := by
  have hstratum : (ofRules familyRules .default).InStratum 1 .personHasParent :=
    ⟨[.personHasParent], by rw [stratumRules_familyRules]; rfl, List.mem_singleton_self _⟩
  have hnew : ∀ r ∈ familyRules, ¬ r.Mentions (.null "parent") := by
    unfold Rule.Mentions
    decide
  exact ⟨1, Nat.zero_lt_one, _, hstratum, chaseStep_studentFacts hnew⟩

/-- The unknown parent does not make anyone a student, and the rule that was left out still has
nothing to add. -/
theorem exhausted_of_chase_familyRules :
    (ofRules familyRules .default).LaterStep familyRules 0 studentFacts
        (studentFacts ∪ {parentFact}) ∧
      (∀ k ≤ 0, ∀ r, (ofRules familyRules .default).InStratum k r →
        r.Exhausted (studentFacts ∪ {parentFact})) ∧
      ∀ i ∈ (ofRules familyRules .default).dropped, ∀ r, familyRules[i]? = some r →
        r.Exhausted (studentFacts ∪ {parentFact}) := by
  have hexhausted : ∀ k ≤ 0, ∀ r, (ofRules familyRules .default).InStratum k r →
      r.Exhausted studentFacts := by
    intro k hk r hr
    obtain ⟨stratum, hstratum, hr⟩ := hr
    rw [Nat.le_zero.1 hk, stratumRules_familyRules] at hstratum
    cases hstratum
    rw [List.mem_singleton.1 hr]
    exact studentIsPerson_exhausted
  refine ⟨laterStep_studentFacts, ?_⟩
  exact exhausted_of_chase_laterStrata (by decide) (by decide) hexhausted
    (.single laterStep_studentFacts)

end Analysis

end ExistentialRules
