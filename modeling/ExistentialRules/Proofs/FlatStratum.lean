import Mathlib.Algebra.Order.BigOperators.Group.List
import Mathlib.Data.Set.Card
import Mathlib.Data.Set.Finite.List
import ExistentialRules.Proofs.NegativeReliance
import ExistentialRules.Proofs.StrataPartition
import ExistentialRules.Proofs.StrataSafety

/-!
# Strata that need no fixpoint

The rules of a stratum that is not recursive do not rely on each other or on themselves. So no
application of one of them brings about a new unsatisfied match of any of them, while the match at
which the rule is applied becomes satisfied: the number of unsatisfied matches goes down, and it
bounds the number of applications.

## Main definitions

* `Rule.openMatches`, `Rule.openCount`: the unsatisfied matches of a rule and their number;
* `openTotal`: their number for several rules together;
* `StepBy`: a chase step by one of several rules.

## Main statements

* `Rule.finite_openMatches`: there are finitely many unsatisfied matches;
* `Analysis.not_positivelyRelies_of_flat`: no reliance inside a stratum that is not recursive;
* `openTotal_lt_of_stepBy`, `length_le_openTotal`: one step, and a run;
* `Analysis.openTotal_bounds_chase`: the same for the rules of a stratum that is not recursive.
-/

namespace ExistentialRules

/-! ## §1 Counting unsatisfied matches -/

namespace Rule

/-- What an assignment gives to the variables of the body. -/
def bodyValues (r : Rule) (h : Assignment) : {v // v ∈ r.bodyVariables} → Term :=
  fun v => h v

/-- The unsatisfied matches of the rule, as maps from the variables of its body to terms. -/
def openMatches (r : Rule) (I : Finset Literal) : Set ({v // v ∈ r.bodyVariables} → Term) :=
  {m | ∃ h, r.Unsatisfied h I ∧ r.bodyValues h = m}

/-- The number of unsatisfied matches of the rule. -/
noncomputable def openCount (r : Rule) (I : Finset Literal) : Nat :=
  (r.openMatches I).ncard

/-- Only the values of the body's variables decide whether an assignment is an unsatisfied match. -/
theorem bodyValues_mem_openMatches_iff {r : Rule} (hr : r.WellFormed) {h : Assignment}
    {I : Finset Literal} : r.bodyValues h ∈ r.openMatches I ↔ r.Unsatisfied h I := by
  refine ⟨fun hopen => ?_, fun hopen => ⟨h, hopen, rfl⟩⟩
  -- The match that was counted has the same values, so it is open or not together with this one.
  obtain ⟨k, hk, hvalues⟩ := hopen
  have heq : ∀ v ∈ r.bodyVariables, k v = h v := fun v hv => congrFun hvalues ⟨v, hv⟩
  refine ⟨hk.1.congr heq, fun hsatisfied => hk.2 ?_⟩
  exact hsatisfied.congr hr fun v hv => (heq v hv).symm

/-- The values of a match are terms of the facts, of which there are finitely many. -/
theorem finite_openMatches (r : Rule) (I : Finset Literal) : (r.openMatches I).Finite := by
  have hvariables : Finite {v // v ∈ r.bodyVariables} :=
    (List.finite_toSet r.bodyVariables).to_subtype
  -- There are finitely many maps from finitely many variables to finitely many terms.
  have hbounded : {m : {v // v ∈ r.bodyVariables} → Term |
      ∀ v, m v ∈ I.biUnion fun l => l.arguments.toFinset}.Finite :=
    Set.Finite.pi' fun _ => Finset.finite_toSet _
  refine hbounded.subset fun m hm v => ?_
  obtain ⟨h, hopen, rfl⟩ := hm
  obtain ⟨l, hl, hv⟩ := mem_bodyVariables.1 v.2
  rw [Finset.mem_biUnion]
  refine ⟨_, hopen.1 l hl, List.mem_toFinset.2 ?_⟩
  exact Literal.mem_arguments_under_of_mem hv

end Rule

/-- A chase step satisfies the match at which the rule is applied. -/
theorem ChaseStep.exists_satisfied {rules : List Rule} {r : Rule} {I J : Finset Literal}
    (hstep : ChaseStep rules r I J) : ∃ h, r.Unsatisfied h I ∧ r.Satisfied h J := by
  cases hstep with
  | @apply h n hopen _ =>
    refine ⟨h, hopen, n, fun l hl => Finset.mem_union_right I ?_⟩
    exact Rule.mem_result.2 ⟨l, hl, rfl⟩

namespace Rule

section Step

variable {r₁ r₂ : Rule} (hr₁ : r₁.WellFormed) (hr₂ : r₂.WellFormed) (hbody : r₂.body.length ≤ 67)
  {rules : List Rule} (hmem₁ : r₁ ∈ rules) (hmem₂ : r₂ ∈ rules) {config : Config}
  (hrelies : ¬ r₁.positivelyRelies r₂ config = true) {I J : Finset Literal}
  (hstep : ChaseStep rules r₁ I J)

include hr₁ hr₂ hbody hmem₁ hmem₂ hrelies hstep

/-- A step by a rule on which another one does not rely opens no match of the latter. -/
theorem openMatches_subset_of_chaseStep : r₂.openMatches J ⊆ r₂.openMatches I := by
  intro m hm
  obtain ⟨h, hopen, rfl⟩ := hm
  exact ⟨h, hopen.of_chaseStep hr₁ hr₂ hbody hmem₁ hmem₂ hrelies hstep, rfl⟩

theorem openCount_le_of_chaseStep : r₂.openCount J ≤ r₂.openCount I :=
  Set.ncard_le_ncard
    (openMatches_subset_of_chaseStep hr₁ hr₂ hbody hmem₁ hmem₂ hrelies hstep)
    (r₂.finite_openMatches I)

end Step

/-- An application of a rule that does not rely on itself leaves it fewer unsatisfied matches. -/
theorem openCount_lt_of_chaseStep {r : Rule} (hr : r.WellFormed) (hbody : r.body.length ≤ 67)
    {rules : List Rule} (hmem : r ∈ rules) {config : Config}
    (hrelies : ¬ r.positivelyRelies r config = true) {I J : Finset Literal}
    (hstep : ChaseStep rules r I J) : r.openCount J < r.openCount I := by
  have hsubset := openMatches_subset_of_chaseStep hr hr hbody hmem hmem hrelies hstep
  obtain ⟨h, hopen, hsatisfied⟩ := hstep.exists_satisfied
  -- The match at which the rule was applied is not open any more.
  refine Set.ncard_lt_ncard ((Set.ssubset_iff_of_subset hsubset).2 ⟨r.bodyValues h, ?_, ?_⟩)
    (r.finite_openMatches I)
  · exact (bodyValues_mem_openMatches_iff hr).2 hopen
  · intro hstill
    exact ((bodyValues_mem_openMatches_iff hr).1 hstill).2 hsatisfied

end Rule

/-! ## §2 Runs of several rules -/

/-- The number of unsatisfied matches of several rules, where a rule counts as often as it is
listed. -/
noncomputable def openTotal (members : List Rule) (I : Finset Literal) : Nat :=
  (members.map fun r => r.openCount I).sum

/-- A chase step by one of the members. The terms it introduces are fresh for all rules. -/
def StepBy (rules members : List Rule) (I J : Finset Literal) : Prop :=
  ∃ r ∈ members, ChaseStep rules r I J

section Run

variable {rules members : List Rule} (hrules : ∀ r ∈ rules, r.WellFormed)
  (hbodies : ∀ r ∈ rules, r.body.length ≤ 67) (hmembers : ∀ r ∈ members, r ∈ rules)
  {config : Config}
  (hrelies : ∀ r₁ ∈ members, ∀ r₂ ∈ members, ¬ r₁.positivelyRelies r₂ config = true)

include hrules hbodies hmembers hrelies

/-- Among rules that do not rely on each other, every step leaves fewer unsatisfied matches. -/
theorem openTotal_lt_of_stepBy {I J : Finset Literal} (hstep : StepBy rules members I J) :
    openTotal members J < openTotal members I := by
  obtain ⟨r₁, hr₁, hstep⟩ := hstep
  have hmem₁ := hmembers r₁ hr₁
  -- The rule that is applied loses a match, and no member gains one.
  refine List.sum_lt_sum _ _ (fun r₂ hr₂ => ?_) ⟨r₁, hr₁, ?_⟩
  · have hmem₂ := hmembers r₂ hr₂
    exact Rule.openCount_le_of_chaseStep (hrules r₁ hmem₁) (hrules r₂ hmem₂) (hbodies r₂ hmem₂)
      hmem₁ hmem₂ (hrelies r₁ hr₁ r₂ hr₂) hstep
  · exact Rule.openCount_lt_of_chaseStep (hrules r₁ hmem₁) (hbodies r₁ hmem₁) hmem₁
      (hrelies r₁ hr₁ r₁ hr₁) hstep

/-- A run of such rules has no more steps than there were unsatisfied matches at its start. -/
theorem length_le_openTotal {I : Finset Literal} {Is : List (Finset Literal)}
    (hrun : (I :: Is).IsChain (StepBy rules members)) : Is.length ≤ openTotal members I := by
  -- By induction on the run: each step uses up at least one match.
  induction Is generalizing I with
  | nil => exact Nat.zero_le _
  | cons J Is ih =>
    obtain ⟨hstep, hrun⟩ := List.isChain_cons_cons.1 hrun
    have hless := openTotal_lt_of_stepBy hrules hbodies hmembers hrelies hstep
    exact Nat.lt_of_le_of_lt (ih hrun) hless

end Run

/-! ## §3 Strata that are not recursive -/

namespace Analysis

variable {rules : List Rule} {config : Config}

/-- The rules of a stratum that is not recursive do not rely on each other. -/
theorem not_positivelyRelies_of_flat {k : Nat}
    (hflat : (ofRules rules config).recursiveStrata[k]? = some false) {r₁ r₂ : Rule}
    (hr₁ : (ofRules rules config).InStratum k r₁) (hr₂ : (ofRules rules config).InStratum k r₂) :
    ¬ r₁.positivelyRelies r₂ config = true := by
  intro hrelies
  obtain ⟨s, hs, i₁, hi₁, hr₁⟩ := hr₁.exists_index
  obtain ⟨t, ht, i₂, hi₂, hr₂⟩ := hr₂.exists_index
  -- Both rules are in the same stratum.
  cases Option.some.inj (hs.symm.trans ht)
  rw [recursiveStrata, List.getElem?_map, hs] at hflat
  rw [strata_ofRules] at hs
  exact DependencyGraph.not_mem_dependenciesOf_of_flat (List.mem_of_getElem? hs)
    (Option.some.inj hflat) hi₁ hi₂ (mem_dependenciesOf_of_positivelyRelies hr₁ hr₂ hrelies)

/-- Suppose that a stratum is not recursive. Then every chase step by one of its rules, with terms
that are fresh for the facts and for all given rules, makes the number of their unsatisfied matches
smaller, and this number bounds the length of every run of such steps. -/
theorem openTotal_bounds_chase (hrules : ∀ r ∈ rules, r.WellFormed)
    (hbodies : ∀ r ∈ rules, r.body.length ≤ 67) {k : Nat} {members : List Rule}
    (hmembers : (ofRules rules config).stratumRules[k]? = some members)
    (hflat : (ofRules rules config).recursiveStrata[k]? = some false) :
    (∀ I J, StepBy rules members I J → openTotal members J < openTotal members I) ∧
      ∀ I Is, (I :: Is).IsChain (StepBy rules members) → Is.length ≤ openTotal members I := by
  have hstratum : ∀ r ∈ members, (ofRules rules config).InStratum k r :=
    fun r hr => ⟨members, hmembers, hr⟩
  have hmem : ∀ r ∈ members, r ∈ rules := fun r hr => (hstratum r hr).mem_rules
  have hrelies : ∀ r₁ ∈ members, ∀ r₂ ∈ members, ¬ r₁.positivelyRelies r₂ config = true :=
    fun r₁ hr₁ r₂ hr₂ => not_positivelyRelies_of_flat hflat (hstratum r₁ hr₁) (hstratum r₂ hr₂)
  refine ⟨fun I J hstep => ?_, fun I Is hrun => ?_⟩
  · exact openTotal_lt_of_stepBy hrules hbodies hmem hrelies hstep
  · exact length_le_openTotal hrules hbodies hmem hrelies hrun

/-! ### Parents and advisors -/

/-- Two rules that have nothing to do with each other. -/
def parentAndAdvisor : List Rule :=
  [.personHasParent, .studentHasAdvisor]

/-- Both rules are in one stratum, and a parent for the student is a step. -/
theorem openTotal_bounds_chase_parentAndAdvisor :
    StepBy parentAndAdvisor parentAndAdvisor studentFacts (studentFacts ∪ {parentFact}) ∧
      openTotal parentAndAdvisor (studentFacts ∪ {parentFact}) <
        openTotal parentAndAdvisor studentFacts ∧
      [studentFacts ∪ {parentFact}].length ≤ openTotal parentAndAdvisor studentFacts := by
  have hstratum : (ofRules parentAndAdvisor .default).stratumRules[0]? = some parentAndAdvisor ∧
      (ofRules parentAndAdvisor .default).recursiveStrata[0]? = some false := by
    decide +kernel
  have hnew : ∀ r ∈ parentAndAdvisor, ¬ r.Mentions (.null "parent") := by
    unfold Rule.Mentions
    decide
  have hstep : StepBy parentAndAdvisor parentAndAdvisor studentFacts
      (studentFacts ∪ {parentFact}) :=
    ⟨.personHasParent, List.mem_cons_self, chaseStep_studentFacts hnew⟩
  obtain ⟨hless, hbound⟩ := openTotal_bounds_chase (by decide) (by decide) hstratum.1 hstratum.2
  exact ⟨hstep, hless _ _ hstep, hbound _ _ (List.isChain_pair.2 hstep)⟩

end Analysis

end ExistentialRules
