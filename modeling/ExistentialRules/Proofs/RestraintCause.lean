import ExistentialRules.Proofs.Redundancy

/-!
# When a restraint is the cause

An application of a rule is redundant in a set of facts if its head holds there for other values of
the existential variables and some fresh term is not needed then. A rule that is found to restrain
another can be applied after it so that the application of the latter is redundant.

That the application was not redundant already is not part of the verdict. The replay of the two
applications asks whether each of them adds something, but not whether what the source asserts of
other terms was there before. The missing question can be put to the replay with the entailment
test that it already uses: does the head of the target hold in those facts in which one of its fresh
terms does not occur? `Reliance.isRedundantBefore` puts it, and `Rule.isCause` looks for a pairing
for which the answer is no.

## Main definitions

* `Rule.Alternative`, `Rule.Redundant`: redundant applications;
* `Rule.OnePiece`: heads that hang together;
* `Reliance.isRedundantBefore`, `Rule.isCause`: the missing question.

## Main statements

* `Rule.Restrains.alternative`: a restraint makes the earlier application redundant;
* `Rule.OnePiece.not_redundant`: an application whose head hangs together is not redundant at once;
* `Rule.isCause_iff`: the missing question is the right one;
* `Rule.redundant_only_after`: what a verdict means;
* `Rule.redundant_before_selfKnowerIsAware`: a restraint that is not the cause.
-/

namespace ExistentialRules

/-! ## §1 Redundant applications -/

namespace Rule

/-- After an application at `h` with the fresh terms `n`, the head holds for the values `g` of the
existential variables, too, and some fresh term does not occur in it then. -/
structure Alternative (r : Rule) (h n g : Assignment) (J : Finset Literal) : Prop where
  holds : ∀ l ∈ r.head, l.under (r.extended h g) ∈ J
  dispensable : ∃ z ∈ r.existentials, ∀ l ∈ r.head, n z ∉ (l.under (r.extended h g)).arguments

/-- The application at `h` with the fresh terms `n` has an alternative in the facts. -/
def Redundant (r : Rule) (h n : Assignment) (J : Finset Literal) : Prop :=
  ∃ g, r.Alternative h n g J

/-- An application is redundant exactly if its match is satisfied by the facts in which a certain
one of the fresh terms does not occur. -/
theorem redundant_iff {r : Rule} {h n : Assignment} {J : Finset Literal} :
    r.Redundant h n J ↔
      ∃ z ∈ r.existentials, r.Satisfied h (J.filter fun l => n z ∉ l.arguments) := by
  constructor
  · intro hredundant
    obtain ⟨g, hholds, z, hz, hnot⟩ := hredundant
    exact ⟨z, hz, g, fun l hl => Finset.mem_filter.2 ⟨hholds l hl, hnot l hl⟩⟩
  · intro hsatisfied
    obtain ⟨z, hz, g, hg⟩ := hsatisfied
    exact ⟨g, fun l hl => (Finset.mem_filter.1 (hg l hl)).1, z, hz,
      fun l hl => (Finset.mem_filter.1 (hg l hl)).2⟩

/-- Facts that add nothing of the head's signatures add no alternative. -/
theorem Redundant.of_union {r : Rule} {h n : Assignment} {J K : Finset Literal}
    (hredundant : r.Redundant h n (J ∪ K))
    (hK : ∀ l ∈ r.head, ∀ m ∈ K, m.signature = l.signature → m ∈ J) : r.Redundant h n J := by
  obtain ⟨g, hholds, hdispensable⟩ := hredundant
  refine ⟨g, fun l hl => ?_, hdispensable⟩
  rcases Finset.mem_union.1 (hholds l hl) with hmem | hmem
  · exact hmem
  · exact hK l hl _ hmem (Literal.signature_under _ l)

/-! ### After a restraint -/

section Restrains

variable {r₁ r₂ : Rule} (hr₁ : r₁.WellFormed) (hr₂ : r₂.WellFormed) {I : Finset Literal}
  {h₁ h₂ n m g : Assignment} {Z : Set Variable} (hrestrains : r₁.Restrains r₂ I h₁ h₂ n m g Z)

include hrestrains

/-- In a restraint, the restraining rule is applied after the restrained one. -/
theorem Restrains.appliesAfter : r₁.AppliesAfter r₂ I h₁ h₂ n m :=
  ⟨hrestrains.restrained, hrestrains.freshRestrained, hrestrains.restraining,
    hrestrains.freshRestraining⟩

include hr₁ hr₂

/-- The terms that are replaced do not occur in the head any more. -/
theorem Restrains.notMem_arguments {z : Variable} (hz : z ∈ Z) {l : Literal} (hl : l ∈ r₂.head) :
    n z ∉ (l.under (r₂.extended h₂ g)).arguments := by
  have hex := hrestrains.existential z hz
  by_cases hredirected : ∃ z ∈ Z, z ∈ l.occurringVariables
  · exact hrestrains.redirects.notMem_result hr₁ hex (hrestrains.redirected l hl hredirected)
  · intro hmem
    have hfresh := hrestrains.freshRestrained.fresh z hex
    rcases hr₂.mem_arguments_head hl hmem with
      ⟨hrigid, hmentions⟩ | ⟨v, hv, heq⟩ | ⟨e, he, hel, heq⟩
    · exact hfresh.not_mentions hrigid r₂ (by simp) hmentions
    · exact hrestrains.restrained.1.ne_of_freshFor hfresh hv heq
    -- The other existential variables keep their fresh terms.
    · have hnot : e ∉ Z := fun heZ => hredirected ⟨e, heZ, hel⟩
      rw [hrestrains.unchanged e he hnot] at heq
      rw [hrestrains.freshRestrained.injective e he z hex heq] at hnot
      exact hnot hz

/-- Once the restraining rule is applied, the values `g` are an alternative: what mentions a
replaced term is among what this rule asserts, and all else is as the restrained rule left it. -/
theorem Restrains.alternative :
    r₂.Alternative h₂ n g (I ∪ r₂.result h₂ n ∪ r₁.result h₁ m) := by
  refine ⟨fun l hl => ?_, ?_⟩
  · by_cases hredirected : ∃ z ∈ Z, z ∈ l.occurringVariables
    · exact Finset.mem_union_right _ (hrestrains.redirected l hl hredirected)
    · apply Finset.mem_union_left
      apply Finset.mem_union_right
      refine mem_result.2 ⟨l, hl, Literal.under_congr fun v hv => ?_⟩
      by_cases hex : v ∈ r₂.existentials
      · have hnot : v ∉ Z := fun hvZ => hredirected ⟨v, hvZ, hv⟩
        rw [extended_of_mem h₂ n hex, extended_of_mem h₂ g hex, hrestrains.unchanged v hex hnot]
      · rw [extended, extended, if_neg hex, if_neg hex]
  · obtain ⟨z, hz⟩ := hrestrains.nonempty
    exact ⟨z, hrestrains.existential z hz,
      fun l hl => hrestrains.notMem_arguments hr₁ hr₂ hz hl⟩

end Restrains

/-- A rule that only repeats what it has read makes no application redundant: it must assert
something new of a signature that stands in the head of the other rule. -/
theorem AppliesAfter.redundant_of_repeats {r₁ r₂ : Rule} (hr₁ : r₁.WellFormed)
    {I : Finset Literal} {h₁ h₂ n m : Assignment} (hafter : r₁.AppliesAfter r₂ I h₁ h₂ n m)
    (hrepeats : ∀ l₁ ∈ r₁.head, ∀ l₂ ∈ r₂.head, l₁.signature = l₂.signature → l₁ ∈ r₁.body)
    (hredundant : r₂.Redundant h₂ n (I ∪ r₂.result h₂ n ∪ r₁.result h₁ m)) :
    r₂.Redundant h₂ n (I ∪ r₂.result h₂ n) := by
  refine hredundant.of_union fun l₂ hl₂ f hf hsignature => ?_
  obtain ⟨l₁, hl₁, rfl⟩ := mem_result.1 hf
  rw [Literal.signature_under] at hsignature
  have hbody := hrepeats l₁ hl₁ l₂ hl₂ hsignature
  rw [hr₁.under_extended_of_mem_body h₁ m hbody]
  exact hafter.later.1 l₁ hbody

/-! ### Heads that hang together -/

/-- The second literal stands in the head and has an existential variable in common with the
first. -/
def Touches (r : Rule) (l l' : Literal) : Prop :=
  l' ∈ r.head ∧ ∃ z ∈ r.existentials, z ∈ l.occurringVariables ∧ z ∈ l'.occurringVariables

/-- Common existential variables lead from every head literal to every other one, and no two head
literals have the same signature. -/
structure OnePiece (r : Rule) : Prop where
  connected : ∀ l ∈ r.head, ∀ l' ∈ r.head, Relation.ReflTransGen r.Touches l l'
  distinct : ∀ l ∈ r.head, ∀ l' ∈ r.head, l.signature = l'.signature → l = l'

section OnePiece

variable {r : Rule} (hpiece : r.OnePiece) {I : Finset Literal} {h n g : Assignment}

include hpiece in
/-- A head literal that is sent to something the rule has just added is sent to its own image, for
no other head literal has its signature. So the existential variables in it keep their values. -/
theorem OnePiece.eq_of_mem_result {l : Literal} (hl : l ∈ r.head)
    (hmem : l.under (r.extended h g) ∈ r.result h n) {z : Variable} (hz : z ∈ r.existentials)
    (hzl : z ∈ l.occurringVariables) : g z = n z := by
  obtain ⟨l', hl', heq⟩ := mem_result.1 hmem
  have hsignature : l'.signature = l.signature := by
    simpa using congrArg Literal.signature heq
  rw [hpiece.distinct l' hl' l hl hsignature] at heq
  have hvalue := Literal.eq_of_under_eq heq hzl
  rw [extended_of_mem h n hz, extended_of_mem h g hz] at hvalue
  exact hvalue.symm

include hpiece in
/-- Directly after its application, a rule whose head hangs together is not redundant. An
alternative would have to send some head literal into the earlier facts; no fresh term occurs there,
so the literals that touch it are sent there too, and in the end the whole head. -/
theorem OnePiece.not_redundant {rules : List Rule} (hunsatisfied : ¬ r.Satisfied h I)
    (hfresh : r.FreshValues rules I n) : ¬ r.Redundant h n (I ∪ r.result h n) := by
  intro hredundant
  obtain ⟨g, hholds, z, hz, hdispensable⟩ := hredundant
  -- The head literals that mention the dispensable term have left their images.
  obtain ⟨l₀, hl₀, hzl₀⟩ := mem_headVariables.1 (mem_existentials.1 hz).1
  have hstart : l₀.under (r.extended h g) ∈ I := by
    refine (Finset.mem_union.1 (hholds l₀ hl₀)).resolve_right fun hmem => hdispensable l₀ hl₀ ?_
    rw [← hpiece.eq_of_mem_result hl₀ hmem hz hzl₀, ← extended_of_mem h g hz]
    exact Literal.mem_arguments_under_of_mem hzl₀
  have hstep : ∀ l l', l.under (r.extended h g) ∈ I → r.Touches l l' →
      l'.under (r.extended h g) ∈ I := by
    intro l l' hl htouches
    obtain ⟨hl', w, hw, hwl, hwl'⟩ := htouches
    refine (Finset.mem_union.1 (hholds l' hl')).resolve_right fun hmem => ?_
    -- Otherwise the common variable would have a fresh value, which the earlier facts lack.
    apply (hfresh.fresh w hw).notMem _ hl
    rw [← hpiece.eq_of_mem_result hl' hmem hw hwl', ← extended_of_mem h g hw]
    exact Literal.mem_arguments_under_of_mem hwl
  have hreached : ∀ l, Relation.ReflTransGen r.Touches l₀ l → l.under (r.extended h g) ∈ I := by
    intro l hpath
    induction hpath with
    | refl => exact hstart
    | tail _ htouches ih => exact hstep _ _ ih htouches
  exact hunsatisfied ⟨g, fun l hl => hreached l (hpiece.connected l₀ hl₀ l hl)⟩

end OnePiece

end Rule

/-! ## §2 The missing question -/

/-- The literals in which a term does not stand. -/
def Instance.without (I : Instance) (t : Term) : Instance :=
  .ofList (I.literals.filter fun l => t ∉ l.arguments)

theorem Instance.facts_without (I : Instance) (t : Term) :
    (I.without t).facts = I.facts.filter fun l => t ∉ l.arguments := by
  ext l
  simp only [mem_facts, without, mem_ofList, List.mem_filter, Finset.mem_filter,
    decide_eq_true_eq]

namespace Reliance

/-- Whether the target's application is redundant before the source is applied: whether its head
holds in those facts in which a certain one of its fresh terms does not occur. -/
def isRedundantBefore (source target : RuleIndex) (u : Unifier) : Bool :=
  let σ := restraintSubstitution source target u
  let head := σ.applyLiterals target.rule.head
  let facts := (sharedFacts source.rule target.rule σ).extend head
  target.existentials.any fun z =>
    (facts.without (.var z)).entailsWith head (.only target.existentials)

/-- Whether a pairing shows a restraint of an application that was not redundant before. -/
def showsCause (source target : RuleIndex) (p : Pairing) : Bool :=
  showsNegative source target .default p &&
    (p.unifier? source.rule.head target.rule.head).any fun u => !isRedundantBefore source target u

section Frozen

variable {source target : Rule} {u : Unifier}

/-- The question is answered as for all facts: the facts of the replay are facts like others. -/
theorem isRedundantBefore_iff {T : Term → Prop} (hu : u.WellFormed T)
    (htarget : target.WellFormed) :
    isRedundantBefore (.ofRule source) (.ofRule target) u = true ↔
      target.Redundant (common source target u) Term.var
        (commonFacts source target u ∪ target.result (common source target u) Term.var) := by
  rw [Rule.redundant_iff, isRedundantBefore, List.any_eq_true]
  refine exists_congr fun z => and_congr_right fun _ => ?_
  rw [← facts_extend_target, ← Instance.facts_without]
  refine Rule.entailsWith_iff_satisfied htarget (Instance.indexed_ofList _) (fun v hv e he => ?_)
    fun _ he => common_of_mem he
  exact common_ne_of_universal hu (htarget.body_universal v hv) (Rule.mem_existentials.1 he).2

variable {p : Pairing} {I : Finset Literal} {h₁ h₂ n m g : Assignment} {Z : Set Variable}
  (hsource : source.WellFormed) (htarget : target.WellFormed)
  (hapart : ∀ v ∈ source.allVariables, v ∉ target.allVariables)
  (hredirects : source.Redirects target I h₁ h₂ n m g Z)
  (hu : u.WellFormed (p.Uses source.head target.head))
  (hrespects : u.Respects (source.joined h₁ m (target.extended h₂ g)))

include hsource htarget hapart hredirects hu hrespects

/-- If a fresh term of the target does not stand in a literal of the replay, then the term that it
stands for does not stand in the fact to which the two matches send the literal. -/
theorem notMem_under_joined {z : Variable} (hz : z ∈ target.existentials) {l : Literal}
    (hl : l ∈ commonFacts source target u ∪ target.result (common source target u) Term.var)
    (hnot : Term.var z ∉ l.arguments) :
    n z ∉ (l.under (source.joined h₁ m (target.extended h₂ n))).arguments := by
  intro hmem
  have hfresh := hredirects.freshRestrained.fresh z hz
  rcases Finset.mem_union.1 hl with hl | hl
  · exact hfresh.notMem _
      (commonFacts_mem hsource htarget hapart hredirects hu hrespects l hl) hmem
  · obtain ⟨l', hl', rfl⟩ := Rule.mem_result.1 hl
    rw [extended_common_target] at hnot hmem
    rw [under_common_target htarget hu hrespects n hl',
      Rule.under_joined_of_apart hapart (List.mem_append_right _ hl')] at hmem
    rcases htarget.mem_arguments_head hl' hmem with
      ⟨hrigid, hmentions⟩ | ⟨v, hv, heq⟩ | ⟨e, he, hel, heq⟩
    · exact hfresh.not_mentions hrigid target (by simp) hmentions
    · exact hredirects.restrainedTrigger.ne_of_freshFor hfresh hv heq
    -- Only the variable itself has the fresh term as its value, and it stands in the literal.
    · rw [hredirects.freshRestrained.injective e he z hz heq] at hel
      apply hnot
      rw [← common_of_mem hz]
      exact Literal.mem_arguments_under_of_mem hel

/-- If the application is redundant in the replay, then it is redundant in the facts, too, to which
the two matches send the replay. -/
theorem redundant_of_common
    (hredundant : target.Redundant (common source target u) Term.var
      (commonFacts source target u ∪ target.result (common source target u) Term.var)) :
    target.Redundant h₂ n (I ∪ target.result h₂ n) := by
  obtain ⟨z, hz, hsatisfied⟩ := Rule.redundant_iff.1 hredundant
  refine Rule.redundant_iff.2 ⟨z, hz, ?_⟩
  have hmap : ∀ l ∈ (commonFacts source target u ∪
        target.result (common source target u) Term.var).filter fun l => Term.var z ∉ l.arguments,
      l.under (source.joined h₁ m (target.extended h₂ n)) ∈
        (I ∪ target.result h₂ n).filter fun l => n z ∉ l.arguments := by
    intro l hl
    obtain ⟨hl, hnot⟩ := Finset.mem_filter.1 hl
    exact Finset.mem_filter.2
      ⟨afterTarget_mem hsource htarget hapart hredirects hu hrespects l hl,
        notMem_under_joined hsource htarget hapart hredirects hu hrespects hz hl hnot⟩
  refine (hsatisfied.map hmap).congr htarget fun v hv => ?_
  exact mapVariable_common_target htarget hapart hu hrespects hv

end Frozen

end Reliance

/-! ## §3 Rules -/

namespace Rule

/-- Whether some pairing shows that `r₁` restrains an application of `r₂` that was not redundant
before. -/
def isCause (r₁ r₂ : Rule) : Bool :=
  (pairings (r₁.rename Reliance.sourceSuffix).head.length
    (r₂.rename Reliance.targetSuffix).head.length).any
      (Reliance.showsCause (Reliance.sourceIndex r₁) (Reliance.targetIndex r₂))

section Renamed

variable {r₁ r₂ : Rule} {ρ₁ ρ₂ : Variable → Variable} (hρ₁ : Renaming ρ₁) (hρ₂ : Renaming ρ₂)
  {J : Finset Literal} {h n : Assignment}

include hρ₂ in
/-- Whether an application is redundant does not depend on how the variables are called. -/
theorem redundant_renameBy :
    (r₂.renameBy ρ₂).Redundant h n J ↔
      r₂.Redundant (fun v => h (ρ₂ v)) (fun v => n (ρ₂ v)) J := by
  simp only [redundant_iff, mem_existentials_renameBy hρ₂, satisfied_renameBy hρ₂]
  constructor
  · intro hrenamed
    obtain ⟨_, ⟨z, hz, rfl⟩, hsatisfied⟩ := hrenamed
    exact ⟨z, hz, hsatisfied⟩
  · intro hredundant
    obtain ⟨z, hz, hsatisfied⟩ := hredundant
    exact ⟨_, ⟨z, hz, rfl⟩, hsatisfied⟩

include hρ₁ hρ₂

/-- Restraints of applications that were not redundant before are the same for renamed rules. -/
theorem exists_restrains_not_redundant_renameBy :
    (∃ I h₁ h₂ n m g Z, (r₁.renameBy ρ₁).Restrains (r₂.renameBy ρ₂) I h₁ h₂ n m g Z ∧
      ¬ (r₂.renameBy ρ₂).Redundant h₂ n (I ∪ (r₂.renameBy ρ₂).result h₂ n)) ↔
      ∃ I h₁ h₂ n m g Z, r₁.Restrains r₂ I h₁ h₂ n m g Z ∧
        ¬ r₂.Redundant h₂ n (I ∪ r₂.result h₂ n) := by
  simp only [redundant_renameBy hρ₂, result_renameBy hρ₂]
  refine exists_applications_renameBy hρ₁ hρ₂ (fun _ _ _ _ _ _ _ h => h.1.existential)
    fun _ _ _ _ _ _ _ => ?_
  rw [restrains_renameBy hρ₁ hρ₂]

end Renamed

/-- The pairings that pass the missing test, too. -/
theorem isCause_eq_true_iff {r₁ r₂ : Rule} :
    r₁.isCause r₂ = true ↔
      ∃ p ∈ pairings (r₁.rename Reliance.sourceSuffix).head.length
          (r₂.rename Reliance.targetSuffix).head.length,
        Reliance.showsNegative (Reliance.sourceIndex r₁) (Reliance.targetIndex r₂) .default p =
          true ∧
        ∃ u, p.unifier? (r₁.rename Reliance.sourceSuffix).head
            (r₂.rename Reliance.targetSuffix).head = some u ∧
          Reliance.isRedundantBefore (Reliance.sourceIndex r₁) (Reliance.targetIndex r₂) u =
            false := by
  simp only [isCause, List.any_eq_true, Reliance.showsCause, Bool.and_eq_true]
  refine exists_congr fun p => and_congr_right fun _ => and_congr_right fun _ => ?_
  have hrules : p.unifier? (Reliance.sourceIndex r₁).rule.head (Reliance.targetIndex r₂).rule.head =
      p.unifier? (r₁.rename Reliance.sourceSuffix).head
        (r₂.rename Reliance.targetSuffix).head := rfl
  rw [hrules]
  cases p.unifier? (r₁.rename Reliance.sourceSuffix).head
      (r₂.rename Reliance.targetSuffix).head with
  | none => simp
  | some u => simp

section Cause

variable {r₁ r₂ : Rule} (hr₁ : r₁.WellFormed) (hr₂ : r₂.WellFormed)

include hr₁ hr₂

/-- A pairing that passes the missing test, too, describes applications of which the earlier one
becomes redundant by the later one. -/
theorem exists_restrains_of_isCause (hcause : r₁.isCause r₂ = true) :
    ∃ I h₁ h₂ n m g Z, r₁.Restrains r₂ I h₁ h₂ n m g Z ∧
      ¬ r₂.Redundant h₂ n (I ∪ r₂.result h₂ n) := by
  obtain ⟨p, hp, hshows, u, hunifier, hbefore⟩ := isCause_eq_true_iff.1 hcause
  obtain ⟨htouches, u', hunifier', hkeeps, hcovers, heffective⟩ :=
    Reliance.showsNegative_eq_true_iff.1 hshows
  obtain rfl : u' = u := Option.some.inj (hunifier'.symm.trans hunifier)
  have hrenamed := Reliance.restrains_of_isEffectiveRestraint (hr₁.rename _) (hr₂.rename _)
    (fun v => Reliance.renamedApart r₁ r₂) (valid_of_mem_pairings hp) hunifier htouches hkeeps
    hcovers (heffective rfl)
  refine (exists_restrains_not_redundant_renameBy (renaming_withSuffix _)
    (renaming_withSuffix _)).1 ⟨_, _, _, _, _, _, _, hrenamed, fun hredundant => ?_⟩
  have htest := (Reliance.isRedundantBefore_iff (Pairing.wellFormed_of_unifier hunifier)
    (hr₂.rename _)).2 hredundant
  exact absurd (htest.symm.trans hbefore) (by simp)

/-- Applications of which the earlier one becomes redundant by the later one, with a trigger that
was there before both, are described by a pairing that passes the missing test, too. -/
theorem isCause_of_restrains (hhead : r₂.head.length ≤ 67) {I : Finset Literal}
    {h₁ h₂ n m g : Assignment} {Z : Set Variable} (hrestrains : r₁.Restrains r₂ I h₁ h₂ n m g Z)
    (hnot : ¬ r₂.Redundant h₂ n (I ∪ r₂.result h₂ n)) : r₁.isCause r₂ = true := by
  obtain ⟨J, k₁, k₂, n', m', g', Z', hrenamed, hnot⟩ := (exists_restrains_not_redundant_renameBy
    (renaming_withSuffix Reliance.sourceSuffix)
    (renaming_withSuffix Reliance.targetSuffix)).2 ⟨I, h₁, h₂, n, m, g, Z, hrestrains, hnot⟩
  rw [← length_head_rename Reliance.targetSuffix] at hhead
  have hsource := hr₁.rename Reliance.sourceSuffix
  have htarget := hr₂.rename Reliance.targetSuffix
  have hapart := fun v => Reliance.renamedApart r₁ r₂ (v := v)
  obtain ⟨p, hp, htouches, hcovers, u, hunifier, hrespects, hkeeps⟩ :=
    Reliance.exists_keepsFresh_of_redirects hsource htarget hapart (choose_le_countLimit hhead)
      hrenamed.redirects
  have hu := Pairing.wellFormed_of_unifier hunifier
  have heffective :=
    Reliance.isEffectiveRestraint_of_restrains hsource htarget hapart hu hrespects hrenamed
  refine isCause_eq_true_iff.2 ⟨p, hp, Reliance.showsNegative_eq_true_iff.2
    ⟨htouches, u, hunifier, hkeeps, hcovers, fun _ => heffective⟩, u, hunifier, ?_⟩
  -- What is redundant in the replay would be redundant in the facts that it stands for.
  rw [← Bool.not_eq_true]
  intro hbefore
  apply hnot
  exact Reliance.redundant_of_common hsource htarget hapart hrenamed.redirects hu hrespects
    ((Reliance.isRedundantBefore_iff hu htarget).1 hbefore)

/-- The missing test is the right one: it finds exactly the restraints, with a trigger that was
there before both applications, of an application that was not redundant before. -/
theorem isCause_iff (hhead : r₂.head.length ≤ 67) :
    r₁.isCause r₂ = true ↔
      ∃ I h₁ h₂ n m g Z, r₁.Restrains r₂ I h₁ h₂ n m g Z ∧
        ¬ r₂.Redundant h₂ n (I ∪ r₂.result h₂ n) := by
  refine ⟨exists_restrains_of_isCause hr₁ hr₂, fun h => ?_⟩
  obtain ⟨I, h₁, h₂, n, m, g, Z, hrestrains, hnot⟩ := h
  exact isCause_of_restrains hr₁ hr₂ hhead hrestrains hnot

end Cause

/-- Let `r₁` be found to restrain `r₂`. Then `r₂` and after it `r₁` can be applied to some facts so
that the head of `r₂` holds without some fresh term, by what `r₁` asserts. If some pairing passes
the missing test, too, or if the head of `r₂` hangs together, then this can be done so that the
application of `r₂` was not redundant before `r₁` was applied. If no pairing passes the missing
test, then in each of the restraints that the verdict is about it was. -/
theorem redundant_only_after {r₁ r₂ : Rule} (hr₁ : r₁.WellFormed) (hr₂ : r₂.WellFormed)
    (hrelies : r₁.negativelyRelies r₂ .default = true) :
    (∃ I h₁ h₂ n m g Z, r₁.Restrains r₂ I h₁ h₂ n m g Z ∧
      r₂.Alternative h₂ n g (I ∪ r₂.result h₂ n ∪ r₁.result h₁ m)) ∧
    (r₁.isCause r₂ = true ∨ r₂.OnePiece →
      ∃ I h₁ h₂ n m, r₁.AppliesAfter r₂ I h₁ h₂ n m ∧
        r₂.Redundant h₂ n (I ∪ r₂.result h₂ n ∪ r₁.result h₁ m) ∧
        ¬ r₂.Redundant h₂ n (I ∪ r₂.result h₂ n)) ∧
    (r₂.head.length ≤ 67 → r₁.isCause r₂ = false →
      ∀ I h₁ h₂ n m g Z, r₁.Restrains r₂ I h₁ h₂ n m g Z →
        r₂.Redundant h₂ n (I ∪ r₂.result h₂ n)) := by
  obtain ⟨I, h₁, h₂, n, m, g, Z, hrestrains⟩ :=
    exists_restrains_of_negativelyRelies hr₁ hr₂ rfl hrelies
  refine ⟨⟨I, h₁, h₂, n, m, g, Z, hrestrains, hrestrains.alternative hr₁ hr₂⟩, fun hnew => ?_,
    fun hhead hcause J k₁ k₂ n' m' g' Z' hrestrains => ?_⟩
  · rcases hnew with hcause | hpiece
    · obtain ⟨I, h₁, h₂, n, m, g, Z, hrestrains, hnot⟩ := exists_restrains_of_isCause hr₁ hr₂ hcause
      exact ⟨I, h₁, h₂, n, m, hrestrains.appliesAfter, ⟨g, hrestrains.alternative hr₁ hr₂⟩, hnot⟩
    -- If the head hangs together, any restraint will do.
    · exact ⟨I, h₁, h₂, n, m, hrestrains.appliesAfter, ⟨g, hrestrains.alternative hr₁ hr₂⟩,
        hpiece.not_redundant hrestrains.restrained.2 hrestrains.freshRestrained⟩
  · by_contra hnot
    rw [isCause_of_restrains hr₁ hr₂ hhead hrestrains hnot] at hcause
    cases hcause

/-- Whoever works for somebody works in a team, and the team is part of something. -/
def workerInTeam : Rule :=
  ⟨[⟨"worksFor", [.universal "X", .universal "W"]⟩],
    [⟨"worksIn", [.universal "X", .existential "Y"]⟩,
      ⟨"partOf", [.existential "Y", .existential "Z"]⟩]⟩

/-- Whoever leads a team works in it, and it is part of itself. -/
def leaderWorksInTeam : Rule :=
  ⟨[⟨"leads", [.universal "U", .universal "V"]⟩],
    [⟨"worksIn", [.universal "U", .universal "V"]⟩, ⟨"partOf", [.universal "V", .universal "V"]⟩]⟩

/-- Every person knows somebody and likes somebody. -/
def personKnowsAndLikes : Rule :=
  ⟨[⟨"person", [.universal "X"]⟩],
    [⟨"knows", [.universal "X", .existential "Y"]⟩,
      ⟨"likes", [.universal "X", .existential "Z"]⟩]⟩

/-- Whoever knows themselves does so, and is aware of it. -/
def selfKnowerIsAware : Rule :=
  ⟨[⟨"knows", [.universal "U", .universal "U"]⟩],
    [⟨"knows", [.universal "U", .universal "U"]⟩, ⟨"aware", [.universal "U"]⟩]⟩

/-- The team of a leader can make an unknown team redundant. Awareness does not make an acquaintance
redundant: whoever can be aware of themselves knew somebody before. -/
theorem redundant_only_after_leaderWorksInTeam :
    (leaderWorksInTeam.negativelyRelies workerInTeam .default = true ∧
      leaderWorksInTeam.isCause workerInTeam = true ∧
      ∃ I h₁ h₂ n m, leaderWorksInTeam.AppliesAfter workerInTeam I h₁ h₂ n m ∧
        workerInTeam.Redundant h₂ n
          (I ∪ workerInTeam.result h₂ n ∪ leaderWorksInTeam.result h₁ m) ∧
        ¬ workerInTeam.Redundant h₂ n (I ∪ workerInTeam.result h₂ n)) ∧
    selfKnowerIsAware.negativelyRelies personKnowsAndLikes .default = true ∧
      selfKnowerIsAware.isCause personKnowsAndLikes = false ∧
      ∀ I h₁ h₂ n m g Z,
        selfKnowerIsAware.Restrains personKnowsAndLikes I h₁ h₂ n m g Z →
          personKnowsAndLikes.Redundant h₂ n (I ∪ personKnowsAndLikes.result h₂ n) := by
  have hleader : leaderWorksInTeam.negativelyRelies workerInTeam .default = true := by
    decide +kernel
  have hcause : leaderWorksInTeam.isCause workerInTeam = true := by decide +kernel
  have haware : selfKnowerIsAware.negativelyRelies personKnowsAndLikes .default = true := by
    decide +kernel
  have hnocause : selfKnowerIsAware.isCause personKnowsAndLikes = false := by decide +kernel
  exact ⟨⟨hleader, hcause,
      (redundant_only_after (by decide) (by decide) hleader).2.1 (Or.inl hcause)⟩,
    haware, hnocause,
      (redundant_only_after (by decide) (by decide) haware).2.2 (by decide) hnocause⟩

/-- Awareness is found to restrain acquaintance. But all that is asserted anew is the awareness: if
the acquaintance is redundant afterwards, then it was so before. -/
theorem redundant_before_selfKnowerIsAware :
    selfKnowerIsAware.WellFormed ∧ personKnowsAndLikes.WellFormed ∧
      selfKnowerIsAware.negativelyRelies personKnowsAndLikes .default = true ∧
      ¬ ∃ I h₁ h₂ n m, selfKnowerIsAware.AppliesAfter personKnowsAndLikes I h₁ h₂ n m ∧
        personKnowsAndLikes.Redundant h₂ n
          (I ∪ personKnowsAndLikes.result h₂ n ∪ selfKnowerIsAware.result h₁ m) ∧
        ¬ personKnowsAndLikes.Redundant h₂ n (I ∪ personKnowsAndLikes.result h₂ n) := by
  have haware : selfKnowerIsAware.WellFormed := by decide
  refine ⟨haware, by decide, by decide +kernel, fun h => ?_⟩
  obtain ⟨I, h₁, h₂, n, m, hafter, hredundant, hnot⟩ := h
  exact hnot (hafter.redundant_of_repeats haware (by decide) hredundant)

end Rule

end ExistentialRules
