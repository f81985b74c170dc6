import ExistentialRules.Proofs.PairedUnifier
import ExistentialRules.Proofs.Renaming
import ExistentialRules.Reliance.Negative

/-!
# Negative reliance is exact

A rule is found to restrain another exactly if there are finitely many facts and matches of both
rules in them such that, once the restrained rule has been applied and then the restraining one,
what the former asserted of some of its fresh terms also holds of other terms.

In the frozen applications that a unifier describes, the existential variables of both rules are
their own fresh values. Universal variables stand for the classes that contain them, so no fresh
value gets into the common facts.

With the tests of applications switched off, the matches of both rules may be satisfied before.

## Main definitions

* `Rule.Restrains`: two applications, the second of which makes the first redundant;
* `Rule.Redirects`: the same without asking that the rules have something to add.

## Main statements

* `Reliance.redirects_of_keepsFresh`, `Reliance.restrains_of_isEffectiveRestraint`: a unifier that
  passes the tests gives applications;
* `Reliance.exists_keepsFresh_of_redirects`, `Reliance.exists_showsNegative`: applications give a
  pairing that passes the tests;
* `Rule.negativelyRelies_iff_restrains`: the verdict is exact;
* `Rule.negativelyRelies_iff_redirects`: the verdict without the tests of applications.
-/

namespace ExistentialRules

/-- Both rules have matches in the facts. First `r₂` is applied with the fresh terms `n`, then `r₁`
with the fresh terms `m`. If the variables in `Z` take their values from `g` and not from `n`, then
all that `r₂` asserted of them is among what `r₁` asserts. -/
structure Rule.Restrains (r₁ r₂ : Rule) (I : Finset Literal) (h₁ h₂ n m g : Assignment)
    (Z : Set Variable) : Prop where
  trigger : r₁.Matches h₁ I
  restrained : r₂.Unsatisfied h₂ I
  freshRestrained : r₂.FreshValues [r₁, r₂] I n
  restraining : r₁.Unsatisfied h₁ (I ∪ r₂.result h₂ n)
  freshRestraining : r₁.FreshValues [r₁, r₂] (I ∪ r₂.result h₂ n) m
  nonempty : Z.Nonempty
  existential : ∀ z ∈ Z, z ∈ r₂.existentials
  unchanged : ∀ z ∈ r₂.existentials, z ∉ Z → g z = n z
  redirected : ∀ l ∈ r₂.head, (∃ z ∈ Z, z ∈ l.occurringVariables) →
    l.under (r₂.extended h₂ g) ∈ r₁.result h₁ m

/-- Both rules have matches in the facts, which may be satisfied. First `r₂` is applied with the
fresh terms `n`, then `r₁` with the fresh terms `m`. If the variables in `Z` take their values from
`g` and not from `n`, then all that `r₂` asserted of them is among what `r₁` asserts. -/
structure Rule.Redirects (r₁ r₂ : Rule) (I : Finset Literal) (h₁ h₂ n m g : Assignment)
    (Z : Set Variable) : Prop where
  trigger : r₁.Matches h₁ I
  restrainedTrigger : r₂.Matches h₂ I
  freshRestrained : r₂.FreshValues [r₁, r₂] I n
  freshRestraining : r₁.FreshValues [r₁, r₂] (I ∪ r₂.result h₂ n) m
  nonempty : Z.Nonempty
  existential : ∀ z ∈ Z, z ∈ r₂.existentials
  unchanged : ∀ z ∈ r₂.existentials, z ∉ Z → g z = n z
  redirected : ∀ l ∈ r₂.head, (∃ z ∈ Z, z ∈ l.occurringVariables) →
    l.under (r₂.extended h₂ g) ∈ r₁.result h₁ m

namespace Rule

section

variable {r₁ r₂ : Rule} {I : Finset Literal} {h₁ h₂ n m g : Assignment} {Z : Set Variable}

/-- A restraint is a redirection in which neither match is satisfied when its rule is applied. -/
theorem restrains_iff_redirects :
    r₁.Restrains r₂ I h₁ h₂ n m g Z ↔
      r₁.Redirects r₂ I h₁ h₂ n m g Z ∧ ¬ r₂.Satisfied h₂ I ∧
        ¬ r₁.Satisfied h₁ (I ∪ r₂.result h₂ n) := by
  refine ⟨fun h => ⟨?_, h.restrained.2, h.restraining.2⟩, fun h => ?_⟩
  · exact ⟨h.trigger, h.restrained.1, h.freshRestrained, h.freshRestraining, h.nonempty,
      h.existential, h.unchanged, h.redirected⟩
  -- The match of the first rule stays one when the second rule adds its result.
  · obtain ⟨h, hrestrained, hrestraining⟩ := h
    exact ⟨h.trigger, ⟨h.restrainedTrigger, hrestrained⟩, h.freshRestrained,
      ⟨h.trigger.mono Finset.subset_union_left, hrestraining⟩, h.freshRestraining, h.nonempty,
      h.existential, h.unchanged, h.redirected⟩

theorem Restrains.redirects (h : r₁.Restrains r₂ I h₁ h₂ n m g Z) :
    r₁.Redirects r₂ I h₁ h₂ n m g Z :=
  (restrains_iff_redirects.1 h).1

/-- The fresh terms of the restrained rule are not among what the restraining one asserts. -/
theorem Redirects.notMem_result (hr₁ : r₁.WellFormed) (h : r₁.Redirects r₂ I h₁ h₂ n m g Z)
    {z : Variable} (hz : z ∈ r₂.existentials) {l : Literal} (hl : l ∈ r₁.result h₁ m) :
    n z ∉ l.arguments := by
  intro hmem
  have hfresh := h.freshRestrained.fresh z hz
  obtain ⟨l', hl', rfl⟩ := mem_result.1 hl
  rcases hr₁.mem_arguments_head hl' hmem with ⟨hrigid, hmentions⟩ | ⟨v, hv, heq⟩ | ⟨e, he, -, heq⟩
  · exact hfresh.not_mentions hrigid r₁ (by simp) hmentions
  · exact h.trigger.ne_of_freshFor hfresh hv heq
  -- The fresh values of the restraining rule are chosen after those of the restrained one.
  · obtain ⟨l₂, hl₂, hzl₂⟩ := exists_mem_result h₂ n hz
    apply (h.freshRestraining.fresh e he).notMem l₂ (Finset.mem_union_right _ hl₂)
    rwa [heq]

end

end Rule

namespace Reliance

/-! ## §1 Restraining unifiers -/

/-- The existential variables of the source are equal to no rigid term, and to no variables besides
themselves but existential ones of the target. -/
def KeepsFresh (source target : Rule) (u : Unifier) : Prop :=
  ∀ e ∈ source.existentials, ∀ c ∈ u.classes, e ∈ c.members →
    c.rigid = none ∧ ∀ v ∈ c.members, v = e ∨ v ∈ target.existentials

/-- The test looks at the class of each existential variable of the source, if there is one. -/
theorem keepsSourceFresh_iff {source target : Rule} {u : Unifier} {T : Term → Prop}
    (hu : u.WellFormed T) :
    keepsSourceFresh (.ofRule source) (.ofRule target) u = true ↔ KeepsFresh source target u := by
  rw [keepsSourceFresh, List.all_eq_true]
  -- A variable without a class is equal to nothing, so that only classes have to be looked at.
  refine forall₂_congr fun e _ => (hu.class?_test_iff e _).trans ?_
  refine forall₃_congr fun c _ _ => ?_
  rw [Bool.and_eq_true, Option.isNone_iff_eq_none, List.all_eq_true]
  refine and_congr_right fun _ => forall₂_congr fun v _ => ?_
  rw [Bool.or_eq_true, decide_eq_true_eq, RuleIndex.isExistential, List.contains_iff_mem]
  rfl

section Cover

variable {target : Rule} {p : Pairing}

/-- A pairing touches an existential variable of the target if one of the paired literals has it. -/
theorem touchesExistential_iff :
    touchesExistential (.ofRule target) p = true ↔
      ∃ z ∈ target.existentials, ∃ l ∈ p.covered target.head, z ∈ l.occurringVariables := by
  simp only [touchesExistential, List.any_eq_true, RuleIndex.isExistential, List.contains_iff_mem]
  constructor
  · intro h
    obtain ⟨l, hl, z, hz, hex⟩ := h
    exact ⟨z, hex, l, hl, hz⟩
  · intro h
    obtain ⟨z, hex, l, hl, hz⟩ := h
    exact ⟨l, hl, z, hz, hex⟩

/-- A pairing covers what it touches if no literal outside has an existential variable of a paired
one. -/
theorem coversTarget_iff :
    coversTarget (.ofRule target) p = true ↔
      ∀ z ∈ target.existentials, (∃ l ∈ p.covered target.head, z ∈ l.occurringVariables) →
        ∀ l ∈ p.uncovered target.head, z ∉ l.occurringVariables := by
  -- The index lists the places of the literals, the covered part has the literals themselves.
  have htouched : ∀ z, (∃ l ∈ p.covered target.head, z ∈ l.occurringVariables) ↔
      ∃ j ∈ p.right, j ∈ (RuleIndex.ofRule target).headLiteralsWith z := by
    intro z
    simp only [Pairing.mem_covered, RuleIndex.mem_headLiteralsWith]
    constructor
    · intro h
      obtain ⟨l, ⟨j, hj, hl⟩, hz⟩ := h
      exact ⟨j, hj, l, hl, hz⟩
    · intro h
      obtain ⟨j, hj, l, hl, hz⟩ := h
      exact ⟨l, ⟨j, hj, hl⟩, hz⟩
  rw [coversTarget, List.all_eq_true]
  refine forall₂_congr fun z _ => ?_
  rw [htouched, Bool.or_eq_true, Bool.not_eq_true', ← Bool.not_eq_true, List.any_eq_true,
    ← imp_iff_not_or]
  simp only [List.contains_iff_mem]
  exact imp_congr_right fun _ => Pairing.literalsWith_all_covers_iff

end Cover

/-! ## §2 The frozen applications -/

section Frozen

variable {source target : Rule} {p : Pairing} {u : Unifier}

/-- What the unifier does to each variable, with universal variables standing for their classes. -/
abbrev classwise (source : Rule) (u : Unifier) : Assignment :=
  (u.substitution (restraintRank (.ofRule source))).applyVariable

/-- The match of both rules in the applications that the unifier describes. -/
abbrev common (source target : Rule) (u : Unifier) : Assignment :=
  (restraintSubstitution (.ofRule source) (.ofRule target) u).applyVariable

/-- The facts before the applications that the unifier describes. -/
abbrev commonFacts (source target : Rule) (u : Unifier) : Finset Literal :=
  (sharedFacts source target (restraintSubstitution (.ofRule source) (.ofRule target) u)).facts

theorem lookup_restraintSubstitution (v : Variable) :
    (restraintSubstitution (.ofRule source) (.ofRule target) u).lookup v =
      if v ∈ target.existentials then some (.var v)
      else (u.substitution (restraintRank (.ofRule source))).lookup v :=
  Substitution.lookup_foldl_bind _ target.existentials Term.var v

theorem common_of_mem {z : Variable} (hz : z ∈ target.existentials) :
    common source target u z = .var z := by
  apply Substitution.applyVariable_of_lookup
  rw [lookup_restraintSubstitution, if_pos hz]

theorem common_of_notMem {v : Variable} (hv : v ∉ target.existentials) :
    common source target u v = classwise source u v := by
  show ((restraintSubstitution (.ofRule source) (.ofRule target) u).lookup v).getD (.var v) =
    ((u.substitution (restraintRank (.ofRule source))).lookup v).getD (.var v)
  rw [lookup_restraintSubstitution, if_neg hv]

theorem common_of_universal {v : Variable} (hv : v.quantifier = .universal) :
    common source target u v = classwise source u v :=
  common_of_notMem (Rule.notMem_existentials_of_universal hv)

/-- The frozen facts are the bodies of both rules, under the common match. -/
theorem mem_commonFacts {m : Literal} :
    m ∈ commonFacts source target u ↔
      (∃ l ∈ source.body, l.under (common source target u) = m) ∨
        ∃ l ∈ target.body, l.under (common source target u) = m := by
  rw [Instance.mem_facts, sharedFacts, Instance.mem_extend, Instance.mem_ofList,
    Substitution.mem_applyLiterals, Substitution.mem_applyLiterals]

theorem extended_common_target :
    target.extended (common source target u) Term.var = common source target u :=
  Rule.extended_var fun _ hz => common_of_mem hz

/-- The facts after the application of the target are the frozen ones with its result. -/
theorem facts_extend_target :
    ((sharedFacts source target (restraintSubstitution (.ofRule source) (.ofRule target) u)).extend
        ((restraintSubstitution (.ofRule source) (.ofRule target) u).applyLiterals
          target.head)).facts =
      commonFacts source target u ∪ target.result (common source target u) Term.var := by
  ext m
  rw [Finset.mem_union, Instance.mem_facts, Instance.mem_extend, ← Instance.mem_facts,
    Substitution.mem_applyLiterals, Rule.mem_result, extended_common_target]

section Universal

variable {T : Term → Prop} (hu : u.WellFormed T)

include hu

/-- A universal variable is never replaced by an existential one. -/
theorem universal_of_classwise {v w : Variable} (hv : v.quantifier = .universal)
    (hvw : classwise source u v = .var w) : w.quantifier = .universal := by
  rcases hu.eq_or_exists_class _ hvw with rfl | ⟨c, -, hmem, -, hleast⟩
  · exact hv
  · have hrank := hleast v hmem
    cases hw : w.quantifier with
    | universal => rfl
    | existential =>
      -- The rank of `v` is zero, that of `w` is not.
      have hvrank : restraintRank (.ofRule source) v = 0 := by
        simp [restraintRank, Variable.isUniversal, hv]
      have hwrank : restraintRank (.ofRule source) w ≠ 0 := by
        unfold restraintRank
        simp only [Variable.isUniversal, hw]
        split
        · contradiction
        · split <;> decide
      omega

/-- A universal variable is replaced by no existential one, whether of the source or of the
target. -/
theorem common_ne_of_universal {v e : Variable} (hv : v.quantifier = .universal)
    (he : e.quantifier = .existential) : common source target u v ≠ .var e := by
  intro heq
  rw [common_of_universal hv] at heq
  rw [universal_of_classwise hu hv heq] at he
  cases he

variable (hsource : source.WellFormed) (htarget : target.WellFormed)

include hsource htarget

/-- No existential variable occurs in the frozen facts. -/
theorem notMem_commonFacts {e : Variable} (he : e.quantifier = .existential) {m : Literal}
    (hm : m ∈ commonFacts source target u) : Term.var e ∉ m.arguments := by
  intro hmem
  rcases mem_commonFacts.1 hm with ⟨l, hl, rfl⟩ | ⟨l, hl, rfl⟩
  · obtain ⟨v, hv, heq⟩ := Literal.exists_variable_of_mem_under hmem
    have huniversal := hsource.body_universal v (Rule.mem_bodyVariables.2 ⟨l, hl, hv⟩)
    exact common_ne_of_universal hu huniversal he heq
  · obtain ⟨v, hv, heq⟩ := Literal.exists_variable_of_mem_under hmem
    have huniversal := htarget.body_universal v (Rule.mem_bodyVariables.2 ⟨l, hl, hv⟩)
    exact common_ne_of_universal hu huniversal he heq

omit hsource in
/-- The first test of the applications asks whether the target has nothing to add to the frozen
facts. -/
theorem restrainedIdle_iff :
    restrainedIdle (.ofRule source) (.ofRule target) u = true ↔
      target.Satisfied (common source target u) (commonFacts source target u) := by
  refine Rule.entailsWith_iff_satisfied htarget
    (Instance.indexed_extend (Instance.indexed_ofList _) _) (fun v hv z hz => ?_)
    fun _ hz => common_of_mem hz
  exact common_ne_of_universal hu (htarget.body_universal v hv) (Rule.mem_existentials.1 hz).2

end Universal

variable (hsource : source.WellFormed) (htarget : target.WellFormed)
  (hapart : ∀ v ∈ source.allVariables, v ∉ target.allVariables)
  (hu : u.WellFormed (p.Uses source.head target.head)) (hkeeps : KeepsFresh source target u)

include hapart

theorem notMem_target_of_source {v : Variable} (hv : v ∈ source.allVariables) :
    v ∉ target.existentials :=
  fun hex => hapart v hv (Rule.mem_allVariables_of_mem_existentials hex)

include hsource htarget hu in
/-- The fresh values of the source do not occur after the application of the target. -/
theorem notMem_after_target {e : Variable} (he : e ∈ source.existentials) {m : Literal}
    (hm : m ∈ commonFacts source target u ∪ target.result (common source target u) Term.var) :
    Term.var e ∉ m.arguments := by
  have hexistential := (Rule.mem_existentials.1 he).2
  rcases Finset.mem_union.1 hm with hm | hm
  · exact notMem_commonFacts hu hsource htarget hexistential hm
  · intro hmem
    obtain ⟨l, hl, rfl⟩ := Rule.mem_result.1 hm
    rw [extended_common_target] at hmem
    obtain ⟨v, hv, heq⟩ := Literal.exists_variable_of_mem_under hmem
    have hvtarget := Rule.mem_allVariables_of_head hl hv
    -- The target's existential variables are its own, and its body variables are universal.
    rcases htarget.mem_bodyVariables_or_existentials hvtarget with hbody | hex
    · exact common_ne_of_universal hu (htarget.body_universal v hbody) hexistential heq
    · rw [common_of_mem hex] at heq
      cases heq
      exact hapart e (Rule.mem_allVariables_of_mem_existentials he) hvtarget

include hu hkeeps

/-- The existential variables of the source stand for their classes. -/
theorem classwise_source_existential {e : Variable} (he : e ∈ source.existentials) :
    classwise source u e = .var e := by
  apply hu.applyVariable_eq_self
  intro c hc hmem
  obtain ⟨hrigid, hothers⟩ := hkeeps e he c hc hmem
  refine ⟨hrigid, fun w hw hrank => (hothers w hw).resolve_right fun hex => ?_⟩
  -- An existential variable of the target has the highest rank.
  have hwsource : w ∉ source.existentials :=
    fun hwsource => notMem_target_of_source hapart
      (Rule.mem_allVariables_of_mem_existentials hwsource) hex
  have herank : restraintRank (.ofRule source) e = 1 := by
    have hexistential : (RuleIndex.ofRule source).isExistential e = true :=
      List.contains_iff_mem.2 he
    simp [restraintRank, Variable.isUniversal, (Rule.mem_existentials.1 he).2, hexistential]
  have hwrank : restraintRank (.ofRule source) w = 2 := by
    have hexistential : (RuleIndex.ofRule source).isExistential w = false := by
      rw [← Bool.not_eq_true]
      exact fun hmem => hwsource (List.contains_iff_mem.1 hmem)
    simp [restraintRank, Variable.isUniversal, (Rule.mem_existentials.1 hex).2, hexistential]
  omega

theorem common_source_existential {e : Variable} (he : e ∈ source.existentials) :
    common source target u e = .var e := by
  rw [common_of_notMem
    (notMem_target_of_source hapart (Rule.mem_allVariables_of_mem_existentials he))]
  exact classwise_source_existential hapart hu hkeeps he

include hsource

/-- The second test asks whether the source has nothing to add after the target was applied. -/
theorem restrainingIdle_iff :
    restrainingIdle (.ofRule source) (.ofRule target) u = true ↔
      source.Satisfied (common source target u)
        (commonFacts source target u ∪ target.result (common source target u) Term.var) := by
  rw [← facts_extend_target]
  refine Rule.entailsWith_iff_satisfied hsource
    (Instance.indexed_extend (Instance.indexed_extend (Instance.indexed_ofList _) _) _)
    (fun v hv e he => ?_) fun _ he => common_source_existential hapart hu hkeeps he
  exact common_ne_of_universal hu (hsource.body_universal v hv) (Rule.mem_existentials.1 he).2

include htarget

/-- The applications count if both rules have something to add. -/
theorem isEffectiveRestraint_iff :
    isEffectiveRestraint (.ofRule source) (.ofRule target) u = true ↔
      ¬ target.Satisfied (common source target u) (commonFacts source target u) ∧
        ¬ source.Satisfied (common source target u)
          (commonFacts source target u ∪ target.result (common source target u) Term.var) := by
  rw [← restrainedIdle_iff hu htarget, ← restrainingIdle_iff hsource hapart hu hkeeps]
  simp [isEffectiveRestraint]

end Frozen

/-! ## §3 From tests to applications -/

section Sound

variable {source target : Rule} {p : Pairing} {u : Unifier}

/-- The existential variables of the target that stand in paired literals. -/
def redirectedVariables (target : Rule) (p : Pairing) : Set Variable :=
  {z | z ∈ target.existentials ∧ ∃ l ∈ p.covered target.head, z ∈ l.occurringVariables}

open Classical in
/-- Existential variables in paired literals take the values that the unifier gives them. -/
noncomputable def redirection (source target : Rule) (p : Pairing) (u : Unifier) : Assignment :=
  fun v => if v ∈ redirectedVariables target p then classwise source u v else .var v

/-- In a paired literal, all variables take the values that the unifier gives them. -/
theorem under_redirection {l : Literal} (hl : l ∈ p.covered target.head) :
    l.under (target.extended (common source target u) (redirection source target p u)) =
      l.under (classwise source u) := by
  apply Literal.under_congr
  intro v hv
  by_cases hex : v ∈ target.existentials
  · rw [Rule.extended_of_mem _ _ hex]
    exact if_pos ⟨hex, l, hl, hv⟩
  · rw [Rule.extended, if_neg hex, common_of_notMem hex]

/-- In the head of the source, all variables take the values that the unifier gives them. -/
theorem under_common_source
    (hapart : ∀ v ∈ source.allVariables, v ∉ target.allVariables)
    (hu : u.WellFormed (p.Uses source.head target.head)) (hkeeps : KeepsFresh source target u)
    {l : Literal} (hl : l ∈ source.head) :
    l.under (source.extended (common source target u) Term.var) =
      l.under (classwise source u) := by
  apply Literal.under_congr
  intro v hv
  by_cases hex : v ∈ source.existentials
  · rw [Rule.extended_of_mem _ _ hex]
    exact (classwise_source_existential hapart hu hkeeps hex).symm
  · rw [Rule.extended, if_neg hex]
    exact common_of_notMem
      (notMem_target_of_source hapart (Rule.mem_allVariables_of_head hl hv))

/-- A paired literal, redirected, is equal to its partner in the source's head. -/
theorem redirection_mem_result
    (hapart : ∀ v ∈ source.allVariables, v ∉ target.allVariables)
    (hp : p.Valid source.head.length target.head.length)
    (hunifier : p.unifier? source.head target.head = some u) (hkeeps : KeepsFresh source target u)
    {l : Literal} (hl : l ∈ p.covered target.head) :
    l.under (target.extended (common source target u) (redirection source target p u)) ∈
      source.result (common source target u) Term.var := by
  have hu := Pairing.wellFormed_of_unifier hunifier
  -- The partner has the same image under the unifier, and the source asserts this image.
  obtain ⟨l', hpair⟩ := Pairing.exists_partner hp hl
  have hl' := Pairing.mem_left_of_mem_pairs hpair
  have hequal : l'.under (classwise source u) = l.under (classwise source u) :=
    Pairing.under_substitution_eq hunifier _ hpair
  rw [under_redirection hl, Rule.mem_result]
  exact ⟨l', hl', (under_common_source hapart hu hkeeps hl').trans hequal⟩

variable (hsource : source.WellFormed) (htarget : target.WellFormed)
  (hapart : ∀ v ∈ source.allVariables, v ∉ target.allVariables)
  (hp : p.Valid source.head.length target.head.length)
  (hunifier : p.unifier? source.head target.head = some u)
  (htouches : touchesExistential (.ofRule target) p = true)
  (hkeeps : KeepsFresh source target u) (hcovers : coversTarget (.ofRule target) p = true)

include hsource htarget hapart hp hunifier htouches hkeeps hcovers

/-- A unifier describes two applications, with the existential variables of both rules as their own
fresh values. -/
theorem redirects_of_keepsFresh :
    source.Redirects target (commonFacts source target u) (common source target u)
      (common source target u) Term.var Term.var (redirection source target p u)
      (redirectedVariables target p) := by
  have hu := Pairing.wellFormed_of_unifier hunifier
  refine
    { trigger := fun l hl => mem_commonFacts.2 (Or.inl ⟨l, hl, rfl⟩)
      restrainedTrigger := fun l hl => mem_commonFacts.2 (Or.inr ⟨l, hl, rfl⟩)
      freshRestrained := .of_variables fun z hz m hm =>
        notMem_commonFacts hu hsource htarget (Rule.mem_existentials.1 hz).2 hm
      freshRestraining := .of_variables fun e he m hm =>
        notMem_after_target hsource htarget hapart hu he hm
      nonempty := ?_
      existential := fun z hz => hz.1
      unchanged := fun z _ hz => if_neg hz
      redirected := fun l hl hz => ?_ }
  · obtain ⟨z, hz, hpaired⟩ := touchesExistential_iff.1 htouches
    exact ⟨z, hz, hpaired⟩
  -- A head literal with a redirected variable is paired, since the pairing covers what it touches.
  · obtain ⟨z, ⟨hex, hpaired⟩, hzl⟩ := hz
    have hcovered : l ∈ p.covered target.head := by
      rcases Pairing.mem_covered_or_uncovered (p := p) hl with hl | hl
      · exact hl
      · exact absurd hzl (coversTarget_iff.1 hcovers z hex hpaired l hl)
    exact redirection_mem_result hapart hp hunifier hkeeps hcovered

/-- If it passes the tests, then both rules have something to add in the applications. -/
theorem restrains_of_isEffectiveRestraint
    (heffective : isEffectiveRestraint (.ofRule source) (.ofRule target) u = true) :
    source.Restrains target (commonFacts source target u) (common source target u)
      (common source target u) Term.var Term.var (redirection source target p u)
      (redirectedVariables target p) := by
  have hu := Pairing.wellFormed_of_unifier hunifier
  apply Rule.restrains_iff_redirects.2
  refine ⟨?_, (isEffectiveRestraint_iff hsource htarget hapart hu hkeeps).1 heffective⟩
  exact redirects_of_keepsFresh hsource htarget hapart hp hunifier htouches hkeeps hcovers

end Sound

/-- What it takes for a pairing to show a restraint. -/
theorem showsNegative_eq_true_iff {source target : Rule} {config : Config} {p : Pairing} :
    showsNegative (.ofRule source) (.ofRule target) config p = true ↔
      touchesExistential (.ofRule target) p = true ∧
      ∃ u, p.unifier? source.head target.head = some u ∧ KeepsFresh source target u ∧
        coversTarget (.ofRule target) p = true ∧
        (config.applicability = true →
          isEffectiveRestraint (.ofRule source) (.ofRule target) u = true) := by
  have hrules : p.unifier? (RuleIndex.ofRule source).rule.head (RuleIndex.ofRule target).rule.head =
      p.unifier? source.head target.head := rfl
  rw [showsNegative, hrules, Bool.and_eq_true]
  refine and_congr_right fun _ => ?_
  cases hunifier : p.unifier? source.head target.head with
  | none => simp
  | some u =>
    have hkeeps : keepsSourceFresh (.ofRule source) (.ofRule target) u = true ↔
        KeepsFresh source target u :=
      keepsSourceFresh_iff (Pairing.wellFormed_of_unifier hunifier)
    -- The test of the applications is made only if it is switched on.
    simp only [Option.some.injEq, exists_eq_left', Bool.and_eq_true, isRestrainingUnifier, hkeeps,
      Bool.or_eq_true, Bool.not_eq_true', and_assoc]
    rw [← Bool.not_eq_true, ← imp_iff_not_or]

/-! ## §4 From applications to tests -/

section Complete

variable {source target : Rule} {I : Finset Literal} {h₁ h₂ n m g : Assignment}
  {Z : Set Variable} {p : Pairing} {u : Unifier}

variable (hsource : source.WellFormed) (htarget : target.WellFormed)
  (hapart : ∀ v ∈ source.allVariables, v ∉ target.allVariables)
  (hredirects : source.Redirects target I h₁ h₂ n m g Z)

section Redirected

variable (hcovered : ∀ j l, target.head[j]? = some l →
    (j ∈ p.right ↔ ∃ z ∈ Z, z ∈ l.occurringVariables))

include hredirects

theorem exists_redirected : ∃ l ∈ target.head, ∃ z ∈ Z, z ∈ l.occurringVariables := by
  obtain ⟨z, hz⟩ := hredirects.nonempty
  have hhead := (Rule.mem_existentials.1 (hredirects.existential z hz)).1
  obtain ⟨l, hl, hzl⟩ := Rule.mem_headVariables.1 hhead
  exact ⟨l, hl, z, hz, hzl⟩

include hsource in
/-- All existential variables of a redirected literal are redirected: a fresh value of the target is
not among what the source asserts. -/
theorem mem_of_redirected {l : Literal} (hl : l ∈ target.head)
    (hredirected : ∃ z ∈ Z, z ∈ l.occurringVariables) {z : Variable} (hz : z ∈ target.existentials)
    (hzl : z ∈ l.occurringVariables) : z ∈ Z := by
  -- Otherwise its fresh value would be among what the source asserts.
  by_contra hnot
  apply hredirects.notMem_result hsource hz (hredirects.redirected l hl hredirected)
  rw [← hredirects.unchanged z hz hnot, ← Rule.extended_of_mem h₂ g hz]
  exact Literal.mem_arguments_under_of_mem hzl

include hcovered

theorem touchesExistential_of_redirects : touchesExistential (.ofRule target) p = true := by
  obtain ⟨l, hl, z, hz, hzl⟩ := exists_redirected hredirects
  obtain ⟨j, hj⟩ := List.getElem?_of_mem hl
  have hpaired : l ∈ p.covered target.head :=
    Pairing.mem_covered.2 ⟨j, (hcovered j l hj).2 ⟨z, hz, hzl⟩, hj⟩
  exact touchesExistential_iff.2 ⟨z, hredirects.existential z hz, l, hpaired, hzl⟩

include hsource in
/-- Outside the redirected literals there are no redirected variables. -/
theorem coversTarget_of_redirects : coversTarget (.ofRule target) p = true := by
  apply coversTarget_iff.2
  intro z hz hpaired l' hl' hzl'
  obtain ⟨l, hl, hzl⟩ := hpaired
  obtain ⟨j, hj, hlj⟩ := Pairing.mem_covered.1 hl
  have hmem : z ∈ Z := mem_of_redirected hsource hredirects (List.mem_of_getElem? hlj)
    ((hcovered j l hlj).1 hj) hz hzl
  obtain ⟨j', hj', hnot⟩ := Pairing.mem_uncovered.1 hl'
  exact hnot ((hcovered j' l' hj').2 ⟨z, hmem, hzl'⟩)

end Redirected

variable (hu : u.WellFormed (p.Uses source.head target.head))
  (hrespects : u.Respects (source.joined h₁ m (target.extended h₂ g)))

include hsource htarget hredirects hu hrespects in
/-- A fresh value of the source is equal to nothing in the facts and to no other fresh value of the
source, so only redirected variables can have it. -/
theorem keepsFresh_of_redirects : KeepsFresh source target u := by
  intro e he c hc hmem
  -- All members of the class have one value, and it is the fresh value of the variable.
  obtain ⟨a, hvalue⟩ := hrespects c hc
  have hfresh := hredirects.freshRestraining.fresh e he
  have ha : a = m e := by
    rw [← hvalue.1 e hmem, Rule.joined_of_mem_existentials he]
  subst ha
  refine ⟨?_, fun v hv => ?_⟩
  · exact Pairing.rigid_eq_none_of_freshFor (fun _ => List.mem_append_right _)
      (fun _ => List.mem_append_right _) (hu.valid c hc) hvalue hfresh
  · by_cases hvsource : v ∈ source.allVariables
    · exact Or.inl (Rule.eq_of_joined_eq_fresh hsource
        (hredirects.trigger.mono Finset.subset_union_left) hredirects.freshRestraining hvsource he
        (hvalue.1 v hv))
    · have hvtarget : v ∈ target.allVariables := by
        rcases (hu.valid c hc).members v hv with ⟨l, hl, hvl⟩ | ⟨l, hl, hvl⟩
        · exact absurd (Rule.mem_allVariables_of_head hl (Literal.mem_occurringVariables.2 hvl))
            hvsource
        · obtain ⟨j, -, hj⟩ := Pairing.mem_covered.1 hl
          exact Rule.mem_allVariables_of_head (List.mem_of_getElem? hj)
            (Literal.mem_occurringVariables.2 hvl)
      refine Or.inr ((htarget.mem_bodyVariables_or_existentials hvtarget).resolve_left ?_)
      -- A body variable of the target has its value from the facts.
      intro hbody
      have hv := hvalue.1 v hv
      rw [Rule.joined_of_notMem hvsource, htarget.extended_of_mem_body h₂ g hbody] at hv
      exact (hredirects.restrainedTrigger.mono Finset.subset_union_left).ne_of_freshFor hfresh
        hbody hv

section

include hapart hredirects

/-- A redirected head literal of the target is the image of a head literal of the source. -/
theorem exists_head_of_redirected {l : Literal} (hl : l ∈ target.head)
    (hz : ∃ z ∈ Z, z ∈ l.occurringVariables) :
    ∃ l' ∈ source.head, l'.under (source.joined h₁ m (target.extended h₂ g)) =
      l.under (source.joined h₁ m (target.extended h₂ g)) := by
  obtain ⟨l', hl', heq⟩ := Rule.mem_result.1 (hredirects.redirected l hl hz)
  refine ⟨l', hl', ?_⟩
  rw [Rule.under_joined_of_mem_head hl',
    Rule.under_joined_of_apart hapart (List.mem_append_right _ hl), heq]

/-- A redirected literal has the signature of a head literal of the source. -/
theorem overlaps_of_redirects : (RuleIndex.ofRule source).overlaps (.ofRule target) = true := by
  obtain ⟨l, hl, hz⟩ := exists_redirected hredirects
  obtain ⟨l', hl', heq⟩ := exists_head_of_redirected hapart hredirects hl hz
  apply RuleIndex.any_fingerprint_contains _ hl' hl
  simpa using congrArg Literal.signature heq

end

/-! ### The tests of the applications -/

section

include hu hrespects

/-- Whatever values the existential variables of the target have, they do not matter for what a
universal variable is replaced by. -/
theorem mapVariable_common (k : Assignment) {v : Variable}
    (hv : v.quantifier = .universal ∨ v ∈ target.existentials) :
    (common source target u v).mapVariable (source.joined h₁ m (target.extended h₂ k)) =
      source.joined h₁ m (target.extended h₂ k) v := by
  rcases hv with huniversal | hex
  -- Universal variables are replaced by universal ones only, for which the two assignments agree.
  · have hsame : ∀ w : Variable, w.quantifier = .universal →
        source.joined h₁ m (target.extended h₂ k) w =
          source.joined h₁ m (target.extended h₂ g) w := by
      intro w hw
      simp [Rule.joined, Rule.extended, Rule.notMem_existentials_of_universal hw]
    rw [common_of_universal huniversal, hsame v huniversal,
      ← hu.mapVariable_substitution (restraintRank (.ofRule source)) hrespects v]
    apply Term.mapVariable_congr
    intro w hw
    exact hsame w (universal_of_classwise hu huniversal hw)
  · rw [common_of_mem hex, Term.mapVariable_var]

theorem under_common (k : Assignment) {l : Literal}
    (hl : ∀ v ∈ l.occurringVariables, v.quantifier = .universal ∨ v ∈ target.existentials) :
    (l.under (common source target u)).under (source.joined h₁ m (target.extended h₂ k)) =
      l.under (source.joined h₁ m (target.extended h₂ k)) := by
  rw [Literal.under_under]
  exact Literal.under_congr fun v hv => mapVariable_common hu hrespects k (hl v hv)

include htarget

/-- A head literal of the target has no other variables. -/
theorem under_common_target (k : Assignment) {l : Literal} (hl : l ∈ target.head) :
    (l.under (common source target u)).under (source.joined h₁ m (target.extended h₂ k)) =
      l.under (source.joined h₁ m (target.extended h₂ k)) := by
  apply under_common hu hrespects k
  intro v hv
  have hvtarget := Rule.mem_allVariables_of_head hl hv
  exact (htarget.mem_bodyVariables_or_existentials hvtarget).imp_left (htarget.body_universal v)

include hapart

/-- What a body variable of the target is replaced by has the value of the variable. -/
theorem mapVariable_common_target {v : Variable} (hv : v ∈ target.bodyVariables) :
    (common source target u v).mapVariable (source.joined h₁ m (target.extended h₂ n)) = h₂ v := by
  have hvtarget := Rule.mem_allVariables.2 (Or.inl hv)
  rw [mapVariable_common hu hrespects n (Or.inl (htarget.body_universal v hv)),
    Rule.joined_of_notMem fun hvsource => hapart v hvsource hvtarget]
  exact htarget.extended_of_mem_body h₂ n hv

end

include hsource htarget hapart hredirects hu hrespects

/-- The two matches send the frozen facts to the given ones. -/
theorem commonFacts_mem :
    ∀ l ∈ commonFacts source target u,
      l.under (source.joined h₁ m (target.extended h₂ n)) ∈ I := by
  intro l' hl'
  rcases mem_commonFacts.1 hl' with ⟨l, hl, rfl⟩ | ⟨l, hl, rfl⟩
  · rw [under_common hu hrespects n fun v hv =>
        Or.inl (hsource.body_universal v (Rule.mem_bodyVariables.2 ⟨l, hl, hv⟩)),
      Rule.under_joined_of_mem_body hsource hl]
    exact hredirects.trigger l hl
  · rw [under_common hu hrespects n fun v hv =>
        Or.inl (htarget.body_universal v (Rule.mem_bodyVariables.2 ⟨l, hl, hv⟩)),
      Rule.under_joined_of_apart hapart (List.mem_append_left _ hl),
      htarget.under_extended_of_mem_body h₂ n hl]
    exact hredirects.restrainedTrigger l hl

/-- They send what is there after the application of the target to what is there after the given
one. -/
theorem afterTarget_mem :
    ∀ l ∈ commonFacts source target u ∪ target.result (common source target u) Term.var,
      l.under (source.joined h₁ m (target.extended h₂ n)) ∈ I ∪ target.result h₂ n := by
  intro l' hl'
  rcases Finset.mem_union.1 hl' with hl' | hl'
  · exact Finset.mem_union_left _
      (commonFacts_mem hsource htarget hapart hredirects hu hrespects l' hl')
  · obtain ⟨l, hl, rfl⟩ := Rule.mem_result.1 hl'
    rw [extended_common_target, under_common_target htarget hu hrespects n hl,
      Rule.under_joined_of_apart hapart (List.mem_append_right _ hl)]
    exact Finset.mem_union_right _ (Rule.mem_result.2 ⟨l, hl, rfl⟩)

omit hredirects in
/-- If the given applications add something, then so do those that the unifier describes. -/
theorem isEffectiveRestraint_of_restrains (hrestrains : source.Restrains target I h₁ h₂ n m g Z) :
    isEffectiveRestraint (.ofRule source) (.ofRule target) u = true := by
  have hredirects := hrestrains.redirects
  have hkeeps := keepsFresh_of_redirects hsource htarget hredirects hu hrespects
  have hbefore := commonFacts_mem hsource htarget hapart hredirects hu hrespects
  have hafter := afterTarget_mem hsource htarget hapart hredirects hu hrespects
  apply (isEffectiveRestraint_iff hsource htarget hapart hu hkeeps).2
  -- A satisfied match in the frozen facts would be satisfied in the given ones, too.
  refine ⟨fun hsatisfied => ?_, fun hsatisfied => ?_⟩
  · apply hrestrains.restrained.2
    refine (hsatisfied.map hbefore).congr htarget fun v hv => ?_
    exact mapVariable_common_target htarget hapart hu hrespects hv
  · apply hrestrains.restraining.2
    refine (hsatisfied.map hafter).congr hsource fun v hv => ?_
    rw [mapVariable_common hu hrespects n (Or.inl (hsource.body_universal v hv))]
    exact Rule.joined_of_mem_bodyVariables hsource hv

end Complete

section Pairing

variable {source target : Rule} {I : Finset Literal} {h₁ h₂ n m g : Assignment}
  {Z : Set Variable} (hsource : source.WellFormed) (htarget : target.WellFormed)
  (hapart : ∀ v ∈ source.allVariables, v ∉ target.allVariables)
  (hlimit : ∀ m, target.head.length.choose m ≤ countLimit)

include hsource htarget hapart hlimit

/-- The redirected literals, with the head literals that they are sent to, are a pairing that covers
what it touches, and its unifier treats fresh terms as fresh. -/
theorem exists_keepsFresh_of_redirects (hredirects : source.Redirects target I h₁ h₂ n m g Z) :
    ∃ p ∈ pairings source.head.length target.head.length,
      touchesExistential (.ofRule target) p = true ∧ coversTarget (.ofRule target) p = true ∧
        ∃ u, p.unifier? source.head target.head = some u ∧
          u.Respects (source.joined h₁ m (target.extended h₂ g)) ∧ KeepsFresh source target u := by
  obtain ⟨p, hp, hcovered, u, hunifier, hrespects⟩ :=
    exists_pairing hlimit (fun l => ∃ z ∈ Z, z ∈ l.occurringVariables)
      (exists_redirected hredirects) fun l hl hz =>
        exists_head_of_redirected hapart hredirects hl hz
  have hu := Pairing.wellFormed_of_unifier hunifier
  exact ⟨p, hp, touchesExistential_of_redirects hredirects hcovered,
    coversTarget_of_redirects hsource hredirects hcovered, u, hunifier, hrespects,
    keepsFresh_of_redirects hsource htarget hredirects hu hrespects⟩

/-- With the tests of applications switched off, redirections are enough. -/
theorem exists_showsNegative_of_redirects {config : Config}
    (happlicability : config.applicability = false)
    (hredirects : source.Redirects target I h₁ h₂ n m g Z) :
    ∃ p ∈ pairings source.head.length target.head.length,
      showsNegative (.ofRule source) (.ofRule target) config p = true := by
  obtain ⟨p, hp, htouches, hcovers, u, hunifier, -, hkeeps⟩ :=
    exists_keepsFresh_of_redirects hsource htarget hapart hlimit hredirects
  refine ⟨p, hp, showsNegative_eq_true_iff.2 ⟨htouches, u, hunifier, hkeeps, hcovers, ?_⟩⟩
  intro hon
  rw [happlicability] at hon
  cases hon

/-- Applications give a pairing that passes the tests, whichever of them are switched on. -/
theorem exists_showsNegative (config : Config)
    (hrestrains : source.Restrains target I h₁ h₂ n m g Z) :
    ∃ p ∈ pairings source.head.length target.head.length,
      showsNegative (.ofRule source) (.ofRule target) config p = true := by
  obtain ⟨p, hp, htouches, hcovers, u, hunifier, hrespects, hkeeps⟩ :=
    exists_keepsFresh_of_redirects hsource htarget hapart hlimit hrestrains.redirects
  have hu := Pairing.wellFormed_of_unifier hunifier
  have heffective :=
    isEffectiveRestraint_of_restrains hsource htarget hapart hu hrespects hrestrains
  exact ⟨p, hp, showsNegative_eq_true_iff.2
    ⟨htouches, u, hunifier, hkeeps, hcovers, fun _ => heffective⟩⟩

end Pairing

end Reliance

/-! ## §5 Rules -/

namespace Rule

section Renamed

variable {r₁ r₂ : Rule} {ρ₁ ρ₂ : Variable → Variable} (hρ₁ : Renaming ρ₁) (hρ₂ : Renaming ρ₂)
  {I : Finset Literal} {h₁ h₂ n m g : Assignment} {Z : Set Variable}

include hρ₁ hρ₂

/-- Renamed rules redirect what the rules redirect, with the assignments read through the
renaming. -/
theorem redirects_renameBy :
    (r₁.renameBy ρ₁).Redirects (r₂.renameBy ρ₂) I h₁ h₂ n m g (Set.image ρ₂ Z) ↔
      r₁.Redirects r₂ I (fun v => h₁ (ρ₁ v)) (fun v => h₂ (ρ₂ v)) (fun v => n (ρ₂ v))
        (fun v => m (ρ₁ v)) (fun v => g (ρ₂ v)) Z := by
  have hexistential : (∀ z ∈ Set.image ρ₂ Z, z ∈ (r₂.renameBy ρ₂).existentials) ↔
      ∀ z ∈ Z, z ∈ r₂.existentials := by
    simp only [Set.forall_mem_image, apply_mem_existentials_renameBy hρ₂]
  have hunchanged : (∀ z ∈ (r₂.renameBy ρ₂).existentials, z ∉ Set.image ρ₂ Z → g z = n z) ↔
      ∀ z ∈ r₂.existentials, z ∉ Z → g (ρ₂ z) = n (ρ₂ z) := by
    simp only [mem_existentials_renameBy hρ₂, forall_exists_index, and_imp,
      forall_apply_eq_imp_iff₂, hρ₂.injective.mem_set_image]
  have hredirected : (∀ l ∈ (r₂.renameBy ρ₂).head,
        (∃ z ∈ Set.image ρ₂ Z, z ∈ l.occurringVariables) →
          l.under ((r₂.renameBy ρ₂).extended h₂ g) ∈ (r₁.renameBy ρ₁).result h₁ m) ↔
      ∀ l ∈ r₂.head, (∃ z ∈ Z, z ∈ l.occurringVariables) →
        l.under (r₂.extended (fun v => h₂ (ρ₂ v)) fun v => g (ρ₂ v)) ∈
          r₁.result (fun v => h₁ (ρ₁ v)) fun v => m (ρ₁ v) := by
    simp only [renameBy_head, List.forall_mem_map, exists_mem_renamed hρ₂,
      extended_renameBy hρ₂,
      result_renameBy hρ₁]
  -- What is left are the matches and the fresh values.
  refine ⟨fun h => ?_, fun h => ?_⟩
  · obtain ⟨htrigger, hrestrained, hfresh₂, hfresh₁, hnonempty, hex, hun, hred⟩ := h
    rw [matches_renameBy] at htrigger hrestrained
    rw [freshValues_renameBy hρ₂, freshValues_pair_renameBy] at hfresh₂
    rw [freshValues_renameBy hρ₁, freshValues_pair_renameBy, result_renameBy hρ₂] at hfresh₁
    exact ⟨htrigger, hrestrained, hfresh₂, hfresh₁, Set.image_nonempty.1 hnonempty,
      hexistential.1 hex, hunchanged.1 hun, hredirected.1 hred⟩
  · refine ⟨matches_renameBy.2 h.trigger, matches_renameBy.2 h.restrainedTrigger, ?_, ?_,
      Set.image_nonempty.2 h.nonempty, hexistential.2 h.existential, hunchanged.2 h.unchanged,
      hredirected.2 h.redirected⟩
    · rw [freshValues_renameBy hρ₂, freshValues_pair_renameBy]
      exact h.freshRestrained
    · rw [freshValues_renameBy hρ₁, freshValues_pair_renameBy, result_renameBy hρ₂]
      exact h.freshRestraining

/-- The same holds for restraints, since renaming changes nothing about what is satisfied. -/
theorem restrains_renameBy :
    (r₁.renameBy ρ₁).Restrains (r₂.renameBy ρ₂) I h₁ h₂ n m g (Set.image ρ₂ Z) ↔
      r₁.Restrains r₂ I (fun v => h₁ (ρ₁ v)) (fun v => h₂ (ρ₂ v)) (fun v => n (ρ₂ v))
        (fun v => m (ρ₁ v)) (fun v => g (ρ₂ v)) Z := by
  rw [restrains_iff_redirects, restrains_iff_redirects, redirects_renameBy hρ₁ hρ₂,
    satisfied_renameBy hρ₂, satisfied_renameBy hρ₁, result_renameBy hρ₂]

omit hρ₁ in
/-- Existential variables of a renamed rule are renamed ones. -/
theorem image_preimage_of_existential (hZ : ∀ z ∈ Z, z ∈ (r₂.renameBy ρ₂).existentials) :
    Set.image ρ₂ (Set.preimage ρ₂ Z) = Z := by
  apply Set.image_preimage_eq_of_subset
  intro z hz
  obtain ⟨v, -, hv⟩ := (mem_existentials_renameBy hρ₂).1 (hZ z hz)
  exact ⟨v, hv⟩

/-- If what holds of renamed rules holds of the rules, with the assignments read through the
renamings, then it holds for some applications of the ones exactly if it does for some of the
others. -/
theorem exists_applications_renameBy
    {P' P : Finset Literal → (h₁ h₂ n m g : Assignment) → Set Variable → Prop}
    (hexistential : ∀ I h₁ h₂ n m g Z, P' I h₁ h₂ n m g Z →
      ∀ z ∈ Z, z ∈ (r₂.renameBy ρ₂).existentials)
    (hiff : ∀ I h₁ h₂ n m g Z, P' I h₁ h₂ n m g (Set.image ρ₂ Z) ↔
      P I (fun v => h₁ (ρ₁ v)) (fun v => h₂ (ρ₂ v)) (fun v => n (ρ₂ v)) (fun v => m (ρ₁ v))
        (fun v => g (ρ₂ v)) Z) :
    (∃ I h₁ h₂ n m g Z, P' I h₁ h₂ n m g Z) ↔ ∃ I h₁ h₂ n m g Z, P I h₁ h₂ n m g Z := by
  refine exists_congr fun I => ⟨fun h => ?_, fun h => ?_⟩
  · obtain ⟨h₁, h₂, n, m, g, Z, h⟩ := h
    rw [← image_preimage_of_existential hρ₂ (hexistential _ _ _ _ _ _ _ h)] at h
    exact ⟨_, _, _, _, _, _, (hiff _ _ _ _ _ _ _).1 h⟩
  · obtain ⟨h₁, h₂, n, m, g, Z, h⟩ := h
    -- Every assignment is one that is read through the renaming.
    obtain ⟨k₁, rfl⟩ := hρ₁.exists_assignment h₁
    obtain ⟨k₂, rfl⟩ := hρ₂.exists_assignment h₂
    obtain ⟨n', rfl⟩ := hρ₂.exists_assignment n
    obtain ⟨m', rfl⟩ := hρ₁.exists_assignment m
    obtain ⟨g', rfl⟩ := hρ₂.exists_assignment g
    exact ⟨k₁, k₂, n', m', g', Set.image ρ₂ Z, (hiff _ _ _ _ _ _ _).2 h⟩

/-- Whether there are redirections does not depend on the names of variables. -/
theorem exists_redirects_renameBy :
    (∃ I h₁ h₂ n m g Z, (r₁.renameBy ρ₁).Redirects (r₂.renameBy ρ₂) I h₁ h₂ n m g Z) ↔
      ∃ I h₁ h₂ n m g Z, r₁.Redirects r₂ I h₁ h₂ n m g Z :=
  exists_applications_renameBy hρ₁ hρ₂ (fun _ _ _ _ _ _ _ h => h.existential)
    fun _ _ _ _ _ _ _ => redirects_renameBy hρ₁ hρ₂

/-- Whether there are restraints does not depend on the names of variables. -/
theorem exists_restrains_renameBy :
    (∃ I h₁ h₂ n m g Z, (r₁.renameBy ρ₁).Restrains (r₂.renameBy ρ₂) I h₁ h₂ n m g Z) ↔
      ∃ I h₁ h₂ n m g Z, r₁.Restrains r₂ I h₁ h₂ n m g Z :=
  exists_applications_renameBy hρ₁ hρ₂ (fun _ _ _ _ _ _ _ h => h.existential)
    fun _ _ _ _ _ _ _ => restrains_renameBy hρ₁ hρ₂

end Renamed

/-- What the check consists of: existential variables, signatures in common, and a pairing that
shows the restraint. -/
theorem negativelyRelies_eq_true_iff {r₁ r₂ : Rule} {config : Config} :
    r₁.negativelyRelies r₂ config = true ↔
      (r₂.rename Reliance.targetSuffix).existentials ≠ [] ∧
      (config.prefilter = true →
        (Reliance.sourceIndex r₁).overlaps (Reliance.targetIndex r₂) = true) ∧
      ∃ p ∈ pairings (r₁.rename Reliance.sourceSuffix).head.length
          (r₂.rename Reliance.targetSuffix).head.length,
        Reliance.showsNegative (Reliance.sourceIndex r₁) (Reliance.targetIndex r₂) config p =
          true := by
  rw [negativelyRelies, negativelyReliesLogged, Reliance.value_negativeLogged, Bool.and_eq_true,
    Bool.and_eq_true, List.any_eq_true, Bool.or_eq_true, Bool.not_eq_true', Bool.not_eq_true',
    ← Bool.not_eq_true, ← Bool.not_eq_true, List.isEmpty_iff, ← imp_iff_not_or, and_assoc]
  exact Iff.rfl

/-- Where there is a redirection, only the pairing has to be found. -/
theorem negativelyRelies_of_shows {r₁ r₂ : Rule} {config : Config} {I : Finset Literal}
    {h₁ h₂ n m g : Assignment} {Z : Set Variable}
    (hredirects : (r₁.rename Reliance.sourceSuffix).Redirects (r₂.rename Reliance.targetSuffix) I
      h₁ h₂ n m g Z)
    (hshows : ∃ p ∈ pairings (r₁.rename Reliance.sourceSuffix).head.length
        (r₂.rename Reliance.targetSuffix).head.length,
      Reliance.showsNegative (Reliance.sourceIndex r₁) (Reliance.targetIndex r₂) config p = true) :
    r₁.negativelyRelies r₂ config = true := by
  -- The filters are passed: there is a redirected variable, and the heads have a signature in
  -- common.
  obtain ⟨z, hz⟩ := hredirects.nonempty
  have hapart := fun v => Reliance.renamedApart r₁ r₂ (v := v)
  exact negativelyRelies_eq_true_iff.2 ⟨List.ne_nil_of_mem (hredirects.existential z hz),
    fun _ => Reliance.overlaps_of_redirects hapart hredirects, hshows⟩

section Missed

variable {r₁ r₂ : Rule} (hr₁ : r₁.WellFormed) (hr₂ : r₂.WellFormed)
  (hhead : r₂.head.length ≤ 67) {I : Finset Literal} {h₁ h₂ n m g : Assignment}
  {Z : Set Variable}

include hr₁ hr₂ hhead

theorem negativelyRelies_of_redirects {config : Config}
    (happlicability : config.applicability = false)
    (hredirects : r₁.Redirects r₂ I h₁ h₂ n m g Z) : r₁.negativelyRelies r₂ config = true := by
  -- The rules are compared with their variables set apart.
  obtain ⟨J, k₁, k₂, n', m', g', Z', hrenamed⟩ := (exists_redirects_renameBy
    (renaming_withSuffix Reliance.sourceSuffix)
    (renaming_withSuffix Reliance.targetSuffix)).2 ⟨I, h₁, h₂, n, m, g, Z, hredirects⟩
  rw [← length_head_rename Reliance.targetSuffix] at hhead
  apply negativelyRelies_of_shows hrenamed
  exact Reliance.exists_showsNegative_of_redirects (hr₁.rename _) (hr₂.rename _)
    (fun v => Reliance.renamedApart r₁ r₂ (v := v)) (choose_le_countLimit hhead) happlicability
    hrenamed

theorem negativelyRelies_of_restrains (config : Config)
    (hrestrains : r₁.Restrains r₂ I h₁ h₂ n m g Z) : r₁.negativelyRelies r₂ config = true := by
  obtain ⟨J, k₁, k₂, n', m', g', Z', hrenamed⟩ := (exists_restrains_renameBy
    (renaming_withSuffix Reliance.sourceSuffix)
    (renaming_withSuffix Reliance.targetSuffix)).2 ⟨I, h₁, h₂, n, m, g, Z, hrestrains⟩
  rw [← length_head_rename Reliance.targetSuffix] at hhead
  apply negativelyRelies_of_shows hrenamed.redirects
  exact Reliance.exists_showsNegative (hr₁.rename _) (hr₂.rename _)
    (fun v => Reliance.renamedApart r₁ r₂ (v := v)) (choose_le_countLimit hhead) config hrenamed

end Missed

/-- The pairing and the unifier that a positive answer rests on. -/
theorem exists_keepsFresh_of_negativelyRelies {r₁ r₂ : Rule} {config : Config}
    (hrelies : r₁.negativelyRelies r₂ config = true) :
    ∃ (p : Pairing) (u : Unifier),
      p.Valid (r₁.rename Reliance.sourceSuffix).head.length
        (r₂.rename Reliance.targetSuffix).head.length ∧
      p.unifier? (r₁.rename Reliance.sourceSuffix).head (r₂.rename Reliance.targetSuffix).head =
        some u ∧
      Reliance.touchesExistential (Reliance.targetIndex r₂) p = true ∧
      Reliance.KeepsFresh (r₁.rename Reliance.sourceSuffix) (r₂.rename Reliance.targetSuffix) u ∧
      Reliance.coversTarget (Reliance.targetIndex r₂) p = true ∧
      (config.applicability = true →
        Reliance.isEffectiveRestraint (Reliance.sourceIndex r₁) (Reliance.targetIndex r₂) u =
          true) := by
  obtain ⟨-, -, p, hp, hshows⟩ := negativelyRelies_eq_true_iff.1 hrelies
  obtain ⟨htouches, u, hunifier, hkeeps, hcovers, heffective⟩ :=
    Reliance.showsNegative_eq_true_iff.1 hshows
  exact ⟨p, u, valid_of_mem_pairings hp, hunifier, htouches, hkeeps, hcovers, heffective⟩

theorem exists_restrains_of_negativelyRelies {r₁ r₂ : Rule} (hr₁ : r₁.WellFormed)
    (hr₂ : r₂.WellFormed) {config : Config} (happlicability : config.applicability = true)
    (hrelies : r₁.negativelyRelies r₂ config = true) :
    ∃ I h₁ h₂ n m g Z, r₁.Restrains r₂ I h₁ h₂ n m g Z := by
  obtain ⟨p, u, hp, hunifier, htouches, hkeeps, hcovers, heffective⟩ :=
    exists_keepsFresh_of_negativelyRelies hrelies
  have hrenamed := Reliance.restrains_of_isEffectiveRestraint (hr₁.rename _) (hr₂.rename _)
    (fun v => Reliance.renamedApart r₁ r₂) hp hunifier htouches hkeeps hcovers
    (heffective happlicability)
  exact (exists_restrains_renameBy (renaming_withSuffix _) (renaming_withSuffix _)).1
    ⟨_, _, _, _, _, _, _, hrenamed⟩

theorem exists_redirects_of_negativelyRelies {r₁ r₂ : Rule} (hr₁ : r₁.WellFormed)
    (hr₂ : r₂.WellFormed) {config : Config} (hrelies : r₁.negativelyRelies r₂ config = true) :
    ∃ I h₁ h₂ n m g Z, r₁.Redirects r₂ I h₁ h₂ n m g Z := by
  obtain ⟨p, u, hp, hunifier, htouches, hkeeps, hcovers, -⟩ :=
    exists_keepsFresh_of_negativelyRelies hrelies
  have hrenamed := Reliance.redirects_of_keepsFresh (hr₁.rename _) (hr₂.rename _)
    (fun v => Reliance.renamedApart r₁ r₂) hp hunifier htouches hkeeps hcovers
  exact (exists_redirects_renameBy (renaming_withSuffix _) (renaming_withSuffix _)).1
    ⟨_, _, _, _, _, _, _, hrenamed⟩

/-- With the tests of applications switched off, `r₁` is found to restrain `r₂` exactly if, for some
facts and matches of both rules in them, satisfied or not, what `r₂` asserts of some of its fresh
terms is asserted of other terms by `r₁`. -/
theorem negativelyRelies_iff_redirects {r₁ r₂ : Rule} (hr₁ : r₁.WellFormed) (hr₂ : r₂.WellFormed)
    (hhead : r₂.head.length ≤ 67) {config : Config}
    (happlicability : config.applicability = false) :
    r₁.negativelyRelies r₂ config = true ↔
      ∃ I h₁ h₂ n m g Z, r₁.Redirects r₂ I h₁ h₂ n m g Z := by
  refine ⟨fun hrelies => exists_redirects_of_negativelyRelies hr₁ hr₂ hrelies, fun hredirects => ?_⟩
  obtain ⟨I, h₁, h₂, n, m, g, Z, hredirects⟩ := hredirects
  exact negativelyRelies_of_redirects hr₁ hr₂ hhead happlicability hredirects

/-- With the tests of applications switched on, `r₁` is found to restrain `r₂` exactly if, for some
facts and matches of both rules in them, an application of `r₁` makes an earlier application of `r₂`
redundant. -/
theorem negativelyRelies_iff_restrains {r₁ r₂ : Rule} (hr₁ : r₁.WellFormed) (hr₂ : r₂.WellFormed)
    (hhead : r₂.head.length ≤ 67) {config : Config} (happlicability : config.applicability = true) :
    r₁.negativelyRelies r₂ config = true ↔
      ∃ I h₁ h₂ n m g Z, r₁.Restrains r₂ I h₁ h₂ n m g Z := by
  constructor
  · intro hrelies
    exact exists_restrains_of_negativelyRelies hr₁ hr₂ happlicability hrelies
  · intro hrestrains
    obtain ⟨I, h₁, h₂, n, m, g, Z, hrestrains⟩ := hrestrains
    exact negativelyRelies_of_restrains hr₁ hr₂ hhead config hrestrains

/-- Every student has an advisor. -/
def studentHasAdvisor : Rule :=
  ⟨[⟨"student", [.universal "X"]⟩], [⟨"advises", [.existential "Y", .universal "X"]⟩]⟩

/-- Whoever supervises someone is the advisor. -/
def supervisorAdvises : Rule :=
  ⟨[⟨"supervises", [.universal "U", .universal "V"]⟩],
    [⟨"advises", [.universal "U", .universal "V"]⟩]⟩

/-- A known supervisor makes an unknown advisor redundant, but not the other way round. -/
theorem restrains_studentHasAdvisor :
    (∃ I h₁ h₂ n m g Z, supervisorAdvises.Restrains studentHasAdvisor I h₁ h₂ n m g Z) ∧
      ¬ ∃ I h₁ h₂ n m g Z, studentHasAdvisor.Restrains supervisorAdvises I h₁ h₂ n m g Z := by
  have hstudent : studentHasAdvisor.WellFormed := by decide
  have hsupervisor : supervisorAdvises.WellFormed := by decide
  have happlicability : Config.default.applicability = true := rfl
  constructor
  · apply (negativelyRelies_iff_restrains hsupervisor hstudent (by decide) happlicability).1
    decide +kernel
  · intro hrestrains
    have hrelies :=
      (negativelyRelies_iff_restrains hstudent hsupervisor (by decide) happlicability).2 hrestrains
    exact absurd hrelies (by decide +kernel)

end Rule

end ExistentialRules
