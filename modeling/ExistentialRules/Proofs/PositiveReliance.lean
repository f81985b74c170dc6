import ExistentialRules.Proofs.PairedUnifier
import ExistentialRules.Proofs.Renaming

/-!
# Positive reliance is exact

A rule is found to rely positively on another exactly if an application of the latter to some finite
set of facts can bring about a new and unsatisfied match of the former.

A unifier that passes the tests describes such an application: its substitution, with all variables
frozen, is a match of both rules. Conversely, given an application, the new body literals and the
head literals that they come from form a pairing. The most general unifier of this pairing passes
the tests because the given matches factor through it.

With the tests of applications switched off, only the treatment of fresh terms is left: a rule is
found to rely on another exactly if an application of the latter, effective or not, can add a fact
that a match of the former uses.

## Main definitions

* `Rule.Triggers`: an application that brings about a new and unsatisfied match;
* `Rule.Feeds`: an application, effective or not, that adds what a match uses.

## Main statements

* `Reliance.feeds_of_isPiece`, `Reliance.triggers_of_isEffectiveStep`: a unifier that passes the
  tests gives an application;
* `Reliance.exists_piece_of_feeds`, `Reliance.exists_showsPositive`: an application gives a pairing
  that passes the tests;
* `Rule.positivelyRelies_iff_triggers`: the verdict is exact;
* `Rule.positivelyRelies_iff_feeds`: the verdict without the tests of applications.
-/

namespace ExistentialRules

/-- An application of `r₁` at the match `h₁`, with the terms `n` as fresh values, after which `h₂`
is a new and unsatisfied match of `r₂`. -/
structure Rule.Triggers (r₁ r₂ : Rule) (I : Finset Literal) (h₁ n h₂ : Assignment) : Prop where
  unsatisfied : r₁.Unsatisfied h₁ I
  fresh : r₁.FreshValues [r₁, r₂] I n
  new : ¬ r₂.Matches h₂ I
  enabled : r₂.Unsatisfied h₂ (I ∪ r₁.result h₁ n)

/-- An application of `r₁` at the match `h₁`, which may be satisfied, with the terms `n` as fresh
values. Afterwards `h₂` is a match of `r₂` that uses what was added. -/
structure Rule.Feeds (r₁ r₂ : Rule) (I : Finset Literal) (h₁ n h₂ : Assignment) : Prop where
  applied : r₁.Matches h₁ I
  fresh : r₁.FreshValues [r₁, r₂] I n
  enabled : r₂.Matches h₂ (I ∪ r₁.result h₁ n)
  fed : ∃ l ∈ r₂.body, l.under h₂ ∈ r₁.result h₁ n

/-- A new match uses a fact that was not there before. -/
theorem Rule.Triggers.feeds {r₁ r₂ : Rule} {I : Finset Literal} {h₁ n h₂ : Assignment}
    (htriggers : r₁.Triggers r₂ I h₁ n h₂) : r₁.Feeds r₂ I h₁ n h₂ := by
  refine ⟨htriggers.unsatisfied.1, htriggers.fresh, htriggers.enabled.1, ?_⟩
  have hnew := htriggers.new
  simp only [Rule.Matches, not_forall] at hnew
  obtain ⟨l, hl, hnew⟩ := hnew
  exact ⟨l, hl, (Finset.mem_union.1 (htriggers.enabled.1 l hl)).resolve_left hnew⟩

namespace Reliance

/-! ## §1 Piece-unifiers -/

/-- The existential variables of the source are equal to no rigid term, to no other variable of the
source, and to no variable of an unpaired body literal of the target. -/
def IsPiece (source target : Rule) (p : Pairing) (u : Unifier) : Prop :=
  ∀ e ∈ source.existentials, ∀ c ∈ u.classes, e ∈ c.members →
    c.rigid = none ∧ ∀ v ∈ c.members, v ≠ e →
      v ∉ source.allVariables ∧ ∀ l ∈ p.uncovered target.body, v ∉ l.occurringVariables

/-- The test looks at the class of each existential variable of the source, if there is one. -/
theorem isPieceUnifier_iff {source target : Rule} {p : Pairing} {u : Unifier} {T : Term → Prop}
    (hu : u.WellFormed T) :
    isPieceUnifier (.ofRule source) (.ofRule target) p u = true ↔ IsPiece source target p u := by
  rw [isPieceUnifier, List.all_eq_true]
  -- A variable without a class is equal to nothing, so that only classes have to be looked at.
  refine forall₂_congr fun e _ => (hu.class?_test_iff e _).trans ?_
  refine forall₃_congr fun c _ _ => ?_
  rw [Bool.and_eq_true, Option.isNone_iff_eq_none, List.all_eq_true]
  refine and_congr_right fun _ => ?_
  simp only [List.mem_filter, decide_eq_true_eq, and_imp]
  refine forall₃_congr fun v _ _ => ?_
  rw [Bool.and_eq_true, RuleIndex.occurrences_isEmpty_iff]
  exact and_congr_right fun _ => Pairing.literalsWith_all_covers_iff

/-! ## §2 The frozen application -/

section Frozen

variable {source target : Rule} {p : Pairing} {u : Unifier}

/-- What the unifier of a pairing does to each variable, in the application that it describes. -/
abbrev frozen (u : Unifier) : Assignment :=
  (stepSubstitution u).applyVariable

/-- An assignment that respects the unifier does not tell a literal from its frozen form. -/
theorem under_frozen {T : Term → Prop} (hu : u.WellFormed T) {θ : Assignment}
    (hθ : u.Respects θ) (l : Literal) : (l.under (frozen u)).under θ = l.under θ :=
  hu.under_substitution _ hθ l

theorem mem_factsBefore {m : Literal} :
    m ∈ (factsBefore source target p (stepSubstitution u)).facts ↔
      (∃ l ∈ source.body, l.under (frozen u) = m) ∨
        ∃ l ∈ p.uncovered target.body, l.under (frozen u) = m := by
  rw [Instance.mem_facts, factsBefore, Instance.mem_extend, Instance.mem_ofList,
    Substitution.mem_applyLiterals, Substitution.mem_applyLiterals]

theorem mem_factsAfter {m : Literal} :
    m ∈ (factsAfter source target p (stepSubstitution u)).facts ↔
      m ∈ (factsBefore source target p (stepSubstitution u)).facts ∨
        ∃ l ∈ source.head, l.under (frozen u) = m := by
  rw [Instance.mem_facts, factsAfter, Instance.mem_extend, ← Instance.mem_facts,
    Substitution.mem_applyLiterals]

theorem indexed_factsBefore :
    (factsBefore source target p (stepSubstitution u)).Indexed :=
  Instance.indexed_extend (Instance.indexed_ofList _) _

/-- The test asks whether the match of the target was there before, for which the paired literals
count. -/
theorem triggerPredates_iff :
    triggerPredates (.ofRule source) (.ofRule target) p u = true ↔
      target.Matches (frozen u) (factsBefore source target p (stepSubstitution u)).facts := by
  have hcovered : triggerPredates (.ofRule source) (.ofRule target) p u = true ↔
      ∀ l ∈ p.covered target.body,
        l.under (frozen u) ∈ (factsBefore source target p (stepSubstitution u)).facts := by
    simp only [triggerPredates, List.all_eq_true, Substitution.applyLiterals, List.forall_mem_map,
      Instance.contains, List.contains_iff_mem, Instance.mem_facts]
    rfl
  -- The unpaired literals are among the facts before the application in any case.
  rw [hcovered]
  constructor
  · intro h l hl
    rcases Pairing.mem_covered_or_uncovered (p := p) hl with hl | hl
    · exact h l hl
    · exact mem_factsBefore.2 (Or.inr ⟨l, hl, rfl⟩)
  · intro h l hl
    obtain ⟨j, -, hj⟩ := Pairing.mem_covered.1 hl
    exact h l (List.mem_of_getElem? hj)

variable (hsource : source.WellFormed) (htarget : target.WellFormed)
  (hapart : ∀ v ∈ source.allVariables, v ∉ target.allVariables)
  (hu : u.WellFormed (p.Uses source.head target.body))

/-- The unifier knows head variables of the source and body variables of the target only. -/
theorem mem_variables_of_uses {v : Variable} (hv : p.Uses source.head target.body (.var v)) :
    v ∈ source.headVariables ∨ v ∈ target.bodyVariables := by
  rcases hv with ⟨l, hl, hv⟩ | ⟨l, hl, hv⟩
  · exact Or.inl (Rule.mem_headVariables.2 ⟨l, hl, Literal.mem_occurringVariables.2 hv⟩)
  · obtain ⟨j, -, hj⟩ := Pairing.mem_covered.1 hl
    exact Or.inr (Rule.mem_bodyVariables.2
      ⟨l, List.mem_of_getElem? hj, Literal.mem_occurringVariables.2 hv⟩)

/-! ### Existential variables of the target -/

section Target

include htarget hapart hu

/-- Existential variables of the target are in no class. -/
theorem target_existential_notMem {f : Variable} (hf : f ∈ target.existentials)
    {c : VariableClass} (hc : c ∈ u.classes) : f ∉ c.members := by
  intro hmem
  rcases mem_variables_of_uses ((hu.valid c hc).members f hmem) with hv | hv
  · exact hapart f (Rule.mem_allVariables.2 (Or.inr hv))
      (Rule.mem_allVariables_of_mem_existentials hf)
  · exact htarget.notMem_existentials hv hf

theorem frozen_target_existential {f : Variable} (hf : f ∈ target.existentials) :
    frozen u f = .var f :=
  Unifier.applyVariable_substitution_of_notMem _ fun _ hc =>
    target_existential_notMem htarget hapart hu hf hc

theorem eq_of_frozen_target_existential {v f : Variable} (hf : f ∈ target.existentials)
    (hv : frozen u v = .var f) : v = f := by
  -- The unifier does not know the existential variables of the target.
  rcases hu.eq_or_exists_class _ hv with heq | ⟨c, hc, -, hmem, -⟩
  · exact heq
  · exact absurd hmem (target_existential_notMem htarget hapart hu hf hc)

end Target

/-! ### Existential variables of the source -/

variable (hpiece : IsPiece source target p u)

section Source

include hu hpiece

/-- What is replaced by an existential variable of the source is this variable or one that stands
apart. -/
theorem eq_or_separate_of_frozen {v e : Variable} (he : e ∈ source.existentials)
    (hv : frozen u v = .var e) :
    v = e ∨
      v ∉ source.allVariables ∧ ∀ l ∈ p.uncovered target.body, v ∉ l.occurringVariables := by
  rcases hu.eq_or_exists_class _ hv with heq | ⟨c, hc, hmem, hemem, -⟩
  · exact Or.inl heq
  · by_cases hne : v = e
    · exact Or.inl hne
    · exact Or.inr ((hpiece e he c hc hemem).2 v hmem hne)

include hsource in
theorem frozen_ne_of_mem_body {v e : Variable} (hv : v ∈ source.bodyVariables)
    (he : e ∈ source.existentials) : frozen u v ≠ .var e := by
  intro heq
  rcases eq_or_separate_of_frozen hu hpiece he heq with rfl | ⟨hnot, -⟩
  · exact hsource.notMem_existentials hv he
  · exact hnot (Rule.mem_allVariables.2 (Or.inl hv))

include hapart in
/-- Unpaired literals have no variable in common with the class of a fresh term. -/
theorem frozen_ne_of_mem_uncovered {l : Literal} (hl : l ∈ p.uncovered target.body)
    {v e : Variable} (hv : v ∈ l.occurringVariables) (he : e ∈ source.existentials) :
    frozen u v ≠ .var e := by
  intro heq
  rcases eq_or_separate_of_frozen hu hpiece he heq with rfl | ⟨-, hnot⟩
  · obtain ⟨j, hj, -⟩ := Pairing.mem_uncovered.1 hl
    exact hapart v (Rule.mem_allVariables_of_mem_existentials he)
      (Rule.mem_allVariables_of_body (List.mem_of_getElem? hj) hv)
  · exact hnot l hl hv

include hsource hapart in
/-- The existential variables of the source do not occur before the application. -/
theorem notMem_factsBefore {e : Variable} (he : e ∈ source.existentials) {m : Literal}
    (hm : m ∈ (factsBefore source target p (stepSubstitution u)).facts) :
    Term.var e ∉ m.arguments := by
  intro hmem
  -- The facts come from the body of the source or from unpaired literals of the target.
  rcases mem_factsBefore.1 hm with ⟨l, hl, rfl⟩ | ⟨l, hl, rfl⟩
  · obtain ⟨v, hv, heq⟩ := Literal.exists_variable_of_mem_under hmem
    exact frozen_ne_of_mem_body hsource hu hpiece (Rule.mem_bodyVariables.2 ⟨l, hl, hv⟩) he heq
  · obtain ⟨v, hv, heq⟩ := Literal.exists_variable_of_mem_under hmem
    exact frozen_ne_of_mem_uncovered hapart hu hpiece hl hv he heq

include htarget

/-- The existential variables of the source stand for their classes. -/
theorem frozen_source_existential {e : Variable} (he : e ∈ source.existentials) :
    frozen u e = .var e := by
  apply hu.applyVariable_eq_self
  intro c hc hmem
  obtain ⟨hrigid, hothers⟩ := hpiece e he c hc hmem
  refine ⟨hrigid, fun w hw hrank => ?_⟩
  by_contra hne
  -- Existential variables have the lower rank, so only they can lead the class of one.
  have hexistential : w.isExistential = true := by
    have hrank_e : e.isExistential = true := by
      simp [Variable.isExistential, (Rule.mem_existentials.1 he).2]
    by_contra hnot
    simp [hrank_e, hnot] at hrank
  -- Another existential variable of the class would be one of the target's body.
  rcases mem_variables_of_uses ((hu.valid c hc).members w hw) with hv | hv
  · exact (hothers w hw hne).1 (Rule.mem_allVariables.2 (Or.inr hv))
  · simp [Variable.isExistential, htarget.body_universal w hv] at hexistential

/-- What holds after the source is applied is the outcome of a chase step. -/
theorem facts_factsAfter :
    (factsAfter source target p (stepSubstitution u)).facts =
      (factsBefore source target p (stepSubstitution u)).facts ∪
        source.result (frozen u) Term.var := by
  ext m
  rw [Finset.mem_union, mem_factsAfter, Rule.mem_result,
    Rule.extended_var fun _ he => frozen_source_existential htarget hu hpiece he]

end Source

/-! ### The tests -/

section Tests

include htarget hapart hu

/-- The test asks whether the target has nothing to add after the application. -/
theorem targetSatisfied_iff :
    targetSatisfied (.ofRule source) (.ofRule target) p u = true ↔
      target.Satisfied (frozen u) (factsAfter source target p (stepSubstitution u)).facts := by
  refine Rule.entailsWith_iff_satisfied htarget (Instance.indexed_extend indexed_factsBefore _)
    (fun v hv f hf heq => ?_) fun _ hf => frozen_target_existential htarget hapart hu hf
  rw [eq_of_frozen_target_existential htarget hapart hu hf heq] at hv
  exact htarget.notMem_existentials hv hf

include hsource hpiece

/-- The application counts if the source has something to add and the match of the target is new and
unsatisfied. -/
theorem isEffectiveStep_iff :
    isEffectiveStep (.ofRule source) (.ofRule target) p u = true ↔
      ¬ source.Satisfied (frozen u) (factsBefore source target p (stepSubstitution u)).facts ∧
        ¬ target.Matches (frozen u) (factsBefore source target p (stepSubstitution u)).facts ∧
          ¬ target.Satisfied (frozen u)
            (factsAfter source target p (stepSubstitution u)).facts := by
  have hsatisfied : sourceSatisfied (.ofRule source) (.ofRule target) p u = true ↔
      source.Satisfied (frozen u) (factsBefore source target p (stepSubstitution u)).facts :=
    Rule.entailsWith_iff_satisfied hsource indexed_factsBefore
      (fun _ hv _ he => frozen_ne_of_mem_body hsource hu hpiece hv he)
      fun _ he => frozen_source_existential htarget hu hpiece he
  rw [← hsatisfied, ← triggerPredates_iff, ← targetSatisfied_iff htarget hapart hu]
  simp [isEffectiveStep, and_assoc]

end Tests

end Frozen

/-! ## §3 From tests to applications -/

section Sound

variable {source target : Rule} {p : Pairing} {u : Unifier} (hsource : source.WellFormed)
  (htarget : target.WellFormed) (hapart : ∀ v ∈ source.allVariables, v ∉ target.allVariables)
  (hp : p.Valid source.head.length target.body.length)
  (hunifier : p.unifier? source.head target.body = some u) (hpiece : IsPiece source target p u)

include hsource htarget hapart hp hunifier hpiece

/-- A unifier describes an application of the source: its substitution is a match of both rules,
with the existential variables of the source as their own fresh values. -/
theorem feeds_of_isPiece :
    source.Feeds target (factsBefore source target p (stepSubstitution u)).facts
      (frozen u) Term.var (frozen u) := by
  have hu := Pairing.wellFormed_of_unifier hunifier
  -- A paired literal is equal to its partner in the source's head.
  have hpaired : ∀ l ∈ p.covered target.body,
      l.under (frozen u) ∈ source.result (frozen u) Term.var := by
    intro l hl
    obtain ⟨l', hpair⟩ := Pairing.exists_partner hp hl
    have hequal : l'.under (frozen u) = l.under (frozen u) :=
      Pairing.under_substitution_eq hunifier _ hpair
    rw [Rule.mem_result,
      Rule.extended_var fun _ he => frozen_source_existential htarget hu hpiece he]
    exact ⟨l', Pairing.mem_left_of_mem_pairs hpair, hequal⟩
  refine ⟨fun l hl => mem_factsBefore.2 (Or.inl ⟨l, hl, rfl⟩),
    .of_variables fun _ he _ hm => notMem_factsBefore hsource hapart hu hpiece he hm,
    fun l hl => ?_, ?_⟩
  · apply Finset.mem_union.2
    rcases Pairing.mem_covered_or_uncovered (p := p) hl with hl | hl
    · exact Or.inr (hpaired l hl)
    · exact Or.inl (mem_factsBefore.2 (Or.inr ⟨l, hl, rfl⟩))
  -- A pairing is not empty, so that some literal uses what was added.
  · obtain ⟨j, hj⟩ := List.exists_mem_of_ne_nil p.right hp.nonempty
    have hlt := hp.right_lt j hj
    have hcovered : target.body[j] ∈ p.covered target.body :=
      Pairing.mem_covered.2 ⟨j, hj, List.getElem?_eq_getElem hlt⟩
    exact ⟨_, List.getElem_mem hlt, hpaired _ hcovered⟩

/-- If it passes the tests, then the application brings about a new and unsatisfied match. -/
theorem triggers_of_isEffectiveStep
    (heffective : isEffectiveStep (.ofRule source) (.ofRule target) p u = true) :
    source.Triggers target (factsBefore source target p (stepSubstitution u)).facts
      (frozen u) Term.var (frozen u) := by
  have hu := Pairing.wellFormed_of_unifier hunifier
  have hfeeds := feeds_of_isPiece hsource htarget hapart hp hunifier hpiece
  obtain ⟨hadds, hnew, henabled⟩ :=
    (isEffectiveStep_iff hsource htarget hapart hu hpiece).1 heffective
  rw [facts_factsAfter htarget hu hpiece] at henabled
  exact ⟨⟨hfeeds.applied, hadds⟩, hfeeds.fresh, hnew, ⟨hfeeds.enabled, henabled⟩⟩

end Sound

/-! ## §4 From applications to tests -/

section Complete

variable {source target : Rule} {I : Finset Literal} {h₁ n h₂ : Assignment}

variable (hsource : source.WellFormed) (htarget : target.WellFormed)
  (hapart : ∀ v ∈ source.allVariables, v ∉ target.allVariables)

include hapart

/-- A body literal of the target that is sent to what was added is the image of a head literal of
the source. -/
theorem exists_head_of_fed {l : Literal} (hl : l ∈ target.body)
    (hfed : l.under h₂ ∈ source.result h₁ n) :
    ∃ l' ∈ source.head, l'.under (source.joined h₁ n h₂) = l.under (source.joined h₁ n h₂) := by
  obtain ⟨l', hl', heq⟩ := Rule.mem_result.1 hfed
  refine ⟨l', hl', ?_⟩
  rw [Rule.under_joined_of_mem_head hl',
    Rule.under_joined_of_apart hapart (List.mem_append_left _ hl), heq]

variable (hfeeds : source.Feeds target I h₁ n h₂)

include hfeeds

/-- A body literal that uses what was added has the signature of a head literal of the source. -/
theorem index_feeds_of_feeds : (RuleIndex.ofRule source).feeds (.ofRule target) = true := by
  obtain ⟨l, hl, hfed⟩ := hfeeds.fed
  obtain ⟨l', hl', heq⟩ := exists_head_of_fed hapart hl hfed
  apply RuleIndex.any_fingerprint_contains _ hl' hl
  simpa using congrArg Literal.signature heq

include hsource

variable {p : Pairing} {u : Unifier}
  (hcovered : ∀ j l, target.body[j]? = some l → (j ∈ p.right ↔ l.under h₂ ∈ source.result h₁ n))

include hcovered

omit hapart hsource in
/-- An unpaired literal is sent to a fact that was there before. -/
theorem under_mem_of_uncovered {l : Literal} (hl : l ∈ p.uncovered target.body) :
    l.under h₂ ∈ I := by
  obtain ⟨j, hj, hnot⟩ := Pairing.mem_uncovered.1 hl
  apply (Finset.mem_union.1 (hfeeds.enabled l (List.mem_of_getElem? hj))).resolve_right
  intro hfed
  exact hnot ((hcovered j l hj).2 hfed)

variable (hu : u.WellFormed (p.Uses source.head target.body))
  (hrespects : u.Respects (source.joined h₁ n h₂))

include hu hrespects

/-- A fresh value is equal to nothing else: it is not mentioned in the rules, differs from the other
fresh values and from all values in the facts. -/
theorem isPiece_of_feeds : IsPiece source target p u := by
  intro e he c hc hmem
  -- All members of the class have one value, and it is the fresh value of the variable.
  obtain ⟨a, hvalue⟩ := hrespects c hc
  have hfresh := hfeeds.fresh.fresh e he
  have ha : a = n e := by
    rw [← hvalue.1 e hmem, Rule.joined_of_mem_existentials he]
  subst ha
  refine ⟨?_, fun v hv hne => ⟨fun hvsource => hne ?_, fun l hl hvl => ?_⟩⟩
  · exact Pairing.rigid_eq_none_of_freshFor (fun _ => List.mem_append_right _)
      (fun _ => List.mem_append_left _) (hu.valid c hc) hvalue hfresh
  · exact Rule.eq_of_joined_eq_fresh hsource hfeeds.applied hfeeds.fresh hvsource he
      (hvalue.1 v hv)
  -- An unpaired literal is in the facts, and so are the values of its variables.
  · obtain ⟨j, hj, -⟩ := Pairing.mem_uncovered.1 hl
    have hvtarget := Rule.mem_allVariables_of_body (List.mem_of_getElem? hj) hvl
    have hv := hvalue.1 v hv
    rw [Rule.joined_of_notMem fun hvsource => hapart v hvsource hvtarget] at hv
    apply hfresh.notMem _ (under_mem_of_uncovered hfeeds hcovered hl)
    rw [← hv]
    exact Literal.mem_arguments_under_of_mem hvl

/-- The two matches send the frozen facts to the given ones. -/
theorem factsBefore_mem :
    ∀ m ∈ (factsBefore source target p (stepSubstitution u)).facts,
      m.under (source.joined h₁ n h₂) ∈ I := by
  intro m hm
  rcases mem_factsBefore.1 hm with ⟨l, hl, rfl⟩ | ⟨l, hl, rfl⟩
  · rw [under_frozen hu hrespects, Rule.under_joined_of_mem_body hsource hl]
    exact hfeeds.applied l hl
  · obtain ⟨j, hj, -⟩ := Pairing.mem_uncovered.1 hl
    have hbody := List.mem_append_left target.head (List.mem_of_getElem? hj)
    rw [under_frozen hu hrespects, Rule.under_joined_of_apart hapart hbody]
    exact under_mem_of_uncovered hfeeds hcovered hl

/-- They send what is there after the frozen application to what is there after the given one. -/
theorem factsAfter_mem :
    ∀ m ∈ (factsAfter source target p (stepSubstitution u)).facts,
      m.under (source.joined h₁ n h₂) ∈ I ∪ source.result h₁ n := by
  intro m hm
  rcases mem_factsAfter.1 hm with hm | ⟨l, hl, rfl⟩
  · exact Finset.mem_union_left _
      (factsBefore_mem hsource hapart hfeeds hcovered hu hrespects m hm)
  · rw [under_frozen hu hrespects, Rule.under_joined_of_mem_head hl]
    exact Finset.mem_union_right _ (Rule.mem_result.2 ⟨l, hl, rfl⟩)

omit hfeeds in
include htarget in
/-- If the given application brings about a new match, then so does the frozen one. -/
theorem isEffectiveStep_of_triggers (htriggers : source.Triggers target I h₁ n h₂) :
    isEffectiveStep (.ofRule source) (.ofRule target) p u = true := by
  have hfeeds := htriggers.feeds
  have hpiece := isPiece_of_feeds hsource hapart hfeeds hcovered hu hrespects
  have hbefore := factsBefore_mem hsource hapart hfeeds hcovered hu hrespects
  have hafter := factsAfter_mem hsource hapart hfeeds hcovered hu hrespects
  -- The joined match is what the unifier does, followed by the joined match.
  have hfactor : ∀ v, (frozen u v).mapVariable (source.joined h₁ n h₂) = source.joined h₁ n h₂ v :=
    fun v => hu.mapVariable_substitution _ hrespects v
  have htargetValue : ∀ v ∈ target.bodyVariables,
      (frozen u v).mapVariable (source.joined h₁ n h₂) = h₂ v := by
    intro v hv
    rw [hfactor]
    exact Rule.joined_of_notMem fun hvsource =>
      hapart v hvsource (Rule.mem_allVariables.2 (Or.inl hv))
  apply (isEffectiveStep_iff hsource htarget hapart hu hpiece).2
  -- What holds in the frozen facts would hold in the given ones, too.
  refine ⟨fun hsatisfied => ?_, fun hmatches => ?_, fun hsatisfied => ?_⟩
  · apply htriggers.unsatisfied.2
    refine (hsatisfied.map hbefore).congr hsource fun v hv => ?_
    rw [hfactor]
    exact Rule.joined_of_mem_bodyVariables hsource hv
  · apply htriggers.new
    exact (hmatches.map hbefore).congr htargetValue
  · apply htriggers.enabled.2
    exact (hsatisfied.map hafter).congr htarget htargetValue

end Complete

section Pairing

variable {source target : Rule} {I : Finset Literal} {h₁ n h₂ : Assignment}
  (hsource : source.WellFormed) (htarget : target.WellFormed)
  (hapart : ∀ v ∈ source.allVariables, v ∉ target.allVariables)
  (hlimit : ∀ m, target.body.length.choose m ≤ countLimit)

include hsource hapart hlimit

/-- The literals that are sent to what was added, with the head literals that they come from, are a
pairing whose unifier treats fresh terms as fresh. -/
theorem exists_piece_of_feeds (hfeeds : source.Feeds target I h₁ n h₂) :
    ∃ p ∈ pairings source.head.length target.body.length,
      (∀ j l, target.body[j]? = some l → (j ∈ p.right ↔ l.under h₂ ∈ source.result h₁ n)) ∧
        ∃ u, p.unifier? source.head target.body = some u ∧
          u.Respects (source.joined h₁ n h₂) ∧ IsPiece source target p u := by
  obtain ⟨p, hp, hcovered, u, hunifier, hrespects⟩ :=
    exists_pairing hlimit (fun l => l.under h₂ ∈ source.result h₁ n) hfeeds.fed
      fun l hl hfed => exists_head_of_fed hapart hl hfed
  have hu := Pairing.wellFormed_of_unifier hunifier
  have hpiece := isPiece_of_feeds hsource hapart hfeeds hcovered hu hrespects
  exact ⟨p, hp, hcovered, u, hunifier, hrespects, hpiece⟩

/-- With the tests of applications switched off, it is enough that something is used. -/
theorem exists_showsPositive_of_feeds {config : Config}
    (happlicability : config.applicability = false) (hfeeds : source.Feeds target I h₁ n h₂) :
    ∃ p ∈ pairings source.head.length target.body.length,
      showsPositive (.ofRule source) (.ofRule target) config p = true := by
  obtain ⟨p, hp, -, u, hunifier, -, hpiece⟩ :=
    exists_piece_of_feeds hsource hapart hlimit hfeeds
  have hu := Pairing.wellFormed_of_unifier hunifier
  refine ⟨p, hp, ?_⟩
  have hunifier' : p.unifier? (RuleIndex.ofRule source).rule.head
      (RuleIndex.ofRule target).rule.body = some u := hunifier
  simp [showsPositive, hunifier', (isPieceUnifier_iff hu).2 hpiece, happlicability]

include htarget in
/-- An application gives a pairing that passes the tests, whichever of them are switched on. -/
theorem exists_showsPositive (config : Config) (htriggers : source.Triggers target I h₁ n h₂) :
    ∃ p ∈ pairings source.head.length target.body.length,
      showsPositive (.ofRule source) (.ofRule target) config p = true := by
  obtain ⟨p, hp, hcovered, u, hunifier, hrespects, hpiece⟩ :=
    exists_piece_of_feeds hsource hapart hlimit htriggers.feeds
  have hu := Pairing.wellFormed_of_unifier hunifier
  have heffective :=
    isEffectiveStep_of_triggers hsource htarget hapart hcovered hu hrespects htriggers
  refine ⟨p, hp, ?_⟩
  have hunifier' : p.unifier? (RuleIndex.ofRule source).rule.head
      (RuleIndex.ofRule target).rule.body = some u := hunifier
  simp [showsPositive, hunifier', (isPieceUnifier_iff hu).2 hpiece, heffective]

end Pairing

end Reliance

/-! ## §5 Rules -/

namespace Rule

/-- Renamed rules trigger each other as the rules do, with the assignments read through the
renaming. -/
theorem triggers_renameBy {r₁ r₂ : Rule} {ρ₁ ρ₂ : Variable → Variable} (hρ₁ : Renaming ρ₁)
    (hρ₂ : Renaming ρ₂) {I : Finset Literal} {h₁ n h₂ : Assignment} :
    (r₁.renameBy ρ₁).Triggers (r₂.renameBy ρ₂) I h₁ n h₂ ↔
      r₁.Triggers r₂ I (fun v => h₁ (ρ₁ v)) (fun v => n (ρ₁ v)) fun v => h₂ (ρ₂ v) := by
  constructor
  · intro h
    obtain ⟨hunsatisfied, hfresh, hnew, henabled⟩ := h
    rw [unsatisfied_renameBy hρ₁] at hunsatisfied
    rw [freshValues_renameBy hρ₁, freshValues_pair_renameBy] at hfresh
    rw [matches_renameBy] at hnew
    rw [unsatisfied_renameBy hρ₂, result_renameBy hρ₁] at henabled
    exact ⟨hunsatisfied, hfresh, hnew, henabled⟩
  · intro h
    refine ⟨(unsatisfied_renameBy hρ₁).2 h.unsatisfied, ?_, ?_, ?_⟩
    · rw [freshValues_renameBy hρ₁, freshValues_pair_renameBy]
      exact h.fresh
    · rw [matches_renameBy]
      exact h.new
    · rw [unsatisfied_renameBy hρ₂, result_renameBy hρ₁]
      exact h.enabled

/-- The same for what is used; it does not matter what the second rule would add. -/
theorem feeds_renameBy {r₁ r₂ : Rule} {ρ₁ ρ₂ : Variable → Variable} (hρ₁ : Renaming ρ₁)
    {I : Finset Literal} {h₁ n h₂ : Assignment} :
    (r₁.renameBy ρ₁).Feeds (r₂.renameBy ρ₂) I h₁ n h₂ ↔
      r₁.Feeds r₂ I (fun v => h₁ (ρ₁ v)) (fun v => n (ρ₁ v)) fun v => h₂ (ρ₂ v) := by
  have hfed : (∃ l ∈ (r₂.renameBy ρ₂).body, l.under h₂ ∈ (r₁.renameBy ρ₁).result h₁ n) ↔
      ∃ l ∈ r₂.body, l.under (fun v => h₂ (ρ₂ v)) ∈
        r₁.result (fun v => h₁ (ρ₁ v)) fun v => n (ρ₁ v) := by
    simp only [renameBy_body, List.mem_map, exists_exists_and_eq_and, Literal.under_under,
      Term.mapVariable_var, result_renameBy hρ₁]
  refine ⟨fun h => ?_, fun h => ⟨matches_renameBy.2 h.applied, ?_, ?_, hfed.2 h.fed⟩⟩
  · obtain ⟨happlied, hfresh, henabled, hused⟩ := h
    rw [matches_renameBy] at happlied henabled
    rw [freshValues_renameBy hρ₁, freshValues_pair_renameBy] at hfresh
    rw [result_renameBy hρ₁] at henabled
    exact ⟨happlied, hfresh, henabled, hfed.1 hused⟩
  · rw [freshValues_renameBy hρ₁, freshValues_pair_renameBy]
    exact h.fresh
  · rw [matches_renameBy, result_renameBy hρ₁]
    exact h.enabled

section Renamed

variable {r₁ r₂ : Rule} {ρ₁ ρ₂ : Variable → Variable} (hρ₁ : Renaming ρ₁) (hρ₂ : Renaming ρ₂)

include hρ₁ hρ₂

/-- Whether there is such an application does not depend on the names of variables. -/
theorem exists_triggers_renameBy :
    (∃ I h₁ n h₂, (r₁.renameBy ρ₁).Triggers (r₂.renameBy ρ₂) I h₁ n h₂) ↔
      ∃ I h₁ n h₂, r₁.Triggers r₂ I h₁ n h₂ := by
  refine exists_congr fun I => ⟨fun h => ?_, fun h => ?_⟩
  · obtain ⟨h₁, n, h₂, h⟩ := h
    exact ⟨_, _, _, (triggers_renameBy hρ₁ hρ₂).1 h⟩
  · obtain ⟨h₁, n, h₂, h⟩ := h
    -- Every assignment is one that is read through the renaming.
    obtain ⟨k₁, rfl⟩ := hρ₁.exists_assignment h₁
    obtain ⟨m, rfl⟩ := hρ₁.exists_assignment n
    obtain ⟨k₂, rfl⟩ := hρ₂.exists_assignment h₂
    exact ⟨k₁, m, k₂, (triggers_renameBy hρ₁ hρ₂).2 h⟩

theorem exists_feeds_renameBy :
    (∃ I h₁ n h₂, (r₁.renameBy ρ₁).Feeds (r₂.renameBy ρ₂) I h₁ n h₂) ↔
      ∃ I h₁ n h₂, r₁.Feeds r₂ I h₁ n h₂ := by
  refine exists_congr fun I => ⟨fun h => ?_, fun h => ?_⟩
  · obtain ⟨h₁, n, h₂, h⟩ := h
    exact ⟨_, _, _, (feeds_renameBy hρ₁).1 h⟩
  · obtain ⟨h₁, n, h₂, h⟩ := h
    obtain ⟨k₁, rfl⟩ := hρ₁.exists_assignment h₁
    obtain ⟨m, rfl⟩ := hρ₁.exists_assignment n
    obtain ⟨k₂, rfl⟩ := hρ₂.exists_assignment h₂
    exact ⟨k₁, m, k₂, (feeds_renameBy hρ₁).2 h⟩

end Renamed

/-- What the check consists of: signatures in common, and a pairing that shows the reliance. -/
theorem positivelyRelies_eq_true_iff {r₁ r₂ : Rule} {config : Config} :
    r₁.positivelyRelies r₂ config = true ↔
      (config.prefilter = true →
        (Reliance.sourceIndex r₁).feeds (Reliance.targetIndex r₂) = true) ∧
      ∃ p ∈ pairings (r₁.rename Reliance.sourceSuffix).head.length
          (r₂.rename Reliance.targetSuffix).body.length,
        Reliance.showsPositive (Reliance.sourceIndex r₁) (Reliance.targetIndex r₂) config p =
          true := by
  rw [positivelyRelies, positivelyReliesLogged, Reliance.value_positiveLogged, Bool.and_eq_true,
    List.any_eq_true, Bool.or_eq_true, Bool.not_eq_true', ← Bool.not_eq_true, ← imp_iff_not_or]
  exact Iff.rfl

/-- A reliance is not missed, whatever the configuration. -/
theorem positivelyRelies_of_triggers {r₁ r₂ : Rule} (hr₁ : r₁.WellFormed) (hr₂ : r₂.WellFormed)
    (hbody : r₂.body.length ≤ 67) (config : Config) {I : Finset Literal} {h₁ n h₂ : Assignment}
    (htriggers : r₁.Triggers r₂ I h₁ n h₂) : r₁.positivelyRelies r₂ config = true := by
  -- The rules are compared with their variables set apart.
  obtain ⟨J, k₁, m, k₂, hrenamed⟩ := (exists_triggers_renameBy
    (renaming_withSuffix Reliance.sourceSuffix)
    (renaming_withSuffix Reliance.targetSuffix)).2 ⟨I, h₁, n, h₂, htriggers⟩
  have hapart := fun v => Reliance.renamedApart r₁ r₂ (v := v)
  rw [← length_body_rename Reliance.targetSuffix] at hbody
  -- The quick comparison lets the two rules pass.
  exact positivelyRelies_eq_true_iff.2
    ⟨fun _ => Reliance.index_feeds_of_feeds hapart hrenamed.feeds,
      Reliance.exists_showsPositive (hr₁.rename _) (hr₂.rename _) hapart
        (choose_le_countLimit hbody) config hrenamed⟩

theorem positivelyRelies_of_feeds {r₁ r₂ : Rule} (hr₁ : r₁.WellFormed)
    (hbody : r₂.body.length ≤ 67) {config : Config} (happlicability : config.applicability = false)
    {I : Finset Literal} {h₁ n h₂ : Assignment} (hfeeds : r₁.Feeds r₂ I h₁ n h₂) :
    r₁.positivelyRelies r₂ config = true := by
  obtain ⟨J, k₁, m, k₂, hrenamed⟩ := (exists_feeds_renameBy
    (renaming_withSuffix Reliance.sourceSuffix)
    (renaming_withSuffix Reliance.targetSuffix)).2 ⟨I, h₁, n, h₂, hfeeds⟩
  have hapart := fun v => Reliance.renamedApart r₁ r₂ (v := v)
  rw [← length_body_rename Reliance.targetSuffix] at hbody
  exact positivelyRelies_eq_true_iff.2
    ⟨fun _ => Reliance.index_feeds_of_feeds hapart hrenamed,
      Reliance.exists_showsPositive_of_feeds (hr₁.rename _) hapart (choose_le_countLimit hbody)
        happlicability hrenamed⟩

/-- The pairing and the unifier that a positive answer rests on. -/
theorem exists_piece_of_positivelyRelies {r₁ r₂ : Rule} {config : Config}
    (hrelies : r₁.positivelyRelies r₂ config = true) :
    ∃ (p : Pairing) (u : Unifier),
      p.Valid (r₁.rename Reliance.sourceSuffix).head.length
        (r₂.rename Reliance.targetSuffix).body.length ∧
      p.unifier? (r₁.rename Reliance.sourceSuffix).head (r₂.rename Reliance.targetSuffix).body =
        some u ∧
      Reliance.IsPiece (r₁.rename Reliance.sourceSuffix) (r₂.rename Reliance.targetSuffix) p u ∧
      (config.applicability = true →
        Reliance.isEffectiveStep (Reliance.sourceIndex r₁) (Reliance.targetIndex r₂) p u =
          true) := by
  obtain ⟨-, p, hp, hshows⟩ := positivelyRelies_eq_true_iff.1 hrelies
  unfold Reliance.showsPositive at hshows
  -- Without a unifier the pairing would show nothing.
  split at hshows
  · cases hshows
  · rename_i u hunifier
    rw [Bool.and_eq_true, Bool.or_eq_true, Bool.not_eq_true', ← Bool.not_eq_true,
      ← imp_iff_not_or] at hshows
    have hu := Pairing.wellFormed_of_unifier hunifier
    exact ⟨p, u, valid_of_mem_pairings hp, hunifier,
      (Reliance.isPieceUnifier_iff hu).1 hshows.1, hshows.2⟩

theorem exists_triggers_of_positivelyRelies {r₁ r₂ : Rule} (hr₁ : r₁.WellFormed)
    (hr₂ : r₂.WellFormed) {config : Config} (happlicability : config.applicability = true)
    (hrelies : r₁.positivelyRelies r₂ config = true) :
    ∃ I h₁ n h₂, r₁.Triggers r₂ I h₁ n h₂ := by
  obtain ⟨p, u, hp, hunifier, hpiece, heffective⟩ := exists_piece_of_positivelyRelies hrelies
  have hrenamed := Reliance.triggers_of_isEffectiveStep (hr₁.rename _) (hr₂.rename _)
    (fun v => Reliance.renamedApart r₁ r₂) hp hunifier hpiece (heffective happlicability)
  exact ⟨_, _, _, _, (triggers_renameBy (renaming_withSuffix _) (renaming_withSuffix _)).1 hrenamed⟩

theorem exists_feeds_of_positivelyRelies {r₁ r₂ : Rule} (hr₁ : r₁.WellFormed)
    (hr₂ : r₂.WellFormed) {config : Config} (hrelies : r₁.positivelyRelies r₂ config = true) :
    ∃ I h₁ n h₂, r₁.Feeds r₂ I h₁ n h₂ := by
  obtain ⟨p, u, hp, hunifier, hpiece, -⟩ := exists_piece_of_positivelyRelies hrelies
  have hrenamed := Reliance.feeds_of_isPiece (hr₁.rename _) (hr₂.rename _)
    (fun v => Reliance.renamedApart r₁ r₂) hp hunifier hpiece
  exact ⟨_, _, _, _, (feeds_renameBy (renaming_withSuffix _)).1 hrenamed⟩

/-- With the tests of applications switched off, `r₂` is found to rely positively on `r₁` exactly if
some application of `r₁`, effective or not, adds a fact that a match of `r₂` uses. -/
theorem positivelyRelies_iff_feeds {r₁ r₂ : Rule} (hr₁ : r₁.WellFormed) (hr₂ : r₂.WellFormed)
    (hbody : r₂.body.length ≤ 67) {config : Config}
    (happlicability : config.applicability = false) :
    r₁.positivelyRelies r₂ config = true ↔ ∃ I h₁ n h₂, r₁.Feeds r₂ I h₁ n h₂ := by
  refine ⟨fun hrelies => exists_feeds_of_positivelyRelies hr₁ hr₂ hrelies, fun hfeeds => ?_⟩
  obtain ⟨I, h₁, n, h₂, hfeeds⟩ := hfeeds
  exact positivelyRelies_of_feeds hr₁ hbody happlicability hfeeds

/-- With the tests of applications switched on, `r₂` is found to rely positively on `r₁` exactly if
some application of `r₁` brings about a new and unsatisfied match of `r₂`. -/
theorem positivelyRelies_iff_triggers {r₁ r₂ : Rule} (hr₁ : r₁.WellFormed) (hr₂ : r₂.WellFormed)
    (hbody : r₂.body.length ≤ 67) {config : Config} (happlicability : config.applicability = true) :
    r₁.positivelyRelies r₂ config = true ↔ ∃ I h₁ n h₂, r₁.Triggers r₂ I h₁ n h₂ := by
  constructor
  · intro hrelies
    exact exists_triggers_of_positivelyRelies hr₁ hr₂ happlicability hrelies
  · intro htriggers
    obtain ⟨I, h₁, n, h₂, htriggers⟩ := htriggers
    exact positivelyRelies_of_triggers hr₁ hr₂ hbody config htriggers

/-- Every person has a parent. -/
def personHasParent : Rule :=
  ⟨[⟨"person", [.universal "X"]⟩], [⟨"hasParent", [.universal "X", .existential "Y"]⟩]⟩

/-- Every parent is a person. -/
def parentIsPerson : Rule :=
  ⟨[⟨"hasParent", [.universal "X", .universal "Y"]⟩], [⟨"person", [.universal "Y"]⟩]⟩

/-- New parents are new persons, but they do not make anyone a parent at once. -/
theorem triggers_parentIsPerson :
    (∃ I h₁ n h₂, personHasParent.Triggers parentIsPerson I h₁ n h₂) ∧
      ¬ ∃ I h₁ n h₂, personHasParent.Triggers personHasParent I h₁ n h₂ := by
  have hparent : personHasParent.WellFormed := by decide
  have hperson : parentIsPerson.WellFormed := by decide
  have happlicability : Config.default.applicability = true := rfl
  constructor
  · apply (positivelyRelies_iff_triggers hparent hperson (by decide) happlicability).1
    decide +kernel
  · intro htriggers
    have hrelies :=
      (positivelyRelies_iff_triggers hparent hparent (by decide) happlicability).2 htriggers
    exact absurd hrelies (by decide +kernel)

end Rule

end ExistentialRules
