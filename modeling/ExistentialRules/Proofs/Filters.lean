import ExistentialRules.Proofs.NegativeReliance
import ExistentialRules.Proofs.PositiveReliance
import ExistentialRules.Reliance.Network

/-!
# The two filters

Before the pairings of two rules are tried, their fingerprints are compared. Every pairing with a
unifier puts literals of one signature together, and these have the same fingerprint. So the
comparison only saves work, whatever the fingerprint is and however many signatures share one.

The other filter is more than that: it tells whether the applications that a unifier describes have
any effect. Without it, a reliance means that a unifier is there, and what this says about
applications is said here.

## Main definitions

* `Rule.positivelyReliesWith`, `Rule.negativelyReliesWith`, `RelianceNetwork.ofRulesWith`: verdicts
  and reliances with a fingerprint of one's choice;
* `Rule.Absorbs`: an application that asserts what another one asserted of its fresh terms.

## Main statements

* `Reliance.value_positiveLogged_ofRuleWith`, `Reliance.value_negativeLogged_ofRuleWith`: the
  verdicts, said without the fingerprints;
* `RelianceNetwork.ofRulesWith_prefilter`: the comparison of fingerprints changes nothing;
* `Rule.absorbs_iff_redirects`: two ways to choose the fresh terms;
* `Rule.relies_iff_feeds_absorbs`: the verdicts when effects are not looked at.
-/

namespace ExistentialRules

/-! ## §1 Fingerprints of one's choice -/

namespace Reliance

/-- The index of a rule in the part of the source, with a fingerprint of one's choice. -/
def sourceIndexWith (print : Signature → Fingerprint) (r : Rule) : RuleIndex :=
  .ofRuleWith print (r.rename sourceSuffix)

/-- The index of a rule in the part of the target, with a fingerprint of one's choice. -/
def targetIndexWith (print : Signature → Fingerprint) (r : Rule) : RuleIndex :=
  .ofRuleWith print (r.rename targetSuffix)

end Reliance

/-- Whether an application of `r₁` can bring about a new application of `r₂`, decided with a
fingerprint of one's choice. -/
def Rule.positivelyReliesWith (print : Signature → Fingerprint) (r₁ r₂ : Rule) (config : Config) :
    Bool :=
  (Reliance.positiveLogged (Reliance.sourceIndexWith print r₁) (Reliance.targetIndexWith print r₂)
    config).value

/-- Whether an application of `r₁` can make an earlier application of `r₂` redundant, decided with a
fingerprint of one's choice. -/
def Rule.negativelyReliesWith (print : Signature → Fingerprint) (r₁ r₂ : Rule) (config : Config) :
    Bool :=
  (Reliance.negativeLogged (Reliance.sourceIndexWith print r₁) (Reliance.targetIndexWith print r₂)
    config).value

/-- The reliances of a list of rules, found with a fingerprint of one's choice. -/
def RelianceNetwork.ofRulesWith (print : Signature → Fingerprint) (rules : List Rule)
    (config : Config) : RelianceNetwork :=
  (ofIndexesLogged (rules.map (Reliance.sourceIndexWith print))
    (rules.map (Reliance.targetIndexWith print)) config).value

/-! ## §2 The comparison of fingerprints -/

namespace Reliance

/-- A test that every success passes can be made first, or left out. -/
theorem and_eq_of_necessary {made passes succeeds : Bool} (h : succeeds = true → passes = true) :
    ((!made || passes) && succeeds) = succeeds := by
  cases succeeds with
  | false => rw [Bool.and_false]
  | true => rw [h rfl, Bool.or_true, Bool.and_true]

section Fingerprints

variable (print : Signature → Fingerprint) {source target : Rule} {config : Config} {p : Pairing}

/-- Where a pairing that is tried has a unifier, there is a common fingerprint. -/
theorem any_fingerprint_of_unifier {left right : List Literal} {u : Unifier}
    (hp : p ∈ pairings left.length right.length) (hu : p.unifier? left right = some u) :
    (left.map fun l => print l.signature).any (right.map fun r => print r.signature).contains =
      true := by
  obtain ⟨l, hl, r, hr, hsignature⟩ := Pairing.exists_signature_eq (valid_of_mem_pairings hp) hu
  exact RuleIndex.any_fingerprint_contains print hl hr hsignature

/-- Rules between which a pairing shows a positive reliance pass the comparison. -/
theorem feeds_of_showsPositive (hp : p ∈ pairings source.head.length target.body.length)
    (hshows : showsPositive (.ofRule source) (.ofRule target) config p = true) :
    (RuleIndex.ofRuleWith print source).feeds (.ofRuleWith print target) = true := by
  unfold showsPositive at hshows
  -- A pairing without a unifier shows nothing.
  split at hshows
  · cases hshows
  · rename_i u hu
    exact any_fingerprint_of_unifier print hp hu

/-- Rules between which a pairing shows a negative reliance pass the comparison. -/
theorem overlaps_of_showsNegative (hp : p ∈ pairings source.head.length target.head.length)
    (hshows : showsNegative (.ofRule source) (.ofRule target) config p = true) :
    (RuleIndex.ofRuleWith print source).overlaps (.ofRuleWith print target) = true := by
  obtain ⟨-, hshows⟩ := Bool.and_eq_true_iff.1 hshows
  split at hshows
  · cases hshows
  · rename_i u hu
    exact any_fingerprint_of_unifier print hp hu

variable (source target config)

/-- The verdict depends on the pairings only. -/
theorem value_positiveLogged_ofRuleWith :
    (positiveLogged (.ofRuleWith print source) (.ofRuleWith print target) config).value =
      (pairings source.head.length target.body.length).any
        (showsPositive (.ofRule source) (.ofRule target) config) := by
  rw [value_positiveLogged]
  apply and_eq_of_necessary
  intro hany
  obtain ⟨p, hp, hshows⟩ := List.any_eq_true.1 hany
  exact feeds_of_showsPositive print hp hshows

/-- The verdict depends on the existential variables of the target and on the pairings only. -/
theorem value_negativeLogged_ofRuleWith :
    (negativeLogged (.ofRuleWith print source) (.ofRuleWith print target) config).value =
      (!target.existentials.isEmpty && (pairings source.head.length target.head.length).any
        (showsNegative (.ofRule source) (.ofRule target) config)) := by
  rw [value_negativeLogged, Bool.and_assoc]
  apply congrArg (!target.existentials.isEmpty && ·)
  apply and_eq_of_necessary
  intro hany
  obtain ⟨p, hp, hshows⟩ := List.any_eq_true.1 hany
  exact overlaps_of_showsNegative print hp hshows

end Fingerprints

end Reliance

namespace RelianceNetwork

variable (print : Signature → Fingerprint) (config : Config) (on : Bool)

theorem positivelyReliesWith_prefilter (r₁ r₂ : Rule) :
    r₁.positivelyReliesWith print r₂ { config with prefilter := on } =
      r₁.positivelyRelies r₂ config := by
  -- Both verdicts say that some pairing shows the reliance, with no mention of a fingerprint.
  have hwith := Reliance.value_positiveLogged_ofRuleWith print (r₁.rename Reliance.sourceSuffix)
    (r₂.rename Reliance.targetSuffix) { config with prefilter := on }
  have hused := Reliance.value_positiveLogged_ofRuleWith Signature.fingerprint
    (r₁.rename Reliance.sourceSuffix) (r₂.rename Reliance.targetSuffix) config
  exact hwith.trans hused.symm

theorem negativelyReliesWith_prefilter (r₁ r₂ : Rule) :
    r₁.negativelyReliesWith print r₂ { config with prefilter := on } =
      r₁.negativelyRelies r₂ config := by
  have hwith := Reliance.value_negativeLogged_ofRuleWith print (r₁.rename Reliance.sourceSuffix)
    (r₂.rename Reliance.targetSuffix) { config with prefilter := on }
  have hused := Reliance.value_negativeLogged_ofRuleWith Signature.fingerprint
    (r₁.rename Reliance.sourceSuffix) (r₂.rename Reliance.targetSuffix) config
  exact hwith.trans hused.symm

/-- For one pair of rules, the same reliances are found with the comparison and without it. -/
theorem edgesBetween_prefilter (i j : Nat) (r₁ r₂ : Rule) :
    (edgesBetween { config with prefilter := on } i j (Reliance.sourceIndexWith print r₁)
        (Reliance.targetIndexWith print r₂)).value =
      (edgesBetween config i j (Reliance.sourceIndex r₁) (Reliance.targetIndex r₂)).value := by
  rw [value_edgesBetween, value_edgesBetween]
  have hpositive := positivelyReliesWith_prefilter print config on r₁ r₂
  have hnegative := negativelyReliesWith_prefilter print config on r₁ r₂
  unfold Rule.positivelyReliesWith Rule.positivelyRelies Rule.positivelyReliesLogged at hpositive
  unfold Rule.negativelyReliesWith Rule.negativelyRelies Rule.negativelyReliesLogged at hnegative
  rw [hpositive, hnegative]

/-- The comparison of fingerprints only saves work. Whether it is made or not, and whatever the
fingerprint of a signature is, any two rules get the same verdicts and any list of rules has the
same reliances. Nothing is assumed about the fingerprint: signatures may share one. -/
theorem ofRulesWith_prefilter :
    (∀ r₁ r₂ : Rule,
      r₁.positivelyReliesWith print r₂ { config with prefilter := on } =
          r₁.positivelyRelies r₂ config ∧
        r₁.negativelyReliesWith print r₂ { config with prefilter := on } =
          r₁.negativelyRelies r₂ config) ∧
      ∀ rules : List Rule,
        ofRulesWith print rules { config with prefilter := on } = ofRules rules config := by
  constructor
  · intro r₁ r₂
    exact ⟨positivelyReliesWith_prefilter print config on r₁ r₂,
      negativelyReliesWith_prefilter print config on r₁ r₂⟩
  -- The reliances are found pair by pair, so each pair can be looked at by itself.
  · intro rules
    rw [ofRulesWith, ofRules, ofRulesLogged, value_ofIndexesLogged, value_ofIndexesLogged]
    simp only [List.length_map, List.zipIdx_map, List.flatMap_map, Prod.map_fst, Prod.map_snd,
      id_eq, edgesBetween_prefilter]

end RelianceNetwork

/-! ## §3 Verdicts without a look at effects -/

/-- Both rules have matches in the facts, which may be satisfied. The values `n` and `m` of their
existential variables are fresh for the facts, and none of the values `m` is one of the values `n`.
If the variables in `Z` take their values from `g` and not from `n`, then all that `r₂` asserts of
them is among what `r₁` asserts. -/
structure Rule.Absorbs (r₁ r₂ : Rule) (I : Finset Literal) (h₁ h₂ n m g : Assignment)
    (Z : Set Variable) : Prop where
  trigger : r₁.Matches h₁ I
  absorbedTrigger : r₂.Matches h₂ I
  freshAbsorbed : r₂.FreshValues [r₁, r₂] I n
  freshAbsorbing : r₁.FreshValues [r₁, r₂] I m
  separate : ∀ e ∈ r₁.existentials, ∀ z ∈ r₂.existentials, m e ≠ n z
  nonempty : Z.Nonempty
  existential : ∀ z ∈ Z, z ∈ r₂.existentials
  unchanged : ∀ z ∈ r₂.existentials, z ∉ Z → g z = n z
  absorbed : ∀ l ∈ r₂.head, (∃ z ∈ Z, z ∈ l.occurringVariables) →
    l.under (r₂.extended h₂ g) ∈ r₁.result h₁ m

namespace Rule

section

variable {r₁ r₂ : Rule} {I : Finset Literal} {h₁ h₂ n m g : Assignment} {Z : Set Variable}

/-- Values that are fresh for the facts and for the values `n` are fresh for what `r₂` adds. -/
theorem FreshValues.union_result (hr₂ : r₂.WellFormed) (hmatch : r₂.Matches h₂ I)
    (hfresh : r₁.FreshValues [r₁, r₂] I m)
    (hseparate : ∀ e ∈ r₁.existentials, ∀ z ∈ r₂.existentials, m e ≠ n z) :
    r₁.FreshValues [r₁, r₂] (I ∪ r₂.result h₂ n) m where
  injective := hfresh.injective
  fresh := by
    intro e he
    have hfreshFor := hfresh.fresh e he
    refine ⟨fun l hl hmem => ?_, hfreshFor.not_mentions⟩
    rcases Finset.mem_union.1 hl with hl | hl
    · exact hfreshFor.notMem l hl hmem
    · obtain ⟨l', hl', rfl⟩ := mem_result.1 hl
      -- What stands in an added literal is a term of the rule, a value of the match or one of the
      -- fresh values.
      rcases hr₂.mem_arguments_head hl' hmem with
        ⟨hrigid, hmentions⟩ | ⟨v, hv, heq⟩ | ⟨z, hz, -, heq⟩
      · exact hfreshFor.not_mentions hrigid r₂ (by simp) hmentions
      · exact hmatch.ne_of_freshFor hfreshFor hv heq
      · exact hseparate e he z hz heq.symm

/-- It is the same whether `r₁` is applied to the facts, with other fresh terms than `r₂`, or after
`r₂`. -/
theorem absorbs_iff_redirects (hr₂ : r₂.WellFormed) :
    r₁.Absorbs r₂ I h₁ h₂ n m g Z ↔ r₁.Redirects r₂ I h₁ h₂ n m g Z := by
  constructor
  · intro h
    exact ⟨h.trigger, h.absorbedTrigger, h.freshAbsorbed,
      h.freshAbsorbing.union_result hr₂ h.absorbedTrigger h.separate, h.nonempty, h.existential,
      h.unchanged, h.absorbed⟩
  · intro h
    have hfresh : ∀ e ∈ r₁.existentials, (m e).FreshFor (I ∪ r₂.result h₂ n) [r₁, r₂] :=
      h.freshRestraining.fresh
    refine ⟨h.trigger, h.restrainedTrigger, h.freshRestrained, ⟨h.freshRestraining.injective, ?_⟩,
      ?_, h.nonempty, h.existential, h.unchanged, h.redirected⟩
    · intro e he
      refine ⟨fun l hl => ?_, (hfresh e he).not_mentions⟩
      exact (hfresh e he).notMem l (Finset.mem_union_left _ hl)
    -- The fresh values of `r₂` occur in what it adds, so that those of `r₁` are other terms.
    · intro e he z hz heq
      obtain ⟨l, hl, hmem⟩ := exists_mem_result h₂ n hz
      apply (hfresh e he).notMem l (Finset.mem_union_right _ hl)
      rwa [heq]

end

/-- If effects are not looked at, then `r₂` is found to rely positively on `r₁` exactly if some
application of `r₁`, effective or not, adds something that a match of `r₂` uses. And `r₁` is found
to restrain `r₂` exactly if, with matches of both rules in the same facts, all that `r₂` asserts of
some of its fresh terms is asserted by `r₁` of other terms. -/
theorem relies_iff_feeds_absorbs {r₁ r₂ : Rule} (hr₁ : r₁.WellFormed) (hr₂ : r₂.WellFormed)
    (hbody : r₂.body.length ≤ 67) (hhead : r₂.head.length ≤ 67) {config : Config}
    (happlicability : config.applicability = false) :
    (r₁.positivelyRelies r₂ config = true ↔ ∃ I h₁ n h₂, r₁.Feeds r₂ I h₁ n h₂) ∧
      (r₁.negativelyRelies r₂ config = true ↔
        ∃ I h₁ h₂ n m g Z, r₁.Absorbs r₂ I h₁ h₂ n m g Z) := by
  refine ⟨positivelyRelies_iff_feeds hr₁ hr₂ hbody happlicability, ?_⟩
  simp only [absorbs_iff_redirects hr₂]
  exact negativelyRelies_iff_redirects hr₁ hr₂ hhead happlicability

/-- Whoever is married to someone, that one is married to them. -/
def marriageIsMutual : Rule :=
  ⟨[⟨"married", [.universal "X", .universal "Y"]⟩], [⟨"married", [.universal "Y", .universal "X"]⟩]⟩

/-- The second application of a symmetry adds nothing, and neither does a second search for an
advisor. This is only noticed where effects are looked at. -/
theorem feeds_and_absorbs_without_effect :
    ((∃ I h₁ n h₂, marriageIsMutual.Feeds marriageIsMutual I h₁ n h₂) ∧
      marriageIsMutual.positivelyRelies marriageIsMutual .default = false) ∧
    (∃ I h₁ h₂ n m g Z, studentHasAdvisor.Absorbs studentHasAdvisor I h₁ h₂ n m g Z) ∧
      studentHasAdvisor.negativelyRelies studentHasAdvisor .default = false := by
  have hmarriage : marriageIsMutual.WellFormed := by decide
  have hstudent : studentHasAdvisor.WellFormed := by decide
  have happlicability : { Config.default with applicability := false }.applicability = false :=
    rfl
  refine ⟨⟨?_, by decide +kernel⟩, ?_, by decide +kernel⟩
  · apply (relies_iff_feeds_absorbs hmarriage hmarriage (by decide) (by decide) happlicability).1.1
    decide +kernel
  · apply (relies_iff_feeds_absorbs hstudent hstudent (by decide) (by decide) happlicability).2.1
    decide +kernel

end Rule

end ExistentialRules
