import ExistentialRules.Proofs.NegativeReliance
import ExistentialRules.Proofs.NetworkPart
import ExistentialRules.Proofs.PositiveReliance

/-!
# Leaving out inapplicable rules

A rule that can never add anything neither brings about an application nor makes one redundant, and
no application of it is brought about or made redundant. So it has no reliances, it is a component
by itself, and it is in the first stratum. Leaving it out changes nothing about the other rules.

## Main statements

* `Rule.isApplicable_of_relies`: only applicable rules have reliances;
* `Rule.relies_eq_false_of_inapplicable`: inapplicable rules take part in none;
* `Analysis.embeds_dropInapplicable`: the reliances when the inapplicable rules are left out;
* `Analysis.ofRules_dropInapplicable`: the analysis when they are left out.
-/

namespace ExistentialRules

/-! ## §1 Reliances of inapplicable rules -/

namespace Rule

theorem isApplicable_of_unsatisfied {r : Rule} (hr : r.WellFormed) {h : Assignment}
    {I : Finset Literal} (hunsatisfied : r.Unsatisfied h I) : r.isApplicable = true := by
  -- Otherwise all matches of the rule would be satisfied.
  by_contra hidle
  rw [Bool.not_eq_true] at hidle
  exact hunsatisfied.2 (satisfied_of_not_isApplicable hr hidle hunsatisfied.1)

section

variable {r₁ r₂ : Rule} (hr₁ : r₁.WellFormed) (hr₂ : r₂.WellFormed) {config : Config}
  (happlicability : config.applicability = true)

include hr₁ hr₂ happlicability

/-- Both rules of a positive reliance are applied in the situation that the reliance stands for. -/
theorem isApplicable_of_positivelyRelies (hrelies : r₁.positivelyRelies r₂ config = true) :
    r₁.isApplicable = true ∧ r₂.isApplicable = true := by
  obtain ⟨I, h₁, n, h₂, htriggers⟩ :=
    exists_triggers_of_positivelyRelies hr₁ hr₂ happlicability hrelies
  exact ⟨isApplicable_of_unsatisfied hr₁ htriggers.unsatisfied,
    isApplicable_of_unsatisfied hr₂ htriggers.enabled⟩

/-- Both rules of a negative reliance are applied, too, one after the other. -/
theorem isApplicable_of_negativelyRelies (hrelies : r₁.negativelyRelies r₂ config = true) :
    r₁.isApplicable = true ∧ r₂.isApplicable = true := by
  obtain ⟨I, h₁, h₂, n, m, g, Z, hrestrains⟩ :=
    exists_restrains_of_negativelyRelies hr₁ hr₂ happlicability hrelies
  exact ⟨isApplicable_of_unsatisfied hr₁ hrestrains.restraining,
    isApplicable_of_unsatisfied hr₂ hrestrains.restrained⟩

/-- A reliance is found between applicable rules only. -/
theorem isApplicable_of_relies {polarity : Polarity}
    (hrelies : r₁.relies r₂ config polarity = true) :
    r₁.isApplicable = true ∧ r₂.isApplicable = true := by
  cases polarity with
  | positive => exact isApplicable_of_positivelyRelies hr₁ hr₂ happlicability hrelies
  | negative =>
    exact isApplicable_of_negativelyRelies hr₁ hr₂ happlicability
      (Bool.and_eq_true_iff.1 hrelies).2

end

/-- A rule that can never add anything takes part in no reliance, be it as the source or as the
target. -/
theorem relies_eq_false_of_inapplicable {r₁ r₂ : Rule} (hr₁ : r₁.WellFormed) (hr₂ : r₂.WellFormed)
    {config : Config} (happlicability : config.applicability = true)
    (hidle : r₁.isApplicable = false ∨ r₂.isApplicable = false) :
    r₁.positivelyRelies r₂ config = false ∧ r₁.negativelyRelies r₂ config = false := by
  -- One of the two rules is inapplicable, so that not both are applicable.
  have hnot : ¬ (r₁.isApplicable = true ∧ r₂.isApplicable = true) := by
    rintro ⟨happlicable₁, happlicable₂⟩
    rcases hidle with hidle | hidle
    · rw [happlicable₁] at hidle
      cases hidle
    · rw [happlicable₂] at hidle
      cases hidle
  constructor
  · rw [Bool.eq_false_iff]
    exact fun hpositive =>
      hnot (isApplicable_of_positivelyRelies hr₁ hr₂ happlicability hpositive)
  · rw [Bool.eq_false_iff]
    exact fun hnegative =>
      hnot (isApplicable_of_negativelyRelies hr₁ hr₂ happlicability hnegative)

/-- Who knows someone knows someone: this rule never adds anything. Judged by unifiers alone,
another rule would bring about its applications and make them redundant, but there is no such
reliance, and none in the other direction. -/
theorem relies_eq_false_knowsSomeone :
    (knownKnowsSomeone.positivelyRelies knowsSomeone { applicability := false } = true ∧
      knownKnowsSomeone.negativelyRelies knowsSomeone { applicability := false } = true) ∧
    (knownKnowsSomeone.positivelyRelies knowsSomeone .default = false ∧
      knownKnowsSomeone.negativelyRelies knowsSomeone .default = false) ∧
    knowsSomeone.positivelyRelies knownKnowsSomeone .default = false ∧
      knowsSomeone.negativelyRelies knownKnowsSomeone .default = false := by
  have hknows : knowsSomeone.WellFormed := by decide
  have hknown : knownKnowsSomeone.WellFormed := by decide
  have hidle : knowsSomeone.isApplicable = false := by decide +kernel
  refine ⟨by decide +kernel, ?_, ?_⟩
  · exact relies_eq_false_of_inapplicable hknown hknows rfl (Or.inr hidle)
  · exact relies_eq_false_of_inapplicable hknows hknown rfl (Or.inl hidle)

/-- Whether rules are left out has nothing to do with single reliances. -/
theorem relies_dropInapplicable (r₁ r₂ : Rule) (config : Config) (drop : Bool) :
    r₁.relies r₂ { config with dropInapplicable := drop } = r₁.relies r₂ config := by
  funext polarity
  cases polarity with
  | positive => rfl
  | negative => rfl

end Rule

/-! ## §2 The analyzed rules -/

namespace Analysis

/-- Whether the given rule of a certain number can ever add anything. -/
def isApplicableAt (a : Analysis) (k : Nat) : Bool :=
  a.applicability[k]?.getD false

variable {rules : List Rule} {config : Config}

/-- The answer belongs to the rule at the place of the number. -/
theorem isApplicableAt_ofRules {k : Nat} :
    (ofRules rules config).isApplicableAt k = true ↔
      ∃ r, rules[k]? = some r ∧ r.isApplicable = true := by
  rw [isApplicableAt, applicability_ofRules, Rule.applicability, List.getElem?_map]
  cases rules[k]? with
  | none => simp
  | some r => simp

section Kept

variable (hkeep : config.dropInapplicable = false)

include hkeep

theorem retained_of_keep : (ofRules rules config).retained = Rule.numbered rules := by
  rw [retained_ofRules, retain_eq_filter]
  simp [hkeep]

theorem rules_of_keep : (ofRules rules config).rules = rules := by
  rw [Analysis.rules, retained_of_keep hkeep, Rule.map_snd_numbered]

theorem origins_of_keep : (ofRules rules config).origins = List.range rules.length := by
  rw [origins, retained_of_keep hkeep, Rule.map_fst_numbered]

end Kept

/-! ## §3 The analysis without the inapplicable rules -/

section Dropped

variable {config' : Config} (hkeep : config.dropInapplicable = false)
  (hdrop : config'.dropInapplicable = true)
  (hrelies : ∀ r₁ r₂ : Rule, r₁.relies r₂ config' = r₁.relies r₂ config)
  (hrules : ∀ r ∈ rules, r.WellFormed) (happlicability : config.applicability = true)

include hdrop in
/-- The applicable rules are those that have a number when the others are left out. -/
theorem isApplicableAt_iff_exists_origin {k : Nat} :
    (ofRules rules config).isApplicableAt k = true ↔
      ∃ i < (ofRules rules config').rules.length, (ofRules rules config').origin i = k := by
  rw [isApplicableAt_ofRules, ← mem_origins_iff, mem_origins_ofRules]
  simp [hdrop]

include hrules happlicability in
/-- The rules at both ends of a reliance are applicable. -/
theorem isApplicableAt_of_mem_edges {e : RelianceEdge}
    (he : e ∈ (RelianceNetwork.ofRules rules config).edges) :
    (ofRules rules config).isApplicableAt e.source = true ∧
      (ofRules rules config).isApplicableAt e.target = true := by
  obtain ⟨r₁, r₂, hr₁, hr₂, hfound⟩ := RelianceNetwork.mem_edges_ofRules_iff.1 he
  have hends := Rule.isApplicable_of_relies (hrules r₁ (List.mem_of_getElem? hr₁))
    (hrules r₂ (List.mem_of_getElem? hr₂)) happlicability hfound
  rw [isApplicableAt_ofRules, isApplicableAt_ofRules]
  exact ⟨⟨r₁, hr₁, hends.1⟩, ⟨r₂, hr₂, hends.2⟩⟩

include hrelies in
/-- The rules that are not left out rely on each other as they do among all rules. -/
theorem embeds_dropInapplicable :
    RelianceNetwork.Embeds (ofRules rules config').origin
      (.ofRules (ofRules rules config').rules config') (.ofRules rules config) := by
  apply RelianceNetwork.embeds_ofRules (strictMonoOn_origin rules config')
  · intro i r hr
    have hretained := mem_retained_of_getElem? hr
    rw [retained_ofRules, mem_retain] at hretained
    exact hretained.1
  · exact hrelies

include hkeep hrelies hrules happlicability

/-- Without the inapplicable rules, the same reliances are found in the same order, under other
numbers. -/
theorem edges_dropInapplicable :
    (ofRules rules config').reliances.edges.map (.relabel (ofRules rules config').origin) =
      (ofRules rules config).reliances.edges := by
  -- Leaving rules out does not change what is found between the others.
  have hedgesAmong : RelianceNetwork.edgesAmong config' = RelianceNetwork.edgesAmong config := by
    have hedgesOf : RelianceNetwork.edgesOf config' = RelianceNetwork.edgesOf config := by
      funext x y
      rw [RelianceNetwork.edgesOf, RelianceNetwork.edgesOf, hrelies]
    funext xs
    rw [RelianceNetwork.edgesAmong, RelianceNetwork.edgesAmong, hedgesOf]
  rw [edges_relabel_origin, retained_ofRules, retain_eq_filter, hedgesAmong, reliances_ofRules,
    rules_of_keep hkeep, RelianceNetwork.edges_ofRules_eq_edgesAmong]
  -- A filter loses no reliance if both ends of each reliance pass it.
  apply RelianceNetwork.edgesAmong_filter
  intro x hx y hy polarity hfound
  have hends := Rule.isApplicable_of_relies
    (hrules x.2 (List.mem_of_getElem? (Rule.mem_numbered.1 hx)))
    (hrules y.2 (List.mem_of_getElem? (Rule.mem_numbered.1 hy))) happlicability hfound
  simp [hends]

include hdrop

/-- Inapplicable rules are components by themselves, and leaving them out divides no other
component. -/
theorem components_dropInapplicable :
    (ofRules rules config').components.map (List.map (ofRules rules config').origin) =
      Ascending.restrict (ofRules rules config).isApplicableAt
        (ofRules rules config).components := by
  rw [components_ofRules, components_ofRules, reliances_ofRules, reliances_ofRules,
    rules_of_keep hkeep]
  symm
  apply (embeds_dropInapplicable hrelies).restrict_components
  · rw [RelianceNetwork.ruleCount_ofRules]
    intro i _ k hlinked
    -- Whatever a rule is linked with is at one end of a reliance, so it is not left out.
    obtain ⟨e, he, hk⟩ := hlinked
    have hends := isApplicableAt_of_mem_edges hrules happlicability he
    obtain ⟨-, rfl⟩ | ⟨-, rfl⟩ := hk
    · exact (isApplicableAt_iff_exists_origin hdrop).1 hends.2
    · exact (isApplicableAt_iff_exists_origin hdrop).1 hends.1
  · intro k _
    rw [RelianceNetwork.ruleCount_ofRules]
    exact isApplicableAt_iff_exists_origin hdrop

/-- No rule depends on an inapplicable one, so the strata lose nothing but these. -/
theorem strata_dropInapplicable :
    (ofRules rules config').strata.map (.relabel (ofRules rules config').origin) =
      Stratum.restrictAll (ofRules rules config).isApplicableAt (ofRules rules config).strata := by
  rw [strata_ofRules, strata_ofRules, dependencies_ofRules, dependencies_ofRules,
    reliances_ofRules, reliances_ofRules, rules_of_keep hkeep]
  symm
  apply DependencyGraph.Embeds.restrictAll_strata
  -- What a rule depends on is at the beginning of a reliance, so it is not left out.
  · apply (embeds_dropInapplicable hrelies).dependencies
    rw [RelianceNetwork.ruleCount_ofRules]
    intro k j _ hpositive
    have hends := isApplicableAt_of_mem_edges hrules happlicability hpositive
    exact (isApplicableAt_iff_exists_origin hdrop).1 hends.1
  · intro k _
    rw [DependencyGraph.ruleCount_ofReliances, RelianceNetwork.ruleCount_ofRules]
    exact isApplicableAt_iff_exists_origin hdrop

end Dropped

/-- Leaving out the inapplicable rules changes nothing else. If they are kept, then every rule has
its own place as its number and no reliance begins or ends at an inapplicable rule. The reliances
are those that are found without them, in the same order, and so are the components and the strata,
once the inapplicable rules and what is empty without them are taken away. -/
theorem ofRules_dropInapplicable (hrules : ∀ r ∈ rules, r.WellFormed)
    (happlicability : config.applicability = true) :
    let a := ofRules rules { config with dropInapplicable := false }
    let b := ofRules rules { config with dropInapplicable := true }
    a.origins = List.range rules.length ∧
      (∀ k, k ∈ b.origins ↔ a.isApplicableAt k = true) ∧
      (∀ e ∈ a.reliances.edges,
        a.isApplicableAt e.source = true ∧ a.isApplicableAt e.target = true) ∧
      b.reliances.edges.map (.relabel b.origin) = a.reliances.edges ∧
      b.components.map (List.map b.origin) = Ascending.restrict a.isApplicableAt a.components ∧
      b.strata.map (.relabel b.origin) = Stratum.restrictAll a.isApplicableAt a.strata ∧
      b.recursiveStrata = (Stratum.restrictAll a.isApplicableAt a.strata).map (·.recursive) := by
  intro a b
  -- The two analyses decide pairs in the same way.
  have hrelies : ∀ r₁ r₂ : Rule, r₁.relies r₂ { config with dropInapplicable := true } =
      r₁.relies r₂ { config with dropInapplicable := false } :=
    fun r₁ r₂ => (Rule.relies_dropInapplicable r₁ r₂ config true).trans
      (Rule.relies_dropInapplicable r₁ r₂ config false).symm
  have hstrata : b.strata.map (.relabel b.origin) = Stratum.restrictAll a.isApplicableAt a.strata :=
    strata_dropInapplicable rfl rfl hrelies hrules happlicability
  refine ⟨origins_of_keep rfl, ?_, ?_, ?_, ?_, hstrata, ?_⟩
  · intro k
    rw [mem_origins_iff]
    exact (isApplicableAt_iff_exists_origin rfl).symm
  · intro e he
    rw [reliances_ofRules, rules_of_keep rfl] at he
    exact isApplicableAt_of_mem_edges hrules happlicability he
  · exact edges_dropInapplicable rfl hrelies hrules happlicability
  · exact components_dropInapplicable rfl rfl hrelies hrules happlicability
  · rw [← hstrata, List.map_map]
    rfl

/-- Everyone has a parent and parents are persons. The rule between these never has anything to
add. -/
def kinshipRules : List Rule :=
  [.personHasParent, ⟨[⟨"person", [.universal "X"]⟩], [⟨"person", [.universal "X"]⟩]⟩,
    .parentIsPerson]

/-- If the rule is kept, then it makes up a stratum that is not there without it. -/
theorem strata_dropInapplicable_kinshipRules :
    let a := ofRules kinshipRules { Config.default with dropInapplicable := false }
    let b := ofRules kinshipRules { Config.default with dropInapplicable := true }
    a.strata = [⟨[1], false⟩, ⟨[0, 2], true⟩] ∧ a.applicability = [true, false, true] ∧
      b.components.map (List.map b.origin) = Ascending.restrict a.isApplicableAt a.components ∧
      b.strata.map (Stratum.relabel b.origin) = [⟨[0, 2], true⟩] := by
  intro a b
  have happlicability : a.applicability = [true, false, true] := by decide +kernel
  have hstrata : a.strata = [⟨[1], false⟩, ⟨[0, 2], true⟩] := by decide +kernel
  have hrules : ∀ r ∈ kinshipRules, r.WellFormed := by decide
  obtain ⟨-, -, -, -, hcomponents, hdropped, -⟩ :=
    @ofRules_dropInapplicable kinshipRules .default hrules rfl
  refine ⟨hstrata, happlicability, hcomponents, hdropped.trans ?_⟩
  have hkept : a.isApplicableAt = fun k => [true, false, true][k]?.getD false := by
    funext k
    rw [isApplicableAt, happlicability]
  show Stratum.restrictAll a.isApplicableAt a.strata = _
  rw [hkept, hstrata]
  rfl

end Analysis

end ExistentialRules
