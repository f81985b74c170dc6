import Mathlib.Data.List.Forall2
import ExistentialRules.Proofs.NegativeReliance
import ExistentialRules.Proofs.Origin
import ExistentialRules.Proofs.PositiveReliance

/-!
# Variants of rules

Two rules are variants of each other if they differ only in the names of their variables, in the
order of their literals, and in how often these are listed. The search for reliances sees all of
this: classes of equal terms are named after their smallest variables, and literals are paired by
their positions. What it finds does not depend on it, because the verdicts say whether certain
applications exist, and applications do not see it.

## Main definitions

* `Rule.SameLiterals`: the same literals, in any order and any number of times;
* `Rule.Variant`: the same literals after a renaming of the variables.

## Main statements

* `Rule.Variant.exists_renaming`: it is enough to rename all variables there are;
* `Rule.Variant.isApplicable_eq`, `Rule.Variant.relies_eq`: variants get the same verdicts;
* `Analysis.ofRules_eq_of_variants`: variants have the same analysis.
-/

namespace ExistentialRules

namespace Rule

/-! ## §1 Rules with the same literals -/

/-- The bodies have the same literals, and the heads too. -/
structure SameLiterals (r s : Rule) : Prop where
  body : ∀ l, l ∈ r.body ↔ l ∈ s.body
  head : ∀ l, l ∈ r.head ↔ l ∈ s.head

instance (r s : Rule) : Decidable (r.SameLiterals s) :=
  decidable_of_iff (((∀ l ∈ r.body, l ∈ s.body) ∧ ∀ l ∈ s.body, l ∈ r.body) ∧
      (∀ l ∈ r.head, l ∈ s.head) ∧ ∀ l ∈ s.head, l ∈ r.head)
    ⟨fun h => ⟨fun l => ⟨h.1.1 l, h.1.2 l⟩, fun l => ⟨h.2.1 l, h.2.2 l⟩⟩,
      fun h => ⟨⟨fun l => (h.body l).1, fun l => (h.body l).2⟩,
        fun l => (h.head l).1, fun l => (h.head l).2⟩⟩

theorem SameLiterals.symm {r s : Rule} (hrs : r.SameLiterals s) : s.SameLiterals r :=
  ⟨fun l => (hrs.body l).symm, fun l => (hrs.head l).symm⟩

section SameLiterals

variable {r s : Rule} (hrs : r.SameLiterals s) {h n : Assignment} {I : Finset Literal}

include hrs

theorem SameLiterals.mem_existentials_iff {v : Variable} :
    v ∈ r.existentials ↔ v ∈ s.existentials := by
  simp only [mem_existentials, mem_headVariables, hrs.head]

theorem SameLiterals.extended_eq : r.extended h n = s.extended h n := by
  funext v
  simp only [extended, hrs.mem_existentials_iff]

theorem SameLiterals.matches_iff : r.Matches h I ↔ s.Matches h I := by
  simp only [Matches, hrs.body]

theorem SameLiterals.satisfied_iff : r.Satisfied h I ↔ s.Satisfied h I := by
  simp only [Satisfied, hrs.extended_eq, hrs.head]

theorem SameLiterals.unsatisfied_iff : r.Unsatisfied h I ↔ s.Unsatisfied h I := by
  rw [Unsatisfied, Unsatisfied, hrs.matches_iff, hrs.satisfied_iff]

theorem SameLiterals.result_eq : r.result h n = s.result h n := by
  ext m
  simp only [mem_result, hrs.extended_eq, hrs.head]

theorem SameLiterals.mentions_iff {t : Term} : r.Mentions t ↔ s.Mentions t := by
  simp only [Mentions, List.mem_append, hrs.body, hrs.head]

/-- What is fresh depends on which literals there are, in the rule and in all rules. -/
theorem SameLiterals.freshValues {r₁ r₂ s₁ s₂ : Rule} (h₁ : r₁.SameLiterals s₁)
    (h₂ : r₂.SameLiterals s₂) (hfresh : r.FreshValues [r₁, r₂] I n) :
    s.FreshValues [s₁, s₂] I n := by
  have hmem : ∀ v ∈ s.existentials, v ∈ r.existentials :=
    fun v hv => hrs.mem_existentials_iff.2 hv
  refine ⟨fun v hv w hw => hfresh.injective v (hmem v hv) w (hmem w hw), fun v hv => ?_⟩
  have hv := hfresh.fresh v (hmem v hv)
  refine ⟨hv.notMem, fun hrigid q hq hmentions => ?_⟩
  rcases List.mem_pair.1 hq with rfl | rfl
  · exact hv.not_mentions hrigid r₁ (by simp) (h₁.mentions_iff.2 hmentions)
  · exact hv.not_mentions hrigid r₂ (by simp) (h₂.mentions_iff.2 hmentions)

end SameLiterals

section Applications

variable {r₁ r₂ s₁ s₂ : Rule} (hsame₁ : r₁.SameLiterals s₁) (hsame₂ : r₂.SameLiterals s₂)
  {I : Finset Literal} {h₁ h₂ n m g : Assignment} {Z : Set Variable}

include hsame₁ hsame₂

/-- With the same literals, the same applications bring about the same matches. -/
theorem SameLiterals.triggers (h : r₁.Triggers r₂ I h₁ n h₂) : s₁.Triggers s₂ I h₁ n h₂ := by
  refine ⟨hsame₁.unsatisfied_iff.1 h.unsatisfied, hsame₁.freshValues hsame₁ hsame₂ h.fresh,
    fun hold => h.new (hsame₂.matches_iff.2 hold), ?_⟩
  rw [← hsame₁.result_eq]
  exact hsame₂.unsatisfied_iff.1 h.enabled

/-- The same facts are used. -/
theorem SameLiterals.feeds (h : r₁.Feeds r₂ I h₁ n h₂) : s₁.Feeds s₂ I h₁ n h₂ := by
  obtain ⟨l, hl, hfed⟩ := h.fed
  refine ⟨hsame₁.matches_iff.1 h.applied, hsame₁.freshValues hsame₁ hsame₂ h.fresh, ?_,
    l, (hsame₂.body l).1 hl, ?_⟩
  · rw [← hsame₁.result_eq]
    exact hsame₂.matches_iff.1 h.enabled
  · rwa [← hsame₁.result_eq]

/-- The same literals are redirected. -/
theorem SameLiterals.redirects (h : r₁.Redirects r₂ I h₁ h₂ n m g Z) :
    s₁.Redirects s₂ I h₁ h₂ n m g Z where
  trigger := hsame₁.matches_iff.1 h.trigger
  restrainedTrigger := hsame₂.matches_iff.1 h.restrainedTrigger
  freshRestrained := hsame₂.freshValues hsame₁ hsame₂ h.freshRestrained
  freshRestraining := by
    rw [← hsame₂.result_eq]
    exact hsame₁.freshValues hsame₁ hsame₂ h.freshRestraining
  nonempty := h.nonempty
  existential := fun z hz => hsame₂.mem_existentials_iff.1 (h.existential z hz)
  unchanged := fun z hz => h.unchanged z (hsame₂.mem_existentials_iff.2 hz)
  redirected := by
    rw [← hsame₁.result_eq, ← hsame₂.extended_eq]
    exact fun l hl => h.redirected l ((hsame₂.head l).2 hl)

/-- The same applications are made redundant. -/
theorem SameLiterals.restrains (h : r₁.Restrains r₂ I h₁ h₂ n m g Z) :
    s₁.Restrains s₂ I h₁ h₂ n m g Z := by
  rw [restrains_iff_redirects] at h ⊢
  rw [← hsame₁.satisfied_iff, ← hsame₂.satisfied_iff, ← hsame₂.result_eq]
  exact ⟨hsame₁.redirects hsame₂ h.1, h.2⟩

end Applications

/-! ## §2 Renamings of the variables of a rule -/

/-- The variables of `r` are renamed by `ρ`, injectively and with their quantifiers kept; then `r'`
has the same literals. -/
structure VariantBy (r : Rule) (ρ : Variable → Variable) (r' : Rule) : Prop where
  quantifier : ∀ v ∈ r.allVariables, (ρ v).quantifier = v.quantifier
  injective : ∀ v ∈ r.allVariables, ∀ w ∈ r.allVariables, ρ v = ρ w → v = w
  literals : r'.SameLiterals (r.renameBy ρ)

instance (r : Rule) (ρ : Variable → Variable) (r' : Rule) : Decidable (r.VariantBy ρ r') :=
  decidable_of_iff ((∀ v ∈ r.allVariables, (ρ v).quantifier = v.quantifier) ∧
      (∀ v ∈ r.allVariables, ∀ w ∈ r.allVariables, ρ v = ρ w → v = w) ∧
      r'.SameLiterals (r.renameBy ρ))
    ⟨fun h => ⟨h.1, h.2.1, h.2.2⟩, fun h => ⟨h.quantifier, h.injective, h.literals⟩⟩

/-- The second rule is the first one with other names for its variables, and its literals in any
order and any number of times. -/
def Variant (r r' : Rule) : Prop :=
  ∃ ρ, r.VariantBy ρ r'

/-- Only the variables of the rule matter for a renaming of it. -/
theorem renameBy_congr {r : Rule} {ρ ρ' : Variable → Variable}
    (h : ∀ v ∈ r.allVariables, ρ v = ρ' v) : r.renameBy ρ = r.renameBy ρ' := by
  have hbody : ∀ l ∈ r.body, l.under (fun v => .var (ρ v)) = l.under fun v => .var (ρ' v) :=
    fun l hl => Literal.under_congr fun v hv => by rw [h v (mem_allVariables_of_body hl hv)]
  have hhead : ∀ l ∈ r.head, l.under (fun v => .var (ρ v)) = l.under fun v => .var (ρ' v) :=
    fun l hl => Literal.under_congr fun v hv => by rw [h v (mem_allVariables_of_head hl hv)]
  rw [renameBy, renameBy, List.map_congr_left hbody, List.map_congr_left hhead]

/-- Some text is longer than all that are given. -/
theorem exists_longer (names : List String) :
    ∃ suffix : String, ∀ name ∈ names, name.length < suffix.length := by
  induction names with
  | nil => exact ⟨"", by simp⟩
  | cons name names ih =>
    obtain ⟨suffix, hsuffix⟩ := ih
    refine ⟨name ++ suffix ++ "_", List.forall_mem_cons.2 ⟨?_, fun other hother => ?_⟩⟩
    · have hone : "_".length = 1 := rfl
      simp only [String.length_append, hone]
      omega
    · have hless := hsuffix other hother
      simp only [String.length_append]
      omega

/-- The renaming of the variables of a rule is part of a renaming of all variables: those of other
rules get a suffix that makes them longer than all new names. -/
theorem Variant.exists_renaming {r r' : Rule} (h : r.Variant r') :
    ∃ ρ, Renaming ρ ∧ r'.SameLiterals (r.renameBy ρ) := by
  obtain ⟨ρ, hρ⟩ := h
  obtain ⟨suffix, hsuffix⟩ := exists_longer (r.allVariables.map fun v => (ρ v).name)
  rw [List.forall_mem_map] at hsuffix
  let ρ' : Variable → Variable := fun v => if v ∈ r.allVariables then ρ v else v.withSuffix suffix
  have hinside : ∀ v ∈ r.allVariables, ρ' v = ρ v := fun v hv => if_pos hv
  have houtside : ∀ v, v ∉ r.allVariables → ρ' v = v.withSuffix suffix := fun v hv => if_neg hv
  -- The new names are shorter than the suffix, so no name with the suffix is one of them.
  have hapart : ∀ v ∈ r.allVariables, ∀ w : Variable, ρ v ≠ w.withSuffix suffix := by
    intro v hv w heq
    have hless := hsuffix v hv
    rw [heq, Variable.withSuffix, String.length_append] at hless
    omega
  refine ⟨ρ', ⟨fun v => ?_, fun v w heq => ?_⟩, ?_⟩
  · by_cases hv : v ∈ r.allVariables
    · rw [hinside v hv, hρ.quantifier v hv]
    · rw [houtside v hv]
      rfl
  -- Two variables of the rule are kept apart by the given renaming, two others by the suffix.
  · by_cases hv : v ∈ r.allVariables
    · by_cases hw : w ∈ r.allVariables
      · rw [hinside v hv, hinside w hw] at heq
        exact hρ.injective v hv w hw heq
      · rw [hinside v hv, houtside w hw] at heq
        exact absurd heq (hapart v hv w)
    · by_cases hw : w ∈ r.allVariables
      · rw [houtside v hv, hinside w hw] at heq
        exact absurd heq.symm (hapart w hw v)
      · rw [houtside v hv, houtside w hw] at heq
        exact Variable.withSuffix_injective heq
  · rw [renameBy_congr hinside]
    exact hρ.literals

/-! ## §3 Verdicts -/

/-- Variants have nothing to add to the same facts. -/
theorem Variant.isApplicable_eq {r r' : Rule} (h : r.Variant r') (hr : r.WellFormed)
    (hr' : r'.WellFormed) : r.isApplicable = r'.isApplicable := by
  obtain ⟨ρ, hρ, hsame⟩ := h.exists_renaming
  -- A match of the variant is one of the rule, read through the renaming.
  have hmatches : ∀ k I, r'.Matches k I ↔ r.Matches (fun v => k (ρ v)) I :=
    fun k I => hsame.matches_iff.trans matches_renameBy
  have hsatisfied : ∀ k I, r'.Satisfied k I ↔ r.Satisfied (fun v => k (ρ v)) I :=
    fun k I => hsame.satisfied_iff.trans (satisfied_renameBy hρ)
  rw [← Bool.not_inj_iff, Bool.eq_iff_iff, Bool.not_eq_true', Bool.not_eq_true']
  refine ⟨fun hidle => ?_, fun hidle => ?_⟩
  · rw [isApplicable_eq_false_iff hr', hsatisfied]
    exact satisfied_of_not_isApplicable hr hidle ((hmatches _ _).1 r'.matches_ofBody)
  · rw [isApplicable_eq_false_iff hr]
    -- The frozen body of the rule is a match of the variant, with the renaming undone.
    obtain ⟨k, hk⟩ := hρ.exists_assignment Term.var
    rw [← hk, ← hsatisfied]
    apply satisfied_of_not_isApplicable hr' hidle
    rw [hmatches, hk]
    exact r.matches_ofBody

section Verdicts

variable {r₁ r₂ r₁' r₂' : Rule} (h₁ : r₁.Variant r₁') (h₂ : r₂.Variant r₂')

include h₁ h₂

/-- What holds of two rules whatever the names of their variables, and whatever the order of their
literals, holds of variants. -/
theorem Variant.iff_of_invariant {P : Rule → Rule → Prop}
    (hrename : ∀ ρ₁ ρ₂, Renaming ρ₁ → Renaming ρ₂ →
      (P (r₁.renameBy ρ₁) (r₂.renameBy ρ₂) ↔ P r₁ r₂))
    (hsame : ∀ s₁ s₁' s₂ s₂' : Rule, s₁.SameLiterals s₁' → s₂.SameLiterals s₂' →
      P s₁ s₂ → P s₁' s₂') :
    P r₁' r₂' ↔ P r₁ r₂ := by
  obtain ⟨ρ₁, hρ₁, hsame₁⟩ := h₁.exists_renaming
  obtain ⟨ρ₂, hρ₂, hsame₂⟩ := h₂.exists_renaming
  rw [← hrename ρ₁ ρ₂ hρ₁ hρ₂]
  exact ⟨hsame _ _ _ _ hsame₁ hsame₂, hsame _ _ _ _ hsame₁.symm hsame₂.symm⟩

theorem Variant.exists_triggers_iff :
    (∃ I h₁ n h₂, r₁'.Triggers r₂' I h₁ n h₂) ↔ ∃ I h₁ n h₂, r₁.Triggers r₂ I h₁ n h₂ := by
  apply h₁.iff_of_invariant h₂ fun _ _ hρ₁ hρ₂ => exists_triggers_renameBy hρ₁ hρ₂
  intro s₁ s₁' s₂ s₂' hsame₁ hsame₂ h
  obtain ⟨I, k₁, n, k₂, h⟩ := h
  exact ⟨I, k₁, n, k₂, hsame₁.triggers hsame₂ h⟩

theorem Variant.exists_feeds_iff :
    (∃ I h₁ n h₂, r₁'.Feeds r₂' I h₁ n h₂) ↔ ∃ I h₁ n h₂, r₁.Feeds r₂ I h₁ n h₂ := by
  apply h₁.iff_of_invariant h₂ fun _ _ hρ₁ hρ₂ => exists_feeds_renameBy hρ₁ hρ₂
  intro s₁ s₁' s₂ s₂' hsame₁ hsame₂ h
  obtain ⟨I, k₁, n, k₂, h⟩ := h
  exact ⟨I, k₁, n, k₂, hsame₁.feeds hsame₂ h⟩

theorem Variant.exists_restrains_iff :
    (∃ I h₁ h₂ n m g Z, r₁'.Restrains r₂' I h₁ h₂ n m g Z) ↔
      ∃ I h₁ h₂ n m g Z, r₁.Restrains r₂ I h₁ h₂ n m g Z := by
  apply h₁.iff_of_invariant h₂ fun _ _ hρ₁ hρ₂ => exists_restrains_renameBy hρ₁ hρ₂
  intro s₁ s₁' s₂ s₂' hsame₁ hsame₂ h
  obtain ⟨I, k₁, k₂, n, m, g, Z, h⟩ := h
  exact ⟨I, k₁, k₂, n, m, g, Z, hsame₁.restrains hsame₂ h⟩

theorem Variant.exists_redirects_iff :
    (∃ I h₁ h₂ n m g Z, r₁'.Redirects r₂' I h₁ h₂ n m g Z) ↔
      ∃ I h₁ h₂ n m g Z, r₁.Redirects r₂ I h₁ h₂ n m g Z := by
  apply h₁.iff_of_invariant h₂ fun _ _ hρ₁ hρ₂ => exists_redirects_renameBy hρ₁ hρ₂
  intro s₁ s₁' s₂ s₂' hsame₁ hsame₂ h
  obtain ⟨I, k₁, k₂, n, m, g, Z, h⟩ := h
  exact ⟨I, k₁, k₂, n, m, g, Z, hsame₁.redirects hsame₂ h⟩

end Verdicts

/-- A well-formed rule for which the search for reliances is exhaustive. -/
structure Searchable (r : Rule) : Prop where
  wellFormed : r.WellFormed
  body : r.body.length ≤ 67
  head : r.head.length ≤ 67

instance (r : Rule) : Decidable r.Searchable :=
  decidable_of_iff (r.WellFormed ∧ r.body.length ≤ 67 ∧ r.head.length ≤ 67)
    ⟨fun h => ⟨h.1, h.2.1, h.2.2⟩, fun h => ⟨h.wellFormed, h.body, h.head⟩⟩

section Relies

variable {r₁ r₂ r₁' r₂' : Rule} (h₁ : r₁.Variant r₁') (h₂ : r₂.Variant r₂')
  (hr₁ : r₁.Searchable) (hr₂ : r₂.Searchable) (hr₁' : r₁'.Searchable) (hr₂' : r₂'.Searchable)

include h₁ h₂ hr₁ hr₂ hr₁' hr₂'

/-- Variants have the same positive reliances, with and without the tests of applications. -/
theorem Variant.positivelyRelies_eq (config : Config) :
    r₁.positivelyRelies r₂ config = r₁'.positivelyRelies r₂' config := by
  rw [Bool.eq_iff_iff]
  -- Both answers are about applications, of which there are more if they are not tested.
  cases happlicability : config.applicability with
  | false =>
    rw [positivelyRelies_iff_feeds hr₁.wellFormed hr₂.wellFormed hr₂.body happlicability,
      positivelyRelies_iff_feeds hr₁'.wellFormed hr₂'.wellFormed hr₂'.body happlicability,
      h₁.exists_feeds_iff h₂]
  | true =>
    refine ⟨fun hrelies => ?_, fun hrelies => ?_⟩
    · obtain ⟨I, k₁, n, k₂, h⟩ := (h₁.exists_triggers_iff h₂).2
        (exists_triggers_of_positivelyRelies hr₁.wellFormed hr₂.wellFormed happlicability hrelies)
      exact positivelyRelies_of_triggers hr₁'.wellFormed hr₂'.wellFormed hr₂'.body config h
    · obtain ⟨I, k₁, n, k₂, h⟩ := (h₁.exists_triggers_iff h₂).1
        (exists_triggers_of_positivelyRelies hr₁'.wellFormed hr₂'.wellFormed happlicability hrelies)
      exact positivelyRelies_of_triggers hr₁.wellFormed hr₂.wellFormed hr₂.body config h

/-- Variants have the same negative reliances, with and without the tests of applications. -/
theorem Variant.negativelyRelies_eq (config : Config) :
    r₁.negativelyRelies r₂ config = r₁'.negativelyRelies r₂' config := by
  rw [Bool.eq_iff_iff]
  cases happlicability : config.applicability with
  | false =>
    rw [negativelyRelies_iff_redirects hr₁.wellFormed hr₂.wellFormed hr₂.head happlicability,
      negativelyRelies_iff_redirects hr₁'.wellFormed hr₂'.wellFormed hr₂'.head happlicability,
      h₁.exists_redirects_iff h₂]
  | true =>
    refine ⟨fun hrelies => ?_, fun hrelies => ?_⟩
    · obtain ⟨I, k₁, k₂, n, m, g, Z, h⟩ := (h₁.exists_restrains_iff h₂).2
        (exists_restrains_of_negativelyRelies hr₁.wellFormed hr₂.wellFormed happlicability hrelies)
      exact negativelyRelies_of_restrains hr₁'.wellFormed hr₂'.wellFormed hr₂'.head config h
    · obtain ⟨I, k₁, k₂, n, m, g, Z, h⟩ := (h₁.exists_restrains_iff h₂).1
        (exists_restrains_of_negativelyRelies hr₁'.wellFormed hr₂'.wellFormed happlicability
          hrelies)
      exact negativelyRelies_of_restrains hr₁.wellFormed hr₂.wellFormed hr₂.head config h

/-- Variants rely on each other in the same ways. -/
theorem Variant.relies_eq (config : Config) : r₁.relies r₂ config = r₁'.relies r₂' config := by
  funext polarity
  cases polarity with
  | positive => exact h₁.positivelyRelies_eq h₂ hr₁ hr₂ hr₁' hr₂' config
  | negative =>
    exact congrArg (config.negative && ·) (h₁.negativelyRelies_eq h₂ hr₁ hr₂ hr₁' hr₂' config)

end Relies

end Rule

/-! ## §4 Analyses -/

namespace Analysis

/-- If the rules of two lists differ only in the names of their variables, in the order of their
literals and in how often these are listed, then the same rules are applicable and analyzed, and
they have the same reliances, components and strata. -/
theorem ofRules_eq_of_variants {rules rules' : List Rule}
    (hvariants : List.Forall₂ Rule.Variant rules rules') (hrules : ∀ r ∈ rules, r.Searchable)
    (hrules' : ∀ r ∈ rules', r.Searchable) (config : Config) :
    let a := ofRules rules config
    let a' := ofRules rules' config
    a.applicability = a'.applicability ∧ a.origins = a'.origins ∧ a.reliances = a'.reliances ∧
      a.components = a'.components ∧ a.strata = a'.strata ∧
      a.recursiveStrata = a'.recursiveStrata := by
  -- The assumptions about the two lists are put together rule by rule.
  have hforall : List.Forall₂ (fun r r' => r.Searchable ∧ r'.Searchable ∧ r.Variant r')
      rules rules' := by
    obtain ⟨hlength, hzip⟩ := List.forall₂_iff_zip.1 hvariants
    refine List.forall₂_iff_zip.2 ⟨hlength, fun hmem => ?_⟩
    exact ⟨hrules _ (List.of_mem_zip hmem).1, hrules' _ (List.of_mem_zip hmem).2, hzip hmem⟩
  obtain ⟨happlicability, horigins, hreliances⟩ := ofRules_congr config
    (fun r r' h => h.2.2.isApplicable_eq h.1.wellFormed h.2.1.wellFormed)
    (fun r₁ r₁' r₂ r₂' h₁ h₂ => h₁.2.2.relies_eq h₂.2.2 h₁.1 h₂.1 h₁.2.1 h₂.2.1 config) hforall
  -- Components and strata are computed from the reliances alone.
  have hcomponents : (ofRules rules config).components = (ofRules rules' config).components := by
    rw [components_ofRules, hreliances, ← components_ofRules]
  have hstrata : (ofRules rules config).strata = (ofRules rules' config).strata := by
    rw [strata_ofRules, dependencies_ofRules, hreliances, ← dependencies_ofRules, ← strata_ofRules]
  exact ⟨happlicability, horigins, hreliances, hcomponents, hstrata,
    congrArg (List.map Stratum.recursive) hstrata⟩

/-- Every student has an advisor, and the advisors of a student are colleagues. -/
def academicRules : List Rule :=
  [Rule.studentHasAdvisor,
    ⟨[⟨"advises", [.universal "X", .universal "Z"]⟩, ⟨"advises", [.universal "Y", .universal "Z"]⟩],
      [⟨"colleague", [.universal "X", .universal "Y"]⟩]⟩]

/-- The same rules with other names, one literal written twice and two literals the other way
round. -/
def renamedAcademicRules : List Rule :=
  [⟨[⟨"student", [.universal "B"]⟩],
      [⟨"advises", [.existential "A", .universal "B"]⟩,
        ⟨"advises", [.existential "A", .universal "B"]⟩]⟩,
    ⟨[⟨"advises", [.universal "X", .universal "Y"]⟩, ⟨"advises", [.universal "Z", .universal "Y"]⟩],
      [⟨"colleague", [.universal "Z", .universal "X"]⟩]⟩]

/-- In the second rule the names go round in a circle. -/
theorem ofRules_renamedAcademicRules :
    List.Forall₂ Rule.Variant academicRules renamedAcademicRules ∧
      (ofRules academicRules .default).reliances =
        (ofRules renamedAcademicRules .default).reliances ∧
      (ofRules academicRules .default).strata = (ofRules renamedAcademicRules .default).strata := by
  have hvariants : List.Forall₂ Rule.Variant academicRules renamedAcademicRules :=
    .cons ⟨fun v => ⟨if v.name = "X" then "B" else "A", v.quantifier⟩, by decide⟩
      (.cons ⟨fun v => ⟨if v.name = "X" then "Z" else if v.name = "Y" then "X" else "Y",
        v.quantifier⟩, by decide⟩ .nil)
  have h := ofRules_eq_of_variants hvariants (by decide) (by decide) .default
  exact ⟨hvariants, h.2.2.1, h.2.2.2.2.1⟩

end Analysis

end ExistentialRules
