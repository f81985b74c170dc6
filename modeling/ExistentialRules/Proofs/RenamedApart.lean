import ExistentialRules.Proofs.Validation
import ExistentialRules.Proofs.Variant

/-!
# Renaming apart

Before two rules are compared, a suffix is appended to the names of the variables of each. The
renamed rules are not checked again. They need not be: a suffix keeps different names different and
quantifiers as they are, so that a well-formed rule stays well formed, and its variables of every
kind are the renamed ones.

The order of the variables can change, for a name may be longer than another by a letter that comes
before the first one of the suffix. So the sets of variables are renamed and then put in order
again, and the search for a homomorphism may try the variables in another order. Applicability does
not depend on this, because a renamed rule is a variant of the rule.

## Main statements

* `Rule.allVariables_renameBy`, `Rule.universals_renameBy`, `Rule.existentials_renameBy`,
  `Rule.frontier_renameBy`: the variables of a renamed rule;
* `Rule.isApplicable_rename`: a suffix does not change whether a rule can add something;
* `Rule.rename_sound`: all of this, and that different suffixes keep the variables of two rules
  apart.
-/

namespace ExistentialRules

/-- An ascending list of the renamed elements is the renamed list, put in order. -/
theorem Ascending.Strict.eq_ofList_map {ρ : Variable → Variable} {vs ws : List Variable}
    (hws : Ascending.Strict ws) (h : ∀ w, w ∈ ws ↔ ∃ v ∈ vs, ρ v = w) :
    ws = Ascending.ofList (vs.map ρ) := by
  apply hws.ext (Ascending.strict_ofList _)
  intro w
  rw [h, Ascending.mem_ofList, List.mem_map]

namespace Rule

/-! ## §1 The variables of a renamed rule -/

section Views

variable {ρ : Variable → Variable} (r : Rule)

theorem allVariables_renameBy :
    (r.renameBy ρ).allVariables = Ascending.ofList (r.allVariables.map ρ) :=
  (Ascending.strict_ofList _).eq_ofList_map fun _ => mem_allVariables_renameBy

theorem universals_renameBy :
    (r.renameBy ρ).universals = Ascending.ofList (r.universals.map ρ) := by
  apply (Ascending.strict_ofList _).eq_ofList_map
  intro w
  show w ∈ (r.renameBy ρ).universals ↔ _
  simp only [mem_universals, mem_bodyVariables_renameBy]

variable (hρ : Renaming ρ)

include hρ

theorem existentials_renameBy :
    (r.renameBy ρ).existentials = Ascending.ofList (r.existentials.map ρ) :=
  (strict_existentials _).eq_ofList_map fun _ => mem_existentials_renameBy hρ

/-- The frontier of a renamed rule has the renamed variables of the frontier. -/
theorem mem_frontier_renameBy {w : Variable} :
    w ∈ (r.renameBy ρ).frontier ↔ ∃ v ∈ r.frontier, ρ v = w := by
  simp only [mem_frontier, mem_headVariables_renameBy, mem_bodyVariables_renameBy]
  constructor
  · intro h
    obtain ⟨⟨v, hv, rfl⟩, hq, u, hu, huv⟩ := h
    -- Body and head share the renamed variable, hence the variable itself.
    rw [hρ.injective huv] at hu
    rw [hρ.quantifier] at hq
    exact ⟨v, ⟨hv, hq, hu⟩, rfl⟩
  · intro h
    obtain ⟨v, ⟨hv, hq, hu⟩, rfl⟩ := h
    rw [hρ.quantifier]
    exact ⟨⟨v, hv, rfl⟩, hq, v, hu, rfl⟩

theorem frontier_renameBy :
    (r.renameBy ρ).frontier = Ascending.ofList (r.frontier.map ρ) :=
  (Ascending.strict_ofList _).eq_ofList_map fun _ => mem_frontier_renameBy r hρ

end Views

/-! ## §2 Suffixes -/

theorem variant_rename (r : Rule) (suffix : String) : r.Variant (r.rename suffix) := by
  refine ⟨Variable.withSuffix suffix, fun _ _ => rfl, fun v _ w _ h => ?_, ?_⟩
  -- The suffix can be taken off again.
  · exact Variable.withSuffix_injective h
  · exact ⟨fun _ => Iff.rfl, fun _ => Iff.rfl⟩

/-- A suffix does not change whether a rule can add something. -/
theorem isApplicable_rename {r : Rule} (hr : r.WellFormed) (suffix : String) :
    (r.rename suffix).isApplicable = r.isApplicable :=
  ((r.variant_rename suffix).isApplicable_eq hr (hr.rename suffix)).symm

/-- A well-formed rule with a suffix appended to its variables is accepted. Its frontier,
existential, universal and other variables are those of the rule with the suffix, which keeps
different variables different. It can add something exactly if the rule can. And with the suffixes
of source and target, no two rules have a variable in common, whatever their variables are
called. -/
theorem rename_sound {r : Rule} (hr : r.WellFormed) (suffix : String) :
    let ρ := Variable.withSuffix suffix
    let r' := r.rename suffix
    ofLiterals r'.body r'.head = .ok r' ∧
    r'.frontier = Ascending.ofList (r.frontier.map ρ) ∧
    r'.existentials = Ascending.ofList (r.existentials.map ρ) ∧
    r'.universals = Ascending.ofList (r.universals.map ρ) ∧
    r'.allVariables = Ascending.ofList (r.allVariables.map ρ) ∧
    Function.Injective ρ ∧
    r'.isApplicable = r.isApplicable ∧
    ∀ s : Rule, (r.rename Reliance.sourceSuffix).allVariables.Disjoint
      (s.rename Reliance.targetSuffix).allVariables := by
  have hρ := renaming_withSuffix suffix
  have hok : ofLiterals (r.rename suffix).body (r.rename suffix).head = .ok (r.rename suffix) :=
    ofLiterals_eq_ok_iff.2 ⟨rfl, hr.rename suffix⟩
  exact ⟨hok, frontier_renameBy r hρ, existentials_renameBy r hρ, universals_renameBy r,
    allVariables_renameBy r, hρ.injective, isApplicable_rename hr suffix,
    fun s _ hv => Reliance.renamedApart r s hv⟩

/-- Variables whose names look as if they had been renamed. -/
def aliasHasAlias : Rule :=
  ⟨[⟨"alias", [.universal "X", .universal "XA"]⟩],
    [⟨"alias", [.universal "XA", .existential "X_1"]⟩]⟩

/-- The suffix changes the order of the two universal variables. -/
theorem rename_sound_aliasHasAlias :
    aliasHasAlias.WellFormed ∧
    aliasHasAlias.universals = [⟨"X", .universal⟩, ⟨"XA", .universal⟩] ∧
    (aliasHasAlias.rename "_1").universals =
      Ascending.ofList (aliasHasAlias.universals.map (Variable.withSuffix "_1")) ∧
    (aliasHasAlias.rename "_1").universals = [⟨"XA_1", .universal⟩, ⟨"X_1", .universal⟩] ∧
    (aliasHasAlias.rename "_1").isApplicable = aliasHasAlias.isApplicable ∧
    (aliasHasAlias.rename Reliance.sourceSuffix).allVariables.Disjoint
      (aliasHasAlias.rename Reliance.targetSuffix).allVariables := by
  have hr : aliasHasAlias.WellFormed := by decide
  have h := rename_sound hr "_1"
  exact ⟨hr, by decide, h.2.2.2.1, by decide, h.2.2.2.2.2.2.1, h.2.2.2.2.2.2.2 _⟩

end Rule

end ExistentialRules
