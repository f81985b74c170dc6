import ExistentialRules.Proofs.NegativeReliance
import ExistentialRules.Proofs.PositiveReliance

/-!
# Fresh terms under accepted unifiers

An application of a rule makes a fresh term for each of its existential variables. The tests that a
reliance is decided with describe such applications by a substitution, in which the existential
variables play the part of the fresh terms. This is right only if the substitution sends each of
them to itself and no variable that had a value before to one of them. The unifiers that are
accepted see to this.

## Main definitions

* `Reliance.StepFresh`: in the substitution of a chase step, the source's existential variables are
  fresh, and the paired literals of the target are those that the source has added;
* `Reliance.RestraintFresh`: in the substitution of a restraint, the existential variables of both
  rules are fresh.

## Main statements

* `Reliance.fresh_of_accepted`: what an accepted unifier gives.
-/

namespace ExistentialRules

namespace Reliance

/-! ## §1 Freshness -/

/-- The source's existential variables stand for terms that the application makes: nothing that is
matched before it has one of them as its value. What the pairing covers is matched by what the
application adds. -/
structure StepFresh (source target : Rule) (p : Pairing) (σ : Substitution) : Prop where
  existential : ∀ e ∈ source.existentials, σ.applyVariable e = .var e
  universal : ∀ v ∈ source.allVariables, v.quantifier = .universal →
    ∀ e ∈ source.existentials, σ.applyVariable v ≠ .var e
  uncovered : ∀ l ∈ p.uncovered target.body, ∀ v ∈ l.occurringVariables,
    ∀ e ∈ source.existentials, σ.applyVariable v ≠ .var e
  partner : ∀ m ∈ p.covered target.body, ∃ l, (l, m) ∈ p.pairs source.head target.body
  paired : ∀ l m, (l, m) ∈ p.pairs source.head target.body →
    σ.applyLiteral m = σ.applyLiteral l

/-- The existential variables of both rules stand for terms that their applications make: no
variable of a body has one of them as its value. -/
structure RestraintFresh (source target : Rule) (σ : Substitution) : Prop where
  existential : ∀ e ∈ source.existentials ++ target.existentials, σ.applyVariable e = .var e
  universal : ∀ v ∈ source.allVariables ++ target.allVariables, v.quantifier = .universal →
    ∀ e ∈ source.existentials ++ target.existentials, σ.applyVariable v ≠ .var e

section Accepted

variable {source target : Rule} {p : Pairing} {u : Unifier}
  (hapart : ∀ v ∈ source.allVariables, v ∉ target.allVariables)

include hapart

/-! ## §2 Accepted unifiers -/

/-- A piece unifier keeps the new terms of the source out of all that is matched before the step. -/
theorem stepFresh_of_isPiece (hsource : source.WellFormed) (htarget : target.WellFormed)
    (hp : p.Valid source.head.length target.body.length)
    (hunifier : p.unifier? source.head target.body = some u) (hpiece : IsPiece source target p u) :
    StepFresh source target p (stepSubstitution u) := by
  have hu := Pairing.wellFormed_of_unifier hunifier
  exact {
    existential := fun e he => frozen_source_existential htarget hu hpiece he
    universal := by
      intro v hv hquantifier e he
      -- A universal variable of a well-formed rule occurs in its body.
      rcases hsource.mem_bodyVariables_or_existentials hv with hbody | hex
      · exact frozen_ne_of_mem_body hsource hu hpiece hbody he
      · exact absurd hex (Rule.notMem_existentials_of_universal hquantifier)
    uncovered := fun l hl v hv e he => frozen_ne_of_mem_uncovered hapart hu hpiece hl hv he
    partner := fun m hm => Pairing.exists_partner hp hm
    paired := fun l m hpair => (Pairing.under_substitution_eq hunifier _ hpair).symm }

/-- A unifier that is accepted for a restraint keeps the new terms of both rules out of the facts
that they share. -/
theorem restraintFresh_of_keepsFresh (hu : u.WellFormed (p.Uses source.head target.head))
    (hkeeps : KeepsFresh source target u) :
    RestraintFresh source target (restraintSubstitution (.ofRule source) (.ofRule target) u) where
  existential := by
    intro e he
    rcases List.mem_append.1 he with he | he
    · exact common_source_existential hapart hu hkeeps he
    -- The target's existential variables are bound to themselves last.
    · exact common_of_mem he
  universal := by
    intro v _ hv e he
    have hexistential : e.quantifier = .existential := by
      rcases List.mem_append.1 he with he | he
      · exact (Rule.mem_existentials.1 he).2
      · exact (Rule.mem_existentials.1 he).2
    exact common_ne_of_universal hu hv hexistential

end Accepted

/-- For any two rules without a common variable, and for every pairing and its unifier: if the
unifier is accepted as that of a chase step, then the substitution of this step keeps the source's
existential variables fresh and makes each paired body literal equal to its partner. If it is
accepted as that of a restraint, then the substitution of this restraint keeps the existential
variables of both rules fresh. -/
theorem fresh_of_accepted {r₁ r₂ : Rule} (hr₁ : r₁.WellFormed) (hr₂ : r₂.WellFormed)
    (hapart : ∀ v ∈ r₁.allVariables, v ∉ r₂.allVariables) :
    (∀ (p : Pairing) u, p.Valid r₁.head.length r₂.body.length →
      p.unifier? r₁.head r₂.body = some u →
      isPieceUnifier (.ofRule r₁) (.ofRule r₂) p u = true →
        StepFresh r₁ r₂ p (stepSubstitution u)) ∧
    ∀ (p : Pairing) u, p.unifier? r₁.head r₂.head = some u →
      isRestrainingUnifier (.ofRule r₁) (.ofRule r₂) p u = true →
        RestraintFresh r₁ r₂ (restraintSubstitution (.ofRule r₁) (.ofRule r₂) u) := by
  constructor
  · intro p u hp hunifier haccepted
    have hpiece := (isPieceUnifier_iff (Pairing.wellFormed_of_unifier hunifier)).1 haccepted
    exact stepFresh_of_isPiece hapart hr₁ hr₂ hp hunifier hpiece
  -- Of the two tests for a restraint, only the one about the fresh terms of the source matters
  -- here.
  · intro p u hunifier haccepted
    have hu := Pairing.wellFormed_of_unifier hunifier
    have hkeeps := (Bool.and_eq_true_iff.1 haccepted).1
    exact restraintFresh_of_keepsFresh hapart hu ((keepsSourceFresh_iff hu).1 hkeeps)

/-- Every employee works for a manager. -/
def employeeHasManager : Rule :=
  ⟨[⟨"employee", [.universal "X"]⟩],
    [⟨"worksFor", [.universal "X", .existential "Y"]⟩, ⟨"manager", [.existential "Y"]⟩]⟩

/-- An employee who works for a manager works for someone. -/
def managedWorksForSomeone : Rule :=
  ⟨[⟨"employee", [.universal "X"]⟩, ⟨"worksFor", [.universal "X", .universal "Y"]⟩,
      ⟨"manager", [.universal "Y"]⟩],
    [⟨"worksFor", [.universal "X", .existential "Z"]⟩]⟩

/-- The new manager is the `Y` of the second rule, which stands in its last two body literals. Whom
the second rule has made, on the other hand, is another term than the manager who takes their
place. -/
theorem fresh_of_accepted_employeeHasManager :
    let r₁ := employeeHasManager.rename sourceSuffix
    let r₂ := managedWorksForSomeone.rename targetSuffix
    let employee : VariableClass := ⟨[⟨"X_1", .universal⟩, ⟨"X_2", .universal⟩], none⟩
    let u : Unifier := ⟨[employee, ⟨[⟨"Y_1", .existential⟩, ⟨"Y_2", .universal⟩], none⟩]⟩
    let w : Unifier := ⟨[employee, ⟨[⟨"Y_1", .existential⟩, ⟨"Z_2", .existential⟩], none⟩]⟩
    r₁.WellFormed ∧ r₂.WellFormed ∧
    Pairing.unifier? ⟨[0, 1], [1, 2]⟩ r₁.head r₂.body = some u ∧
    StepFresh r₁ r₂ ⟨[0, 1], [1, 2]⟩ (stepSubstitution u) ∧
    (stepSubstitution u).applyVariable ⟨"Y_2", .universal⟩ = .var ⟨"Y_1", .existential⟩ ∧
    Pairing.unifier? ⟨[0], [0]⟩ r₁.head r₂.head = some w ∧
    RestraintFresh r₁ r₂ (restraintSubstitution (.ofRule r₁) (.ofRule r₂) w) := by
  intro r₁ r₂ employee u w
  have hr₁ : r₁.WellFormed := Rule.WellFormed.rename (by decide) _
  have hr₂ : r₂.WellFormed := Rule.WellFormed.rename (by decide) _
  obtain ⟨hstep, hrestraint⟩ := fresh_of_accepted hr₁ hr₂ fun _ hv => renamedApart _ _ hv
  have hu : Pairing.unifier? ⟨[0, 1], [1, 2]⟩ r₁.head r₂.body = some u := by decide +kernel
  have hw : Pairing.unifier? ⟨[0], [0]⟩ r₁.head r₂.head = some w := by decide +kernel
  have hp : Pairing.Valid r₁.head.length r₂.body.length ⟨[0, 1], [1, 2]⟩ :=
    ⟨by decide, by decide, by decide, by decide, by decide⟩
  exact ⟨hr₁, hr₂, hu, hstep _ u hp hu (by decide +kernel), by decide +kernel, hw,
    hrestraint _ w hw (by decide +kernel)⟩

/-- If the last literal is not paired, then the unifier is refused: there would be a fact about the
new manager before there is one. -/
example :
    let r₁ := employeeHasManager.rename sourceSuffix
    let r₂ := managedWorksForSomeone.rename targetSuffix
    (Pairing.unifier? ⟨[0], [1]⟩ r₁.head r₂.body).map (fun u =>
      (isPieceUnifier (.ofRule r₁) (.ofRule r₂) ⟨[0], [1]⟩ u,
        (stepSubstitution u).applyVariable ⟨"Y_2", .universal⟩)) =
      some (false, .var ⟨"Y_1", .existential⟩) := by
  decide +kernel

end Reliance

end ExistentialRules
