import ExistentialRules.Config
import ExistentialRules.Homomorphism
import ExistentialRules.Pairing
import ExistentialRules.RuleIndex

/-!
# Positive reliance

A target rule relies positively on a source rule if an application of the source can bring about a
new application of the target.

Such applications are found by unifying body literals of the target with head literals of the
source. A unifier is of use if it treats the source's existential variables as the fresh terms they
stand for, and if the application that it describes is not idle: the source adds something, the
target could not be applied before, and the target adds something after.

The two rules have no variable in common; `Rule.positivelyRelies` sees to this.

## Main statements

* `Reliance.value_positiveLogged`: the verdict, said without the log and without the order in which
  the pairings are tried.
-/

namespace ExistentialRules

namespace Pairing

/-- The right-hand literals that take part. -/
def covered (p : Pairing) (right : List Literal) : List Literal :=
  p.right.filterMap fun index => right[index]?

/-- The right-hand literals that do not take part. -/
def uncovered (p : Pairing) (right : List Literal) : List Literal :=
  (right.zipIdx.filter fun entry => !p.covers entry.2).map Prod.fst

end Pairing

namespace Reliance

/-! ## §1 Piece-unifiers -/

/-- Whether a unifier treats the source's existential variables as fresh terms: each is equal to no
rigid term and to no other term of the source, and a variable of the target that is equal to it
stands in paired body literals only. -/
def isPieceUnifier (source target : RuleIndex) (p : Pairing) (u : Unifier) : Bool :=
  source.existentials.all fun e =>
    match u.class? e with
    | none => true
    | some c =>
      c.rigid.isNone &&
        (c.members.filter (· ≠ e)).all fun v =>
          (source.occurrences v).isEmpty && (target.bodyLiteralsWith v).all p.covers

/-! ## §2 The application that a unifier describes -/

/-- The substitution of a unifier with the existential variables standing for their classes, so that
they can still be replaced in a query. -/
def stepSubstitution (u : Unifier) : Substitution :=
  u.substitution fun v => if v.isExistential then 0 else 1

/-- What holds before the source is applied: its body, and the rest of the target's body. -/
def factsBefore (source target : Rule) (p : Pairing) (σ : Substitution) : Instance :=
  (Instance.ofList (σ.applyLiterals source.body)).extend
    (σ.applyLiterals (p.uncovered target.body))

/-- What holds after the source is applied. -/
def factsAfter (source target : Rule) (p : Pairing) (σ : Substitution) : Instance :=
  (factsBefore source target p σ).extend (σ.applyLiterals source.head)

/-- Whether the source has nothing to add. -/
def sourceSatisfied (source target : RuleIndex) (p : Pairing) (u : Unifier) : Bool :=
  (factsBefore source.rule target.rule p (stepSubstitution u)).entailsWith
    ((stepSubstitution u).applyLiterals source.rule.head) (.only source.existentials)

/-- Whether the target could be applied already before the source is. -/
def triggerPredates (source target : RuleIndex) (p : Pairing) (u : Unifier) : Bool :=
  ((stepSubstitution u).applyLiterals (p.covered target.rule.body)).all
    (factsBefore source.rule target.rule p (stepSubstitution u)).contains

/-- Whether the target has nothing to add after the source is applied. -/
def targetSatisfied (source target : RuleIndex) (p : Pairing) (u : Unifier) : Bool :=
  (factsAfter source.rule target.rule p (stepSubstitution u)).entailsWith
    ((stepSubstitution u).applyLiterals target.rule.head) (.only target.existentials)

/-- Whether the source, applied, brings about a new and effective application of the target. -/
def isEffectiveStep (source target : RuleIndex) (p : Pairing) (u : Unifier) : Bool :=
  !sourceSatisfied source target p u && !triggerPredates source target p u
    && !targetSatisfied source target p u

/-- Decide whether the step is effective and report it. -/
def isEffectiveStepLogged (source target : RuleIndex) (p : Pairing) (u : Unifier) :
    Logged Bool := do
  let σ := stepSubstitution u
  let before := factsBefore source.rule target.rule p σ
  let sourceHead := σ.applyLiterals source.rule.head
  if ← before.entailsLogged sourceHead (.only source.existentials) then
    Logged.tell (.alreadySatisfied u)
    return false
  else if (σ.applyLiterals (p.covered target.rule.body)).all before.contains then
    Logged.tell (.triggerPredates u)
    return false
  else
    let after := before.extend sourceHead
    let satisfied ←
      after.entailsLogged (σ.applyLiterals target.rule.head) (.only target.existentials)
    return !satisfied

@[simp]
theorem value_isEffectiveStepLogged (source target : RuleIndex) (p : Pairing) (u : Unifier) :
    (isEffectiveStepLogged source target p u).value = isEffectiveStep source target p u := by
  simp only [isEffectiveStepLogged, isEffectiveStep, sourceSatisfied, triggerPredates,
    targetSatisfied, factsAfter, Logged.value_bind, Logged.value_ite, Logged.value_pure,
    Instance.value_entailsLogged]
  split
  · simp_all
  · split
    · simp_all
    · simp_all

/-! ## §3 The verdict -/

/-- Whether a pairing shows that the target relies on the source. -/
def showsPositive (source target : RuleIndex) (config : Config) (p : Pairing) : Bool :=
  match p.unifier? source.rule.head target.rule.body with
  | none => false
  | some u =>
    isPieceUnifier source target p u &&
      (!config.applicability || isEffectiveStep source target p u)

/-- Decide whether a pairing shows a reliance and report it. -/
def showsPositiveLogged (source target : RuleIndex) (config : Config) (p : Pairing) :
    Logged Bool := do
  match ← p.unifierLogged source.rule.head target.rule.body with
  | none => return false
  | some u =>
    if isPieceUnifier source target p u then
      if config.applicability then
        isEffectiveStepLogged source target p u
      else
        return true
    else
      return false

@[simp]
theorem value_showsPositiveLogged (source target : RuleIndex) (config : Config) (p : Pairing) :
    (showsPositiveLogged source target config p).value =
      showsPositive source target config p := by
  simp only [showsPositiveLogged, showsPositive, Logged.value_bind, Pairing.value_unifierLogged]
  cases p.unifier? source.rule.head target.rule.body with
  | none => rfl
  | some u =>
    cases hpiece : isPieceUnifier source target p u
    · simp
    · cases happ : config.applicability
      · simp
      · simp

/-- Decide whether the target relies positively on the source, both indexed and without a common
variable, and report how. -/
def positiveLogged (source target : RuleIndex) (config : Config) : Logged Bool :=
  if config.prefilter && !source.feeds target then do
    Logged.tell (.nothingFed source.rule target.rule)
    return false
  else do
    let verdict ←
      Pairing.any source.rule.head.length target.rule.body.length
        (showsPositiveLogged source target config)
    Logged.tell (.positiveVerdict source.rule target.rule verdict)
    return verdict

/-- The target relies on the source if the prefilter lets the two pass and some pairing shows it. -/
theorem value_positiveLogged (source target : RuleIndex) (config : Config) :
    (positiveLogged source target config).value =
      ((!config.prefilter || source.feeds target) &&
        (pairings source.rule.head.length target.rule.body.length).any
          (showsPositive source target config)) := by
  unfold positiveLogged
  cases hpre : config.prefilter <;> cases hfeeds : source.feeds target <;>
    simp [Pairing.any_eq]

/-! ## §4 Rules -/

/-- The suffix that sets the source's variables apart. -/
def sourceSuffix : String :=
  "_1"

/-- The suffix that sets the target's variables apart. -/
def targetSuffix : String :=
  "_2"

/-- The index of a rule in the part of the source. -/
def sourceIndex (r : Rule) : RuleIndex :=
  .ofRule (r.rename sourceSuffix)

/-- The index of a rule in the part of the target. -/
def targetIndex (r : Rule) : RuleIndex :=
  .ofRule (r.rename targetSuffix)

end Reliance

/-- Decide whether an application of `r₁` can bring about a new application of `r₂`, and report how.
The rules may be the same. -/
def Rule.positivelyReliesLogged (r₁ r₂ : Rule) (config : Config) : Logged Bool :=
  Reliance.positiveLogged (Reliance.sourceIndex r₁) (Reliance.targetIndex r₂) config

/-- Whether an application of `r₁` can bring about a new application of `r₂`. -/
def Rule.positivelyRelies (r₁ r₂ : Rule) (config : Config) : Bool :=
  (r₁.positivelyReliesLogged r₂ config).value

end ExistentialRules
