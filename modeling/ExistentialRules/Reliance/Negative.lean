import ExistentialRules.Reliance.Positive

/-!
# Negative reliance

A source rule restrains a target rule if an application of the source can make an earlier
application of the target redundant: what the target asserted with fresh terms, the source then
asserts with other terms, so that the fresh terms were not needed.

Such applications are found by unifying head literals of the target, among them some with
existential variables, with head literals of the source. The two rules have no variable in common;
`Rule.negativelyRelies` sees to this. A target without existential variables is never restrained.

## Main statements

* `Reliance.value_negativeLogged`: the verdict, said without the log and without the order in which
  the pairings are tried.
-/

namespace ExistentialRules

namespace Reliance

/-! ## §1 Restraining unifiers -/

/-- Whether an existential variable of the target stands in a paired head literal. -/
def touchesExistential (target : RuleIndex) (p : Pairing) : Bool :=
  (p.covered target.rule.head).any fun l => l.occurringVariables.any target.isExistential

/-- Whether each existential variable of the source is equal to existential variables of the target
only, besides itself. -/
def keepsSourceFresh (source target : RuleIndex) (u : Unifier) : Bool :=
  source.existentials.all fun e =>
    match u.class? e with
    | none => true
    | some c => c.rigid.isNone && c.members.all fun v => v = e || target.isExistential v

/-- Whether an existential variable of the target that stands in a paired head literal stands in
paired head literals only. -/
def coversTarget (target : RuleIndex) (p : Pairing) : Bool :=
  target.existentials.all fun v =>
    !(p.right.any (target.headLiteralsWith v).contains) ||
      (target.headLiteralsWith v).all p.covers

/-- Whether a unifier describes a restraint. -/
def isRestrainingUnifier (source target : RuleIndex) (p : Pairing) (u : Unifier) : Bool :=
  keepsSourceFresh source target u && coversTarget target p

/-! ## §2 The applications that a unifier describes -/

/-- The order in which variables are chosen to stand for their classes: universal ones first, then
the source's existential variables. -/
def restraintRank (source : RuleIndex) (v : Variable) : Nat :=
  if v.isUniversal then 0 else if source.isExistential v then 1 else 2

/-- The substitution of a unifier, save that the target's existential variables stand for
themselves: they are the fresh terms of the earlier application. -/
def restraintSubstitution (source target : RuleIndex) (u : Unifier) : Substitution :=
  target.existentials.foldl (fun σ v => σ.bind v (.var v))
    (u.substitution (restraintRank source))

/-- What holds before either rule is applied: the two bodies. -/
def sharedFacts (source target : Rule) (σ : Substitution) : Instance :=
  (Instance.ofList (σ.applyLiterals source.body)).extend (σ.applyLiterals target.body)

/-- Whether the target has nothing to add. -/
def restrainedIdle (source target : RuleIndex) (u : Unifier) : Bool :=
  let σ := restraintSubstitution source target u
  (sharedFacts source.rule target.rule σ).entailsWith
    (σ.applyLiterals target.rule.head) (.only target.existentials)

/-- Whether the source has nothing to add once the target is applied. -/
def restrainingIdle (source target : RuleIndex) (u : Unifier) : Bool :=
  let σ := restraintSubstitution source target u
  ((sharedFacts source.rule target.rule σ).extend (σ.applyLiterals target.rule.head)).entailsWith
    (σ.applyLiterals source.rule.head) (.only source.existentials)

/-- Whether first the target and then the source add something. -/
def isEffectiveRestraint (source target : RuleIndex) (u : Unifier) : Bool :=
  !restrainedIdle source target u && !restrainingIdle source target u

/-- Decide whether both applications are effective and report it. -/
def isEffectiveRestraintLogged (source target : RuleIndex) (u : Unifier) : Logged Bool := do
  let σ := restraintSubstitution source target u
  let facts := sharedFacts source.rule target.rule σ
  let targetHead := σ.applyLiterals target.rule.head
  if ← facts.entailsLogged targetHead (.only target.existentials) then
    Logged.tell (.wouldNotFire u)
    return false
  else
    let satisfied ←
      (facts.extend targetHead).entailsLogged (σ.applyLiterals source.rule.head)
        (.only source.existentials)
    return !satisfied

@[simp]
theorem value_isEffectiveRestraintLogged (source target : RuleIndex) (u : Unifier) :
    (isEffectiveRestraintLogged source target u).value = isEffectiveRestraint source target u := by
  simp only [isEffectiveRestraintLogged, isEffectiveRestraint, restrainedIdle, restrainingIdle,
    Logged.value_bind, Logged.value_ite, Logged.value_pure, Instance.value_entailsLogged]
  split
  · simp_all
  · simp_all

/-! ## §3 The verdict -/

/-- Whether a pairing shows that the source restrains the target. -/
def showsNegative (source target : RuleIndex) (config : Config) (p : Pairing) : Bool :=
  touchesExistential target p &&
    match p.unifier? source.rule.head target.rule.head with
    | none => false
    | some u =>
      isRestrainingUnifier source target p u &&
        (!config.applicability || isEffectiveRestraint source target u)

/-- Decide whether a pairing shows a restraint and report it. -/
def showsNegativeLogged (source target : RuleIndex) (config : Config) (p : Pairing) :
    Logged Bool :=
  if touchesExistential target p then do
    match ← p.unifierLogged source.rule.head target.rule.head with
    | none => return false
    | some u =>
      if isRestrainingUnifier source target p u then
        if config.applicability then
          isEffectiveRestraintLogged source target u
        else
          return true
      else
        return false
  else
    return false

@[simp]
theorem value_showsNegativeLogged (source target : RuleIndex) (config : Config) (p : Pairing) :
    (showsNegativeLogged source target config p).value =
      showsNegative source target config p := by
  simp only [showsNegativeLogged, showsNegative]
  cases htouch : touchesExistential target p
  · simp
  · simp only [Logged.value_ite, Logged.value_bind, Pairing.value_unifierLogged]
    cases p.unifier? source.rule.head target.rule.head with
    | none => simp
    | some u =>
      cases hrestrain : isRestrainingUnifier source target p u
      · simp
      · cases happ : config.applicability
        · simp
        · simp

/-- Decide whether the source restrains the target, both indexed and without a common variable, and
report how. -/
def negativeLogged (source target : RuleIndex) (config : Config) : Logged Bool :=
  if target.existentials.isEmpty then
    return false
  else if config.prefilter && !source.overlaps target then do
    Logged.tell (.headsDisjoint source.rule target.rule)
    return false
  else do
    let verdict ←
      Pairing.any source.rule.head.length target.rule.head.length
        (showsNegativeLogged source target config)
    Logged.tell (.negativeVerdict source.rule target.rule verdict)
    return verdict

/-- The source restrains the target if the target has existential variables, the prefilter lets the
two pass and some pairing shows it. -/
theorem value_negativeLogged (source target : RuleIndex) (config : Config) :
    (negativeLogged source target config).value =
      (!target.existentials.isEmpty && (!config.prefilter || source.overlaps target) &&
        (pairings source.rule.head.length target.rule.head.length).any
          (showsNegative source target config)) := by
  unfold negativeLogged
  cases hex : target.existentials.isEmpty <;> cases hpre : config.prefilter <;>
    cases hover : source.overlaps target <;> simp [Pairing.any_eq]

end Reliance

/-! ## §4 Rules -/

/-- Decide whether an application of `r₁` can make an earlier application of `r₂` redundant, and
report how. The rules may be the same. -/
def Rule.negativelyReliesLogged (r₁ r₂ : Rule) (config : Config) : Logged Bool :=
  Reliance.negativeLogged (Reliance.sourceIndex r₁) (Reliance.targetIndex r₂) config

/-- Whether an application of `r₁` can make an earlier application of `r₂` redundant. -/
def Rule.negativelyRelies (r₁ r₂ : Rule) (config : Config) : Bool :=
  (r₁.negativelyReliesLogged r₂ config).value

end ExistentialRules
