import ExistentialRules.Homomorphism

/-!
# Applicability

A rule is applicable if it can ever add something. It suffices to look at its own body with the
variables frozen: the rule is inapplicable exactly if this instance already satisfies the head for
some values of the existential variables.
-/

namespace ExistentialRules

namespace Rule

/-- Whether the rule can ever add something. -/
def isApplicable (r : Rule) : Bool :=
  !(Instance.ofBody r).entailsWith r.head (.only r.existentials)

/-- Decide applicability and report the search and a negative answer. -/
def isApplicableLogged (r : Rule) : Logged Bool := do
  let satisfied ← (Instance.ofBody r).entailsLogged r.head (.only r.existentials)
  if satisfied then
    Logged.tell (.neverApplicable r)
  return !satisfied

/-- The applicability of several rules, in order. -/
def applicability (rs : List Rule) : List Bool :=
  rs.map isApplicable

/-- Decide the applicability of several rules and report it. -/
def applicabilityLogged (rs : List Rule) : Logged (List Bool) :=
  rs.mapM isApplicableLogged

@[simp]
theorem value_isApplicableLogged (r : Rule) : r.isApplicableLogged.value = r.isApplicable := by
  simp [isApplicableLogged, isApplicable]

@[simp]
theorem value_applicabilityLogged (rs : List Rule) :
    (applicabilityLogged rs).value = applicability rs := by
  simp [applicabilityLogged, applicability]

end Rule

end ExistentialRules
