import ExistentialRules.Ascending
import ExistentialRules.Literal

/-!
# Existential rules

An existential rule `h₁, …, hₘ :- b₁, …, bₙ .` says: whenever the body holds for some values of its
universal variables, the head holds for these values and for some values of its existential
variables.

`Rule.ofLiterals` accepts the well-formed rules and says of any other what is wrong with it. The
four conditions are checked in a fixed order, so that a rule with several faults has one error.

## Main statements

* `Rule.fault?_eq_none_iff`: the check finds a fault exactly if the rule is not well formed.
-/

namespace ExistentialRules

/-! ## §1 Rules and their variables -/

/-- A rule: its body and its head, both in the order written. -/
structure Rule where
  /-- The literals that must hold. -/
  body : List Literal
  /-- The literals that then hold. -/
  head : List Literal
deriving DecidableEq

namespace Rule

/-- The variables of the body as they are met, each as often as it occurs. -/
def bodyVariables (r : Rule) : List Variable :=
  r.body.flatMap Literal.occurringVariables

/-- The variables of the head as they are met, each as often as it occurs. -/
def headVariables (r : Rule) : List Variable :=
  r.head.flatMap Literal.occurringVariables

/-- The set of all variables. -/
def allVariables (r : Rule) : List Variable :=
  Ascending.ofList (r.bodyVariables ++ r.headVariables)

/-- The set of the body's variables, which in a well-formed rule are all universal. -/
def universals (r : Rule) : List Variable :=
  Ascending.ofList r.bodyVariables

/-- The set of the head's existential variables. -/
def existentials (r : Rule) : List Variable :=
  Ascending.ofList (r.headVariables.filter Variable.isExistential)

/-- The set of universal variables that body and head share. -/
def frontier (r : Rule) : List Variable :=
  Ascending.ofList (r.headVariables.filter fun v => v.isUniversal && r.bodyVariables.contains v)

/-- The text `h1, h2 :- b1, b2 .`, with nothing before the full stop for an empty body. -/
def render (r : Rule) : String :=
  let head := Literal.renderAll r.head
  if r.body.isEmpty then
    head ++ " :- ."
  else
    head ++ " :- " ++ Literal.renderAll r.body ++ " ."

end Rule

/-! ## §2 Well-formedness -/

/-- Why two lists of literals do not make a rule. Each error carries what was to be the rule. -/
inductive RuleError where
  /-- The head is empty. -/
  | emptyHead (rule : Rule)
  /-- An existential variable occurs in the body. -/
  | bodyExistential (rule : Rule) (v : Variable)
  /-- One name is quantified both ways. -/
  | bothQuantifiers (rule : Rule) (v : Variable)
  /-- A universal variable of the head does not occur in the body. -/
  | unboundHeadVariable (rule : Rule) (v : Variable)
deriving DecidableEq

/-- The wording of the errors. -/
def RuleError.message : RuleError → String
  | .emptyHead rule => "Model error: rule '" ++ rule.render ++ "' has an empty head"
  | .bodyExistential rule v =>
    "Model error: existential variable '" ++ v.render ++ "' occurs in the body of '"
      ++ rule.render ++ "'"
  | .bothQuantifiers rule v =>
    "Model error: variable name '" ++ v.name
      ++ "' is quantified both universally and existentially in '" ++ rule.render ++ "'"
  | .unboundHeadVariable rule v =>
    "Model error: universal variable '" ++ v.render ++ "' occurs in the head of '"
      ++ rule.render ++ "' but not in its body"

namespace Rule

/-- The names that the rule uses universally. -/
def universalNames (r : Rule) : List String :=
  ((r.bodyVariables ++ r.headVariables).filter Variable.isUniversal).map Variable.name

/-- The first existential variable of the body, in the order written. -/
def bodyExistential? (r : Rule) : Option Variable :=
  r.bodyVariables.find? Variable.isExistential

/-- The least existential variable of the head whose name is also used universally. -/
def ambiguous? (r : Rule) : Option Variable :=
  r.existentials.find? fun v => r.universalNames.contains v.name

/-- The least universal variable of the head that the body does not bind. -/
def unbound? (r : Rule) : Option Variable :=
  (Ascending.ofList r.headVariables).find? fun v =>
    v.isUniversal && !r.bodyVariables.contains v

/-- The first fault of a rule, if it has one. -/
def fault? (r : Rule) : Option RuleError :=
  if r.head.isEmpty then
    some (.emptyHead r)
  else
    ((r.bodyExistential?.map (.bodyExistential r)).or
      (r.ambiguous?.map (.bothQuantifiers r))).or
      (r.unbound?.map (.unboundHeadVariable r))

/-- What makes a rule well formed. -/
structure WellFormed (r : Rule) : Prop where
  /-- The head says something. -/
  head_ne_nil : r.head ≠ []
  /-- The body has no existential variable. -/
  body_universal : ∀ v ∈ r.bodyVariables, v.quantifier = .universal
  /-- No name is used with both quantifiers. -/
  quantified_once : ∀ v ∈ r.headVariables, v.quantifier = .existential →
    ∀ w ∈ r.bodyVariables ++ r.headVariables, w.quantifier = .universal → w.name ≠ v.name
  /-- The body binds the universal variables of the head. -/
  head_bound : ∀ v ∈ r.headVariables, v.quantifier = .universal → v ∈ r.bodyVariables

/-- The rule with a given body and head, if it is well formed. -/
def ofLiterals (body head : List Literal) : Except RuleError Rule :=
  match (Rule.mk body head).fault? with
  | some e => .error e
  | none => .ok ⟨body, head⟩

theorem bodyExistential?_eq_none_iff (r : Rule) :
    r.bodyExistential? = none ↔ ∀ v ∈ r.bodyVariables, v.quantifier = .universal := by
  simp only [bodyExistential?, List.find?_eq_none, Variable.isExistential, decide_eq_true_eq]
  refine forall₂_congr fun v _ => ?_
  cases v.quantifier <;> simp

theorem ambiguous?_eq_none_iff (r : Rule) :
    r.ambiguous? = none ↔ ∀ v ∈ r.headVariables, v.quantifier = .existential →
      ∀ w ∈ r.bodyVariables ++ r.headVariables, w.quantifier = .universal → w.name ≠ v.name := by
  simp only [ambiguous?, existentials, universalNames, List.find?_eq_none, Ascending.mem_ofList,
    List.mem_filter, Variable.isExistential, Variable.isUniversal, decide_eq_true_eq,
    List.contains_iff_mem, List.mem_map, and_imp, not_exists, not_and]

theorem unbound?_eq_none_iff (r : Rule) :
    r.unbound? = none ↔
      ∀ v ∈ r.headVariables, v.quantifier = .universal → v ∈ r.bodyVariables := by
  simp only [unbound?, List.find?_eq_none, Ascending.mem_ofList, Variable.isUniversal,
    Bool.and_eq_true, decide_eq_true_eq, Bool.not_eq_true', not_and, Bool.not_eq_false,
    List.contains_iff_mem]

/-- A rule has a fault exactly if it is not well formed. -/
theorem fault?_eq_none_iff (r : Rule) : r.fault? = none ↔ r.WellFormed := by
  unfold fault?
  split
  · rename_i hempty
    have hnil : r.head = [] := List.isEmpty_iff.1 hempty
    constructor
    · intro h
      cases h
    · intro h
      exact absurd hnil h.head_ne_nil
  · rename_i hhead
    have hne : r.head ≠ [] := fun h => hhead (List.isEmpty_iff.2 h)
    simp only [Option.or_eq_none_iff, Option.map_eq_none_iff, bodyExistential?_eq_none_iff,
      ambiguous?_eq_none_iff, unbound?_eq_none_iff]
    constructor
    · rintro ⟨⟨hbody, honce⟩, hbound⟩
      exact ⟨hne, hbody, honce, hbound⟩
    · intro h
      exact ⟨⟨h.body_universal, h.quantified_once⟩, h.head_bound⟩

/-! ## §3 Renaming -/

/-- Append a suffix to every variable's name. -/
def rename (suffix : String) (r : Rule) : Rule where
  body := r.body.map (Literal.mapTerms (Term.mapVariable (.var ∘ Variable.withSuffix suffix)))
  head := r.head.map (Literal.mapTerms (Term.mapVariable (.var ∘ Variable.withSuffix suffix)))

end Rule

end ExistentialRules
