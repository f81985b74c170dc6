import ExistentialRules.Place

/-!
# Rule indexes

What the comparison of two rules asks for again and again, worked out once for each rule: the
fingerprints of its literals, its existential and frontier variables, and where each variable
stands.

A fingerprint stands for a signature in the quick test whether two rules have literals of a common
signature. The test is sound for any fingerprint that depends on the signature only: rules without a
common fingerprint have no common signature.
-/

namespace ExistentialRules

/-! ## §1 Fingerprints -/

/-- What stands for a signature in a quick comparison. -/
abbrev Fingerprint := String

/-- The fingerprint in use: the signature's text, which tells any two signatures apart. -/
def Signature.fingerprint (s : Signature) : Fingerprint :=
  s.render

/-! ## §2 Occurrence tables -/

/-- For each variable that was met the places at which it stands, the variables in ascending
order. -/
abbrev OccurrenceTable := List (Variable × List ArgumentPlace)

namespace OccurrenceTable

/-- Enter a place last among those of the variable that stands there. A term that is not a variable
is not entered. -/
def record (table : OccurrenceTable) (entry : ArgumentPlace × Term) : OccurrenceTable :=
  match entry.2.toVariable? with
  | some v => Ascending.alter v (fun places => places.getD [] ++ [entry.1]) table
  | none => table

/-- The table of a rule, which is read once from its first place to its last. -/
def ofRule (r : Rule) : OccurrenceTable :=
  r.places.foldl record []

end OccurrenceTable

/-! ## §3 Indexes -/

/-- A rule with what is known about it. -/
structure RuleIndex where
  /-- The rule. -/
  rule : Rule
  /-- The fingerprints of the body's literals, in order. -/
  bodyPrints : List Fingerprint
  /-- The fingerprints of the head's literals, in order. -/
  headPrints : List Fingerprint
  /-- The universal variables that body and head share. -/
  frontier : List Variable
  /-- The existential variables. -/
  existentials : List Variable
  /-- For each variable of the rule the places at which it stands. -/
  occurrenceTable : OccurrenceTable
deriving DecidableEq

namespace RuleIndex

/-- The index of a rule, with a fingerprint of one's choice. -/
def ofRuleWith (print : Signature → Fingerprint) (r : Rule) : RuleIndex where
  rule := r
  bodyPrints := r.body.map fun l => print l.signature
  headPrints := r.head.map fun l => print l.signature
  frontier := r.frontier
  existentials := r.existentials
  occurrenceTable := .ofRule r

/-- The index of a rule. -/
def ofRule (r : Rule) : RuleIndex :=
  ofRuleWith Signature.fingerprint r

/-- Whether a variable is one of the rule's existential variables. -/
def isExistential (x : RuleIndex) (v : Variable) : Bool :=
  x.existentials.contains v

/-- The places at which a variable stands, in order; none if it is not a variable of the rule. -/
def occurrences (x : RuleIndex) (v : Variable) : List ArgumentPlace :=
  (x.occurrenceTable.lookup v).getD []

/-- The numbers of the literals of one side in which a variable stands. -/
def literalsWith (x : RuleIndex) (side : Side) (v : Variable) : List Nat :=
  Ascending.ofList
    (((x.occurrences v).filter fun p => p.literal.side = side).map fun p => p.literal.index)

/-- The numbers of the body literals in which a variable stands. -/
def bodyLiteralsWith (x : RuleIndex) (v : Variable) : List Nat :=
  x.literalsWith .body v

/-- The numbers of the head literals in which a variable stands. -/
def headLiteralsWith (x : RuleIndex) (v : Variable) : List Nat :=
  x.literalsWith .head v

/-- Whether a head literal of the first rule may have the signature of a body literal of the
second. -/
def feeds (x y : RuleIndex) : Bool :=
  x.headPrints.any y.bodyPrints.contains

/-- Whether the heads of two rules may have literals of one signature. -/
def overlaps (x y : RuleIndex) : Bool :=
  x.headPrints.any y.headPrints.contains

/-- The index as a text: the rule, its frontier, its existential variables and the places of each
variable, on lines of their own. -/
def render (x : RuleIndex) : String :=
  Text.line ("Rule: " ++ x.rule.render)
    ++ Text.line ("  frontier:     " ++ Text.bracketed (x.frontier.map Variable.render))
    ++ Text.line ("  existentials: " ++ Text.bracketed (x.existentials.map Variable.render))
    ++ Text.line "  occurrences:"
    ++ Text.concat (x.occurrenceTable.map fun (v, places) =>
      Text.line ("    " ++ v.render ++ ": " ++ Text.bracketed (places.map ArgumentPlace.render)))

end RuleIndex

end ExistentialRules
