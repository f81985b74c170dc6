import ExistentialRules.Analysis

/-!
# A sample rule set

Eight rules about persons, parents and students, and a run of the analysis on them that reports all
its results.

The rules are written with a short notation for terms: `?X` is a universal variable, `!Y` an
existential one, and anything else a constant.
-/

namespace ExistentialRules.Sample

/-! ## §1 Short notation -/

/-- Read a term. -/
def term (text : String) : Term :=
  match text.toList with
  | '?' :: name => .universal (String.ofList name)
  | '!' :: name => .existential (String.ofList name)
  | _ => .constant text

/-- A literal whose arguments are read. -/
def literal (predicate : String) (arguments : List String) : Literal :=
  ⟨predicate, arguments.map term⟩

/-! ## §2 The rules -/

/-- Body and head of each rule. -/
def ruleLiterals : List (List Literal × List Literal) :=
  [ ([literal "student" ["?X"]], [literal "person" ["?X"]]),
    ([literal "person" ["?X"]], [literal "hasParent" ["?X", "!Y"]]),
    ([literal "hasParent" ["?X", "?Y"]], [literal "person" ["?Y"]]),
    ([literal "hasParent" ["?X", "?Y"]], [literal "ancestor" ["?X", "?Y"]]),
    ([literal "ancestor" ["?X", "?Y"], literal "ancestor" ["?Y", "?Z"]],
      [literal "ancestor" ["?X", "?Z"]]),
    ([literal "selfParented" ["?X"]], [literal "hasParent" ["?X", "?X"]]),
    ([literal "person" ["?X"], literal "student" ["?X"]], [literal "student" ["?X"]]),
    ([literal "enrolled" ["?X", "course"]], [literal "student" ["?X"]]) ]

/-- The rules, unless one of them is ill formed. -/
def rules : Except RuleError (List Rule) :=
  ruleLiterals.mapM fun (body, head) => Rule.ofLiterals body head

/-! ## §3 The run -/

/-- Analyze rules in the default configuration and report the rules and all results. -/
def report (rules : List Rule) : Logged Unit := do
  Logged.tell (.note ("Loaded built-in rule set (rules=" ++ toString rules.length ++ ")"))
  rules.zipIdx.forM fun (r, index) =>
    Logged.tell (.note ("  [" ++ toString index ++ "] " ++ r.render))
  Logged.tell (.note ("Configuration: " ++ Config.default.render))
  let a ← Analysis.ofRulesLogged rules .default
  Logged.tell (.note ("Dependency Graph:" ++ a.dependencies.render))
  Logged.tell (.note
    ("Stratification (" ++ toString a.strata.length ++ " strata, "
      ++ toString (a.recursiveStrata.count true) ++ " recursive, "
      ++ toString a.components.length ++ " components):" ++ a.render))

/-- Analyze the sample rules; the error is an ill-formed rule among them. -/
def run : Except RuleError (Logged Unit) :=
  rules.map report

end ExistentialRules.Sample
