import ExistentialRules.Applicability
import ExistentialRules.Graph.Link
import ExistentialRules.Strata

/-!
# Analysis of a list of rules

The whole analysis: which rules can ever add anything, how the rules rely on each other, which of
them have to do with each other at all, and in which strata they can be applied.

In the result a rule is known by its number among the analyzed rules, and its origin is its number
in the list that was given.

## Main statements

* `Analysis.applicability_ofRules` and the lemmas after it: each part of the result comes from the
  parts before it, and not from the log.
-/

namespace ExistentialRules

/-- What is found out about a list of rules. -/
structure Analysis where
  /-- The configuration of the analysis. -/
  config : Config
  /-- For each given rule whether it can ever add anything. -/
  applicability : List Bool
  /-- The analyzed rules with their origins. -/
  retained : List (Nat × Rule)
  /-- The reliances between the analyzed rules. -/
  reliances : RelianceNetwork
  /-- The dependencies between the analyzed rules. -/
  dependencies : DependencyGraph
  /-- The sets of analyzed rules that reliances connect. -/
  components : List (List Nat)
  /-- The strata of the analyzed rules. -/
  strata : List Stratum
deriving DecidableEq

namespace Analysis

/-! ## §1 Reading -/

/-- The analyzed rules. -/
def rules (a : Analysis) : List Rule :=
  a.retained.map Prod.snd

/-- The origins of the analyzed rules. -/
def origins (a : Analysis) : List Nat :=
  a.retained.map Prod.fst

/-- The numbers of the given rules that were left out. -/
def dropped (a : Analysis) : List Nat :=
  (List.range a.applicability.length).filter fun index => !a.origins.contains index

/-- The rules of each stratum. -/
def stratumRules (a : Analysis) : List (List Rule) :=
  a.strata.map fun s => s.rules.filterMap fun rule => a.rules[rule]?

/-- Which strata are recursive. -/
def recursiveStrata (a : Analysis) : List Bool :=
  a.strata.map Stratum.recursive

/-- One stratum as a text: a heading, its rules and an empty line. -/
def renderStratum (a : Analysis) (number : Nat) (s : Stratum) : String :=
  Text.line ("#" ++ toString number ++ " [" ++ s.kind ++ "] " ++ Text.numbers s.rules)
    ++ Text.concat (s.rules.filterMap fun rule =>
      a.rules[rule]?.map fun r => Text.line ("  " ++ r.render))
    ++ Text.line ""

/-- The analysis as a text. -/
def render (a : Analysis) : String :=
  Text.line "" ++ Text.line ("Configuration: " ++ a.config.render)
    ++ (if a.dropped.isEmpty then
        ""
      else
        Text.line ("Dropped inapplicable input rules: " ++ Text.numbers a.dropped))
    ++ a.reliances.render
    ++ Text.table "Components" (a.components.zipIdx.map fun (component, index) =>
      Text.line ("#" ++ toString (index + 1) ++ " " ++ Text.numbers component))
    ++ Text.table "Stratum" (a.strata.zipIdx.map fun (s, index) =>
      a.renderStratum (index + 1) s)

/-! ## §2 The analysis -/

/-- The rules to be analyzed, with their numbers: all of them, or those that can ever add
anything. -/
def retain (config : Config) (applicability : List Bool) (rules : List Rule) : List (Nat × Rule) :=
  (rules.zipIdx.zip applicability).filterMap fun ((r, index), applicable) =>
    if applicable || !config.dropInapplicable then some (index, r) else none

/-- The rules not to be analyzed, with their numbers. -/
def leaveOut (config : Config) (applicability : List Bool) (rules : List Rule) :
    List (Nat × Rule) :=
  (rules.zipIdx.zip applicability).filterMap fun ((r, index), applicable) =>
    if applicable || !config.dropInapplicable then none else some (index, r)

/-- The graph in which every reliance, whatever its polarity, links two rules. -/
def linkGraph (N : RelianceNetwork) : LinkGraph Nat :=
  N.edges.foldl (fun g e => g.addLink e.source e.target)
    ((List.range N.ruleCount).foldl LinkGraph.addNode .empty)

/-- Analyze a list of rules and report how. -/
def ofRulesLogged (rules : List Rule) (config : Config) : Logged Analysis := do
  let applicability ← Rule.applicabilityLogged rules
  let retained := retain config applicability rules
  (leaveOut config applicability rules).forM fun (index, r) =>
    Logged.tell (.ruleDropped index r)
  Logged.tell (.applicabilityDecided (applicability.count true) rules.length retained.length)
  let reliances ← RelianceNetwork.ofRulesLogged (retained.map Prod.snd) config
  let components := (linkGraph reliances).components
  let dependencies := DependencyGraph.ofReliances reliances
  let strata := dependencies.strata
  Logged.tell (.stratified retained.length strata.length components.length)
  return { config, applicability, retained, reliances, dependencies, components, strata }

/-- Analyze a list of rules. -/
def ofRules (rules : List Rule) (config : Config) : Analysis :=
  (ofRulesLogged rules config).value

/-! ## §3 The parts of the result -/

variable (rules : List Rule) (config : Config)

@[simp]
theorem config_ofRules : (ofRules rules config).config = config :=
  rfl

@[simp]
theorem applicability_ofRules :
    (ofRules rules config).applicability = Rule.applicability rules := by
  simp [ofRules, ofRulesLogged]

@[simp]
theorem retained_ofRules :
    (ofRules rules config).retained = retain config (Rule.applicability rules) rules := by
  simp [ofRules, ofRulesLogged]

@[simp]
theorem reliances_ofRules :
    (ofRules rules config).reliances =
      RelianceNetwork.ofRules (ofRules rules config).rules config := by
  simp [ofRules, ofRulesLogged, RelianceNetwork.ofRules, Analysis.rules]

@[simp]
theorem dependencies_ofRules :
    (ofRules rules config).dependencies = .ofReliances (ofRules rules config).reliances :=
  rfl

@[simp]
theorem components_ofRules :
    (ofRules rules config).components = (linkGraph (ofRules rules config).reliances).components :=
  rfl

@[simp]
theorem strata_ofRules :
    (ofRules rules config).strata = (ofRules rules config).dependencies.strata :=
  rfl

end Analysis

end ExistentialRules
