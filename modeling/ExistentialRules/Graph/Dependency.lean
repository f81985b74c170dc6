import ExistentialRules.Reliance.Network

/-!
# Dependency graphs

A rule depends on the rules whose application can bring about its own: its sources among the
positive reliances. Negative reliances put no rule before another.
-/

namespace ExistentialRules

/-- For each rule, by its number, the rules that it depends on. -/
structure DependencyGraph where
  /-- The dependencies of each rule, in ascending order. -/
  dependencies : List (List Nat)
deriving DecidableEq

namespace DependencyGraph

/-- The number of rules. -/
def ruleCount (g : DependencyGraph) : Nat :=
  g.dependencies.length

/-- The rules that a rule depends on, if there is a rule of this number. -/
def dependenciesOf? (g : DependencyGraph) (rule : Nat) : Option (List Nat) :=
  g.dependencies[rule]?

/-- The rules that a rule depends on. -/
def dependenciesOf (g : DependencyGraph) (rule : Nat) : List Nat :=
  (g.dependenciesOf? rule).getD []

/-- The rules that depend on a rule, in ascending order. -/
def dependentsOf (g : DependencyGraph) (rule : Nat) : List Nat :=
  (List.range g.ruleCount).filter fun other => (g.dependenciesOf other).contains rule

/-- The dependencies that follow from the positive reliances. -/
def ofReliances (N : RelianceNetwork) : DependencyGraph where
  dependencies := (List.range N.ruleCount).map fun rule =>
    ((N.ofPolarity .positive).filter fun e => e.target = rule).map RelianceEdge.source

/-- The dependencies as a table: a row for each rule. -/
def render (g : DependencyGraph) : String :=
  Text.table "Dependency Graph" <|
    g.dependencies.zipIdx.map fun (dependencies, rule) =>
      Text.line ("Rule " ++ toString rule ++ ": " ++ Text.numbers dependencies)

end DependencyGraph

end ExistentialRules
