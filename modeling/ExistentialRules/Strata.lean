import ExistentialRules.Graph.DepthFirst
import ExistentialRules.Graph.Dependency

/-!
# Strata

Rules that depend on each other in a circle have to be applied together until nothing new comes of
it; other rules can be applied in turn. This module puts the rules of a dependency graph into
strata, to be applied one after the other, each after all that it depends on.

First the strongly connected components are found by two depth-first walks: one along the
dependencies, which gives an order of finishing, and one against them, which starts from the rules
in the reverse of this order and collects one component from each start. Then the components are
taken in rounds. Each round takes all components that depend on no other component still there. The
rules among them that depend on nothing in their own component go into one common stratum; each
recursive component is a stratum by itself.
-/

namespace ExistentialRules

/-- Rules to be applied together. -/
structure Stratum where
  /-- The numbers of the rules in ascending order. -/
  rules : List Nat
  /-- Whether the rules have to be applied again and again until nothing new comes of it. -/
  recursive : Bool
deriving DecidableEq

/-- The text `[recursive]` or `[non-recursive]`, without the brackets. -/
def Stratum.kind (s : Stratum) : String :=
  if s.recursive then "recursive" else "non-recursive"

namespace DependencyGraph

/-! ## §1 Strongly connected components -/

/-- The rules in the reverse of the order in which a walk along the dependencies finishes them. -/
def finishingOrder (g : DependencyGraph) : List Nat :=
  ((List.range g.ruleCount).foldl (Walk.visit g.dependenciesOf g.ruleCount) .start).finished

/-- Collect, from each rule that was not seen before, the rules that a walk against the dependencies
comes to. -/
def collectFrom (g : DependencyGraph) (seen : List Nat) : List Nat → List (List Nat)
  | [] => []
  | rule :: rules =>
    if rule ∈ seen then
      g.collectFrom seen rules
    else
      let w := Walk.visit g.dependentsOf g.ruleCount ⟨seen, []⟩ rule
      Ascending.ofList w.finished :: g.collectFrom w.seen rules

/-- The strongly connected components, each in ascending order. -/
def stronglyConnected (g : DependencyGraph) : List (List Nat) :=
  g.collectFrom [] g.finishingOrder

/-- A component as a stratum; it is recursive unless it is one rule that does not depend on
itself. -/
def componentStratum (g : DependencyGraph) (component : List Nat) : Stratum where
  rules := component
  recursive :=
    match component with
    | [rule] => (g.dependenciesOf rule).contains rule
    | _ => true

/-! ## §2 Rounds -/

/-- Whether a component depends on no other of the components still there. -/
def isReady (g : DependencyGraph) (pending : List Stratum) (s : Stratum) : Bool :=
  !s.rules.any fun rule =>
    (g.dependenciesOf rule).any fun d =>
      pending.any (fun t => t.rules.contains d) && !s.rules.contains d

/-- The strata of one round: the rules of the components that are not recursive together, then each
recursive component by itself, in the order of their rules. -/
def round (ready : List Stratum) : List Stratum :=
  let flat := Ascending.ofList ((ready.filter fun s => !s.recursive).flatMap Stratum.rules)
  let recursive := Ascending.ofList ((ready.filter fun s => s.recursive).map Stratum.rules)
  (if flat.isEmpty then [] else [⟨flat, false⟩]) ++ recursive.map fun rules => ⟨rules, true⟩

/-- Take the components in rounds. As each round takes at least one of them, there are not more
rounds than components. -/
def rounds (g : DependencyGraph) : Nat → List Stratum → List Stratum
  | 0, _ => []
  | n + 1, pending =>
    round (pending.filter (g.isReady pending)) ++
      g.rounds n (pending.filter fun s => !g.isReady pending s)

/-- The strata in the order in which they are to be applied. -/
def strata (g : DependencyGraph) : List Stratum :=
  let components := g.stronglyConnected.map g.componentStratum
  g.rounds components.length components

end DependencyGraph

end ExistentialRules
