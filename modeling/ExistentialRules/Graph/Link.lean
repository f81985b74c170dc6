import ExistentialRules.Ascending
import ExistentialRules.Graph.DepthFirst
import ExistentialRules.Text

/-!
# Link graphs

Undirected graphs over any ordered type of nodes. A node may be linked to itself.

Nodes and neighbours are kept in ascending order, so that a graph does not remember the order in
which it was built.
-/

namespace ExistentialRules

universe u

/-- An undirected graph: each node with its neighbours. -/
structure LinkGraph (α : Type u) where
  /-- The nodes and the neighbours of each. -/
  adjacency : List (α × List α)
deriving DecidableEq

namespace LinkGraph

variable {α : Type u} [Ord α]

/-! ## §1 Building -/

/-- The graph without nodes. -/
def empty : LinkGraph α :=
  ⟨[]⟩

/-- Add a node; a node already there keeps its links. -/
def addNode (g : LinkGraph α) (a : α) : LinkGraph α :=
  ⟨Ascending.alter a (fun neighbours => neighbours.getD []) g.adjacency⟩

/-- Add a neighbour to a node, which is added too if it is new. -/
def addNeighbour (g : LinkGraph α) (a b : α) : LinkGraph α :=
  ⟨Ascending.alter a (fun neighbours => Ascending.insert b (neighbours.getD [])) g.adjacency⟩

/-- Link two nodes, which are added too if they are new. -/
def addLink (g : LinkGraph α) (a b : α) : LinkGraph α :=
  (g.addNeighbour a b).addNeighbour b a

/-! ## §2 Reading -/

/-- The nodes in ascending order. -/
def nodes (g : LinkGraph α) : List α :=
  g.adjacency.map Prod.fst

/-- The number of nodes. -/
def size (g : LinkGraph α) : Nat :=
  g.adjacency.length

/-- The graph as a text: each node with its neighbours, on a line of its own. -/
def render (text : α → String) (g : LinkGraph α) : String :=
  Text.concat (g.adjacency.map fun (a, neighbours) =>
    Text.line (text a ++ ": " ++ Text.bracketed (neighbours.map text)))

variable [DecidableEq α]

/-- Whether there is a certain node. -/
def contains (g : LinkGraph α) (a : α) : Bool :=
  (g.adjacency.lookup a).isSome

/-- The neighbours of a node; an unknown node has none. -/
def neighbours (g : LinkGraph α) (a : α) : List α :=
  (g.adjacency.lookup a).getD []

/-- The nodes to which a path of one or more links leads. -/
def reachable (g : LinkGraph α) (a : α) : List α :=
  Ascending.ofList ((Walk.start.visit g.neighbours g.size a).seen.flatMap g.neighbours)

/-! ## §3 Components -/

/-- The components of those of the given nodes that belong to no earlier one. -/
def componentsFrom (g : LinkGraph α) (assigned : List α) : List α → List (List α)
  | [] => []
  | a :: as =>
    if assigned.contains a then
      g.componentsFrom assigned as
    else
      let component := Ascending.insert a (g.reachable a)
      component :: g.componentsFrom (component ++ assigned) as

/-- The connected components, each in ascending order, by their smallest nodes. -/
def components (g : LinkGraph α) : List (List α) :=
  g.componentsFrom [] g.nodes

end LinkGraph

end ExistentialRules
