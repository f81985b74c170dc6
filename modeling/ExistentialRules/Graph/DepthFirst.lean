/-!
# Depth-first walks

A walk through a directed graph, given by the list of successors of each node. It notes which nodes
it has seen and in which order it has finished them: a node is finished when all its successors are.

Walks go on from where earlier ones left off, so that one can start from several nodes in turn.
-/

namespace ExistentialRules

universe u

/-- How far a walk has come. -/
structure Walk (α : Type u) where
  /-- The nodes seen, the latest first. -/
  seen : List α
  /-- The nodes finished, the latest first. -/
  finished : List α

namespace Walk

variable {α : Type u}

/-- The walk that has not begun. -/
def start : Walk α :=
  ⟨[], []⟩

/-- Walk on from a node, if it is new, through its successors. The first argument bounds the depth;
the number of nodes of the graph is enough, for no node is entered twice. -/
def visit [DecidableEq α] (next : α → List α) : Nat → Walk α → α → Walk α
  | 0, w, _ => w
  | depth + 1, w, a =>
    if a ∈ w.seen then
      w
    else
      let w' := (next a).foldl (visit next depth) { w with seen := a :: w.seen }
      { w' with finished := a :: w'.finished }

end Walk

end ExistentialRules
