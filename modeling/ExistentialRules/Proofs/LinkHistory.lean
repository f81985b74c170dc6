import ExistentialRules.Proofs.LinkComponents

/-!
# Graphs built link by link

Every link graph comes from the empty one by adding nodes and links. What is known about it can be
said in terms of these changes: its nodes are those that were added or linked, and its links are
those that were added, in both directions. So the nodes reachable from a node are those to which a
walk along added links leads, and the components are the classes of nodes that such walks join. The
order of the changes makes no difference.

A walk has at least one link. The node from which it starts is therefore reachable only if it has a
link at all, and then a walk there and back reaches it.

## Main definitions

* `LinkGraph.Change`, `LinkGraph.ofChanges`: one change, and the graph that a list of changes makes;
* `LinkGraph.Links`, `LinkGraph.Registers`: the links that changes add, and the nodes that they make
  known.

## Main statements

* `LinkGraph.symmetric_ofChanges`, `LinkGraph.mem_nodes_ofChanges`,
  `LinkGraph.mem_neighbours_ofChanges`: what the changes make;
* `LinkGraph.reachable_exact`: what is reachable after them;
* `LinkGraph.components_canonical`: which components there are after them.
-/

namespace ExistentialRules.LinkGraph

open Relation Std

variable {α : Type}

/-! ## §1 Changes -/

/-- One change of a link graph. -/
inductive Change (α : Type) where
  /-- Add a node. -/
  | node (a : α)
  /-- Link two nodes. -/
  | link (a b : α)
deriving DecidableEq

/-- The graph after a change. -/
def after [Ord α] (g : LinkGraph α) : Change α → LinkGraph α
  | .node a => g.addNode a
  | .link a b => g.addLink a b

/-- The graph that the changes make of the empty one, in order. -/
def ofChanges [Ord α] (changes : List (Change α)) : LinkGraph α :=
  changes.foldl after empty

/-- The changes link the two nodes, the one with the other or the other with the one. -/
def Links (changes : List (Change α)) (a b : α) : Prop :=
  .link a b ∈ changes ∨ .link b a ∈ changes

instance (changes : List (Change α)) : Symm (Links changes) :=
  ⟨fun _ _ => Or.symm⟩

instance [DecidableEq α] (changes : List (Change α)) (a b : α) : Decidable (Links changes a b) :=
  inferInstanceAs (Decidable (_ ∨ _))

/-- The changes make the node known: they add it, or they link it with some node. -/
def Registers (changes : List (Change α)) (a : α) : Prop :=
  .node a ∈ changes ∨ ∃ b, Links changes a b

theorem links_append_singleton {changes : List (Change α)} {x : Change α} {a b : α} :
    Links (changes ++ [x]) a b ↔ Links changes a b ∨ x = .link a b ∨ x = .link b a := by
  simp only [Links, List.mem_append, List.mem_singleton, eq_comm (a := x)]
  exact or_or_or_comm

theorem ofChanges_append_singleton [Ord α] (changes : List (Change α)) (x : Change α) :
    ofChanges (changes ++ [x]) = (ofChanges changes).after x := by
  simp [ofChanges]

/-! ## §2 What the changes make -/

section Built

variable [Ord α] [TransOrd α] [LawfulEqOrd α] [DecidableEq α]

theorem Symmetric.after {g : LinkGraph α} (hg : g.Symmetric) (x : Change α) :
    (g.after x).Symmetric := by
  cases x with
  | node a => exact hg.addNode a
  | link a b => exact hg.addLink a b

theorem symmetric_ofChanges (changes : List (Change α)) : (ofChanges changes).Symmetric := by
  induction changes using List.reverseRecOn with
  | nil => exact symmetric_empty
  | append_singleton changes x ih =>
    rw [ofChanges_append_singleton]
    exact ih.after x

/-- A node has as neighbours the nodes that were linked with it. -/
theorem mem_neighbours_ofChanges (changes : List (Change α)) {a b : α} :
    b ∈ (ofChanges changes).neighbours a ↔ Links changes a b := by
  -- By induction on the changes, the last one at the end.
  induction changes using List.reverseRecOn with
  | nil => simp [ofChanges, empty, neighbours, Links]
  | append_singleton changes x ih =>
    have hstrict := (symmetric_ofChanges changes).strict
    rw [ofChanges_append_singleton, links_append_singleton, ← ih]
    cases x with
    | node c => simp [after, neighbours_addNode hstrict]
    | link c d => simp [after, mem_neighbours_addLink hstrict, eq_comm, and_comm]

omit [TransOrd α] [DecidableEq α] in
/-- The nodes are those that were added and those that were linked. -/
theorem mem_nodes_ofChanges (changes : List (Change α)) {a : α} :
    a ∈ (ofChanges changes).nodes ↔ Registers changes a := by
  unfold Registers
  induction changes using List.reverseRecOn with
  | nil => simp [ofChanges, empty, nodes, Links]
  | append_singleton changes x ih =>
    simp only [ofChanges_append_singleton, links_append_singleton, exists_or, List.mem_append,
      List.mem_singleton]
    -- What was there before, and what the last change brings.
    rw [or_or_or_comm, ← ih]
    cases x with
    | node c => simp [after, nodes_addNode, or_comm, eq_comm]
    | link c d => simp [after, mem_nodes_addLink, eq_comm]

end Built

/-! ## §3 Reachable nodes -/

/-- After every list of changes, the nodes reachable from a node are those to which a walk of one or
more added links leads, in whatever direction the links were added. They are listed once each. So
nothing is reachable from an unknown node or from a node without links, a node with a link is
reachable from itself, and of two nodes each is reachable from the other or neither is. -/
theorem reachable_exact [Ord α] [TransOrd α] [LawfulEqOrd α] [DecidableEq α]
    (changes : List (Change α)) (a : α) :
    let g := ofChanges changes
    (∀ b, b ∈ g.reachable a ↔ TransGen (Links changes) a b) ∧
    (g.reachable a).Nodup ∧
    (g.contains a = false → g.reachable a = []) ∧
    ((∀ b, ¬ Links changes a b) → g.reachable a = []) ∧
    (∀ b, Links changes a b → a ∈ g.reachable a) ∧
    ∀ b, b ∈ g.reachable a ↔ a ∈ g.reachable b := by
  have hreachable : ∀ a b, b ∈ (ofChanges changes).reachable a ↔ TransGen (Links changes) a b := by
    intro a b
    rw [mem_reachable (symmetric_ofChanges changes)]
    simp only [mem_neighbours_ofChanges]
  -- Without a link there is no walk of one or more links.
  have hisolated : (∀ b, ¬ Links changes a b) → (ofChanges changes).reachable a = [] := by
    intro hnone
    apply reachable_eq_nil
    rw [List.eq_nil_iff_forall_not_mem]
    exact fun b hb => hnone b ((mem_neighbours_ofChanges changes).1 hb)
  dsimp only
  refine ⟨hreachable a, (Ascending.strict_ofList _).nodup, fun hunknown => ?_, hisolated,
    fun b hab => ?_, fun b => ?_⟩
  · apply hisolated
    intro b hab
    have hnode := (mem_nodes_ofChanges changes).2 (Or.inr ⟨b, hab⟩)
    rw [← contains_iff_mem_nodes, hunknown] at hnode
    cases hnode
  · rw [hreachable]
    -- There and back again.
    exact .tail (.single hab) (symm hab)
  · rw [hreachable, hreachable]
    exact Symm.iff a b

/-- A path of three nodes, a node that is linked with itself and one without links. -/
def pathLoopAndPoint : List (Change Nat) :=
  [.link 1 2, .node 7, .link 3 2, .link 5 5]

theorem reachable_exact_pathLoopAndPoint :
    (∀ b, b ∈ (ofChanges pathLoopAndPoint).reachable 1 ↔
      TransGen (Links pathLoopAndPoint) 1 b) ∧
    (∀ b, b ∈ (ofChanges pathLoopAndPoint).reachable 1 ↔
      1 ∈ (ofChanges pathLoopAndPoint).reachable b) ∧
    (ofChanges pathLoopAndPoint).reachable 1 = [1, 2, 3] ∧
    (ofChanges pathLoopAndPoint).reachable 5 = [5] ∧
    (ofChanges pathLoopAndPoint).reachable 7 = [] := by
  have h := reachable_exact pathLoopAndPoint 1
  exact ⟨h.1, h.2.2.2.2.2, by decide, by decide, by decide⟩

/-! ## §4 Components -/

theorem connected_ofChanges [Ord α] [TransOrd α] [LawfulEqOrd α] [DecidableEq α]
    (changes : List (Change α)) {a b : α} :
    (ofChanges changes).Connected a b ↔ a = b ∨ TransGen (Links changes) a b := by
  rw [eq_comm, ← reflTransGen_iff_eq_or_transGen]
  simp only [Connected, mem_neighbours_ofChanges]

/-- After every list of changes, the components list the nodes that the changes make known, each in
one component and once there. Two nodes are in one component exactly if they are the same or a path
of added links joins them. The components are ascending, and they go by their smallest nodes. So two
lists of changes that make the same nodes known and add the same links have the same components. -/
theorem components_canonical [Ord α] [TransOrd α] [LawfulEqOrd α] [DecidableEq α]
    (changes : List (Change α)) :
    let g := ofChanges changes
    g.components.flatten.Nodup ∧
    (∀ a, a ∈ g.components.flatten ↔ Registers changes a) ∧
    (∀ a b, Registers changes a →
      ((∃ c ∈ g.components, a ∈ c ∧ b ∈ c) ↔ a = b ∨ TransGen (Links changes) a b)) ∧
    (∀ c ∈ g.components, c ≠ [] ∧ Ascending.Strict c) ∧
    (g.components.Pairwise fun c d => ∃ a ∈ c, ∀ b ∈ d, compare a b = .lt) ∧
    ∀ changes', (∀ a, Registers changes' a ↔ Registers changes a) →
      (∀ a b, Links changes' a b ↔ Links changes a b) →
      (ofChanges changes').components = g.components := by
  have hg := symmetric_ofChanges changes
  have hperm := perm_flatten_components hg
  dsimp only
  refine ⟨hperm.nodup_iff.2 hg.strict.nodup, fun a => ?_, fun a b ha => ?_, fun c hc => ?_,
    pairwise_smaller_components hg, fun changes' hnodes hlinks => ?_⟩
  · rw [hperm.mem_iff, mem_nodes_ofChanges]
  · rw [exists_component_iff hg, mem_nodes_ofChanges, connected_ofChanges]
    exact and_iff_right ha
  · exact ⟨ne_nil_of_mem_components hg hc, ((mem_components hg).1 hc).1⟩
  -- The components only depend on the nodes and the links, and these are the same.
  · apply components_congr (symmetric_ofChanges changes') hg
    · intro a
      rw [mem_nodes_ofChanges, mem_nodes_ofChanges]
      exact hnodes a
    · intro a b
      rw [mem_neighbours_ofChanges, mem_neighbours_ofChanges]
      exact hlinks a b

/-- The same changes the other way round, after a node that one of the links would add anyway. -/
theorem components_canonical_pathLoopAndPoint :
    (ofChanges pathLoopAndPoint).components = [[1, 2, 3], [5], [7]] ∧
    (ofChanges pathLoopAndPoint).components.flatten.Nodup ∧
    ((∃ c ∈ (ofChanges pathLoopAndPoint).components, 1 ∈ c ∧ 3 ∈ c) ↔
      1 = 3 ∨ TransGen (Links pathLoopAndPoint) 1 3) ∧
    (ofChanges (.node 5 :: pathLoopAndPoint.reverse)).components =
      (ofChanges pathLoopAndPoint).components := by
  have h := components_canonical pathLoopAndPoint
  have hlinks : ∀ a b, Links (.node 5 :: pathLoopAndPoint.reverse) a b ↔
      Links pathLoopAndPoint a b := by
    intro a b
    simp [Links]
  have hlinked : Links pathLoopAndPoint 5 5 := by decide
  have hnodes : ∀ a, Registers (.node 5 :: pathLoopAndPoint.reverse) a ↔
      Registers pathLoopAndPoint a := by
    intro a
    by_cases ha : a = 5
    · exact iff_of_true (ha ▸ Or.inl List.mem_cons_self) (ha ▸ Or.inr ⟨5, hlinked⟩)
    · simp [Registers, hlinks, ha]
  exact ⟨by decide, h.1, h.2.2.1 1 3 (Or.inr ⟨2, by decide⟩), h.2.2.2.2.2 _ hnodes hlinks⟩

end ExistentialRules.LinkGraph
