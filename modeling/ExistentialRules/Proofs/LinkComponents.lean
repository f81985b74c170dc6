import ExistentialRules.Graph.Link
import ExistentialRules.Proofs.DepthFirstWalk
import ExistentialRules.Proofs.Renumbering

/-!
# Connected components

The components of a link graph are the classes of connected nodes. They are listed as ascending
lists, in ascending order, so that a graph's nodes and links determine them.

## Main definitions

* `LinkGraph.Symmetric`: the graphs that can be built;
* `LinkGraph.Connected`: the nodes that links lead to.

## Main statements

* `LinkGraph.mem_nodes_addLink`, `LinkGraph.mem_neighbours_addLink`: what building does;
* `LinkGraph.mem_reachable`: what a walk finds;
* `LinkGraph.strict_components`, `LinkGraph.mem_components`: the components;
* `LinkGraph.exists_component_iff`, `LinkGraph.perm_flatten_components`: they are a partition;
* `LinkGraph.pairwise_smaller_components`, `LinkGraph.components_congr`: their order, and what they
  depend on;
* `LinkGraph.restrict_components`: the components of a part that no link leaves.
-/

namespace ExistentialRules.LinkGraph

open Relation Std

variable {α : Type} [Ord α]

/-! ## §1 Building -/

theorem nodes_addNode (g : LinkGraph α) (a : α) :
    (g.addNode a).nodes = Ascending.insert a g.nodes :=
  Ascending.map_fst_alter a _ g.adjacency

theorem nodes_addNeighbour (g : LinkGraph α) (a b : α) :
    (g.addNeighbour a b).nodes = Ascending.insert a g.nodes :=
  Ascending.map_fst_alter a _ g.adjacency

theorem mem_nodes_addLink [LawfulEqOrd α] {g : LinkGraph α} {a b c : α} :
    c ∈ (g.addLink a b).nodes ↔ c ∈ g.nodes ∨ c = a ∨ c = b := by
  rw [addLink, nodes_addNeighbour, nodes_addNeighbour, Ascending.mem_insert, Ascending.mem_insert,
    or_comm, or_comm (a := c = a), or_assoc]

variable [DecidableEq α]

omit [Ord α] in
theorem contains_iff_mem_nodes {g : LinkGraph α} {a : α} :
    g.contains a = true ↔ a ∈ g.nodes := by
  rw [contains, Option.isSome_iff_ne_none, ne_eq, List.lookup_eq_none_iff]
  simp [nodes]

omit [Ord α] in
/-- Only a node has neighbours. -/
theorem mem_nodes_of_mem_neighbours {g : LinkGraph α} {a b : α} (h : b ∈ g.neighbours a) :
    a ∈ g.nodes := by
  rw [← contains_iff_mem_nodes]
  unfold neighbours at h
  unfold contains
  cases hentry : g.adjacency.lookup a with
  | none => simp [hentry] at h
  | some neighbours => rfl

/-- The nodes are in ascending order, and every link is listed at both of its ends. -/
structure Symmetric (g : LinkGraph α) : Prop where
  strict : Ascending.Strict g.nodes
  symm : ∀ a, ∀ b ∈ g.neighbours a, a ∈ g.neighbours b

theorem symmetric_empty : (empty : LinkGraph α).Symmetric :=
  ⟨List.Pairwise.nil, fun _ _ h => absurd h List.not_mem_nil⟩

section Building

variable [TransOrd α] [LawfulEqOrd α] {g : LinkGraph α} (hstrict : Ascending.Strict g.nodes)

include hstrict

theorem neighbours_addNode (a c : α) : (g.addNode a).neighbours c = g.neighbours c := by
  unfold neighbours addNode
  by_cases hc : c = a
  · subst hc
    rw [Ascending.lookup_alter_self c _ hstrict, Option.getD_some]
  · rw [Ascending.lookup_alter_of_ne hc]

/-- One entry is added, in one direction. -/
theorem mem_neighbours_addNeighbour {a b c d : α} :
    d ∈ (g.addNeighbour a b).neighbours c ↔ d ∈ g.neighbours c ∨ c = a ∧ d = b := by
  unfold neighbours addNeighbour
  -- Only the entry of the first node is altered.
  by_cases hc : c = a
  · subst hc
    rw [Ascending.lookup_alter_self c _ hstrict, Option.getD_some, Ascending.mem_insert]
    simp [or_comm]
  · rw [Ascending.lookup_alter_of_ne hc]
    simp [hc]

/-- A link is added in both directions. -/
theorem mem_neighbours_addLink {a b c d : α} :
    d ∈ (g.addLink a b).neighbours c ↔
      d ∈ g.neighbours c ∨ (c = a ∧ d = b) ∨ (c = b ∧ d = a) := by
  have hstrict' : Ascending.Strict (g.addNeighbour a b).nodes := by
    rw [nodes_addNeighbour]
    exact Ascending.strict_insert a hstrict
  rw [addLink, mem_neighbours_addNeighbour hstrict', mem_neighbours_addNeighbour hstrict, or_assoc]

omit hstrict

theorem Symmetric.addNode (hg : g.Symmetric) (a : α) :
    (g.addNode a).Symmetric := by
  refine ⟨?_, fun b c hc => ?_⟩
  · rw [nodes_addNode]
    exact Ascending.strict_insert a hg.strict
  · rw [neighbours_addNode hg.strict] at hc ⊢
    exact hg.symm b c hc

theorem Symmetric.addLink (hg : g.Symmetric) (a b : α) :
    (g.addLink a b).Symmetric := by
  refine ⟨?_, fun c d hd => ?_⟩
  · rw [LinkGraph.addLink, nodes_addNeighbour, nodes_addNeighbour]
    exact Ascending.strict_insert b (Ascending.strict_insert a hg.strict)
  · rw [mem_neighbours_addLink hg.strict] at hd ⊢
    rcases hd with hd | ⟨hc, hd⟩ | ⟨hc, hd⟩
    · exact Or.inl (hg.symm c d hd)
    · exact Or.inr (Or.inr ⟨hd, hc⟩)
    · exact Or.inr (Or.inl ⟨hd, hc⟩)

end Building

/-! ## §2 Connected nodes -/

/-- The second node is the first one, or links lead to it from there. -/
def Connected (g : LinkGraph α) : α → α → Prop :=
  ReflTransGen fun a b => b ∈ g.neighbours a

/-- From a node without neighbours nothing is reached, not even the node itself. -/
theorem reachable_eq_nil {g : LinkGraph α} {a : α} (h : g.neighbours a = []) :
    g.reachable a = [] := by
  unfold reachable
  cases g.size with
  | zero => rfl
  | succ depth => simp [Walk.visit, Walk.start, h, Ascending.ofList]

section Connected

variable {g : LinkGraph α} (hg : g.Symmetric) {a b : α}

include hg

/-- Paths can be walked back, since every link is listed at both of its ends. -/
theorem Connected.symm (h : g.Connected a b) : g.Connected b a := by
  -- By induction on the path: its last link, walked back, is the first one.
  induction h with
  | refl => exact .refl
  | tail _ hstep ih => exact ReflTransGen.head (hg.symm _ _ hstep) ih

theorem Connected.mem_nodes (h : g.Connected a b) (ha : a ∈ g.nodes) : b ∈ g.nodes := by
  induction h with
  | refl => exact ha
  | tail _ hstep _ => exact mem_nodes_of_mem_neighbours (hg.symm _ _ hstep)

/-- The walk collects the nodes to which a path of one or more links leads. -/
theorem mem_reachable [LawfulEqOrd α] :
    b ∈ g.reachable a ↔ TransGen (fun a b => b ∈ g.neighbours a) a b := by
  by_cases ha : a ∈ g.nodes
  · have hnext : ∀ x ∈ g.nodes.toFinset, ∀ y ∈ g.neighbours x, y ∈ g.nodes.toFinset :=
      fun x _ y hy => List.mem_toFinset.2 (mem_nodes_of_mem_neighbours (hg.symm x y hy))
    -- There are enough levels for all nodes, so that the walk is not cut short.
    have hcard : (Walk.unseen g.nodes.toFinset Walk.start).card ≤ g.size :=
      (Finset.card_le_card Finset.sdiff_subset).trans
        ((List.toFinset_card_le _).trans (List.length_map _).le)
    obtain ⟨new, h⟩ :=
      Walk.exists_explores_visit hnext g.size .start (List.mem_toFinset.2 ha) hcard
    have hseen : ∀ x, x ∈ (Walk.start.visit g.neighbours g.size a).seen ↔ g.Connected a x := by
      intro x
      rw [h.seen, h.mem_new_iff]
      simp [Walk.start, Walk.Reaches, Connected]
    simp only [reachable, Ascending.mem_ofList, List.mem_flatMap, hseen]
    exact TransGen.tail'_iff.symm
  · -- An unknown node has no neighbours, so that the walk ends where it begins.
    have hnone : ∀ x, x ∉ g.neighbours a := fun x hx => ha (mem_nodes_of_mem_neighbours hx)
    rw [reachable_eq_nil (List.eq_nil_iff_forall_not_mem.2 hnone)]
    refine iff_of_false List.not_mem_nil fun hab => ?_
    obtain ⟨x, hx, -⟩ := TransGen.head'_iff.1 hab
    exact hnone x hx

/-- The class of a node is collected. -/
theorem mem_insert_reachable [LawfulEqOrd α] :
    b ∈ Ascending.insert a (g.reachable a) ↔ g.Connected a b := by
  rw [Ascending.mem_insert, mem_reachable hg, Connected, reflTransGen_iff_eq_or_transGen]

end Connected

/-! ## §3 Components -/

/-- The list begins with a node, its smallest one, and holds all that the node is connected with. -/
structure IsClass (g : LinkGraph α) (a : α) (c : List α) : Prop where
  head : ∃ rest, c = a :: rest
  strict : Ascending.Strict c
  mem_iff : ∀ b, b ∈ c ↔ g.Connected a b

section Components

variable [TransOrd α] [LawfulEqOrd α] {g : LinkGraph α} (hg : g.Symmetric)

include hg

/-- From the first node that belongs to no earlier component, its class is collected. -/
theorem isClass_insert_reachable {earlier later assigned : List α} {a : α}
    (horder : g.nodes = earlier ++ a :: later) (hearlier : ∀ x ∈ earlier, x ∈ assigned)
    (hclosed : ∀ x ∈ assigned, ∀ y, g.Connected x y → y ∈ assigned) (ha : a ∉ assigned) :
    g.IsClass a (Ascending.insert a (g.reachable a)) := by
  have hnode : a ∈ g.nodes := by simp [horder]
  have hmem : ∀ b, b ∈ Ascending.insert a (g.reachable a) ↔ g.Connected a b :=
    fun b => mem_insert_reachable hg
  have hstrict : Ascending.Strict (Ascending.insert a (g.reachable a)) :=
    Ascending.strict_insert a (Ascending.strict_ofList _)
  refine ⟨?_, hstrict, hmem⟩
  -- No node of the class is smaller, for it would have been assigned together with this one.
  have hleast : ∀ b ∈ Ascending.insert a (g.reachable a), b = a ∨ compare a b = .lt := by
    intro b hb
    have hconnected := (hmem b).1 hb
    have hbnode := hconnected.mem_nodes hg hnode
    rw [horder, List.mem_append, List.mem_cons] at hbnode
    rcases hbnode with hb | hb | hb
    · exact absurd (hclosed b (hearlier b hb) a (hconnected.symm hg)) ha
    · exact Or.inl hb
    · have hnodes := hg.strict
      rw [horder] at hnodes
      exact Or.inr ((List.pairwise_cons.1 (List.pairwise_append.1 hnodes).2.1).1 b hb)
  have hself : a ∈ Ascending.insert a (g.reachable a) := (hmem a).2 .refl
  generalize Ascending.insert a (g.reachable a) = c at hstrict hleast hself
  cases c with
  | nil => cases hself
  | cons x rest =>
    rcases hleast x List.mem_cons_self with rfl | hlt
    · exact ⟨rest, rfl⟩
    · rcases List.mem_cons.1 hself with rfl | hrest
      · exact ⟨rest, rfl⟩
      · have hgt := (List.pairwise_cons.1 hstrict).1 a hrest
        rw [OrientedCmp.gt_of_lt hlt] at hgt
        cases hgt

/-- By induction on the nodes still to be looked at: what has been assigned is a union of classes
and contains the nodes looked at before. -/
theorem componentsFrom_spec (earlier as assigned : List α) (horder : g.nodes = earlier ++ as)
    (hearlier : ∀ x ∈ earlier, x ∈ assigned)
    (hclosed : ∀ x ∈ assigned, ∀ y, g.Connected x y → y ∈ assigned) :
    Ascending.Strict (g.componentsFrom assigned as) ∧
      (∀ c ∈ g.componentsFrom assigned as, ∃ a ∈ as, g.IsClass a c) ∧
      ∀ a ∈ as, a ∈ assigned ∨ ∃ c ∈ g.componentsFrom assigned as, a ∈ c := by
  induction as generalizing earlier assigned with
  | nil => exact ⟨List.Pairwise.nil, by simp [componentsFrom], by simp⟩
  | cons a as ih =>
    have horder' : g.nodes = (earlier ++ [a]) ++ as := by simp [horder]
    rw [componentsFrom]
    split
    · rename_i ha
      -- The node belongs to an earlier component and is passed over.
      rw [List.contains_iff_mem] at ha
      obtain ⟨hstrict, hclasses, hall⟩ := ih _ _ horder'
        (List.forall_mem_append.2 ⟨hearlier, List.forall_mem_singleton.2 ha⟩) hclosed
      refine ⟨hstrict, fun c hc => ?_, List.forall_mem_cons.2 ⟨Or.inl ha, hall⟩⟩
      obtain ⟨a', ha', hclass⟩ := hclasses c hc
      exact ⟨a', List.mem_cons_of_mem a ha', hclass⟩
    · rename_i ha
      rw [List.contains_iff_mem] at ha
      have hclass := isClass_insert_reachable hg horder hearlier hclosed ha
      dsimp only
      generalize Ascending.insert a (g.reachable a) = c at hclass
      have hself : a ∈ c := (hclass.mem_iff a).2 .refl
      have hearlier' : ∀ x ∈ earlier ++ [a], x ∈ c ++ assigned :=
        List.forall_mem_append.2 ⟨fun x hx => List.mem_append_right c (hearlier x hx),
          List.forall_mem_singleton.2 (List.mem_append_left assigned hself)⟩
      -- The new component is a class, so what was assigned is still a union of classes.
      have hclosed' : ∀ x ∈ c ++ assigned, ∀ y, g.Connected x y → y ∈ c ++ assigned := by
        intro x hx y hxy
        rcases List.mem_append.1 hx with hx | hx
        · exact List.mem_append_left _ ((hclass.mem_iff y).2 (((hclass.mem_iff x).1 hx).trans hxy))
        · exact List.mem_append_right _ (hclosed x hx y hxy)
      obtain ⟨hstrict, hclasses, hall⟩ := ih _ _ horder' hearlier' hclosed'
      refine ⟨List.pairwise_cons.2 ⟨fun d hd => ?_, hstrict⟩, List.forall_mem_cons.2
        ⟨⟨a, List.mem_cons_self, hclass⟩, fun d hd => ?_⟩, fun x hx => ?_⟩
      -- Components are compared by their smallest nodes.
      · obtain ⟨b, hb, hclass'⟩ := hclasses d hd
        obtain ⟨rest, rfl⟩ := hclass.head
        obtain ⟨rest', rfl⟩ := hclass'.head
        have hnodes := hg.strict
        rw [horder] at hnodes
        have hlt := (List.pairwise_cons.1 (List.pairwise_append.1 hnodes).2.1).1 b hb
        rw [List.compare_cons_cons, hlt, Ordering.lt_then]
      · obtain ⟨b, hb, hclass'⟩ := hclasses d hd
        exact ⟨b, List.mem_cons_of_mem a hb, hclass'⟩
      · rcases List.mem_cons.1 hx with rfl | hx
        · exact Or.inr ⟨c, List.mem_cons_self, hself⟩
        · rcases hall x hx with hx | ⟨d, hd, hx⟩
          · rcases List.mem_append.1 hx with hx | hx
            · exact Or.inr ⟨c, List.mem_cons_self, hx⟩
            · exact Or.inl hx
          · exact Or.inr ⟨d, List.mem_cons_of_mem c hd, hx⟩

theorem strict_components : Ascending.Strict g.components :=
  (componentsFrom_spec hg [] g.nodes [] rfl (by simp) (by simp)).1

/-- Two classes with a node in common are the same. -/
theorem eq_of_mem_classes {a b x : α} {c d : List α} (hc : Ascending.Strict c)
    (hd : Ascending.Strict d) (hmemc : ∀ y, y ∈ c ↔ g.Connected a y)
    (hmemd : ∀ y, y ∈ d ↔ g.Connected b y) (hxc : x ∈ c) (hxd : x ∈ d) : c = d := by
  have hax := (hmemc x).1 hxc
  have hbx := (hmemd x).1 hxd
  apply hc.ext hd
  intro y
  rw [hmemc, hmemd]
  -- From the one starting node to the other, a path leads through the common node.
  exact ⟨fun hay => (hbx.trans (hax.symm hg)).trans hay,
    fun hby => (hax.trans (hbx.symm hg)).trans hby⟩

/-- The components are the classes of connected nodes, as ascending lists. -/
theorem mem_components {c : List α} :
    c ∈ g.components ↔
      Ascending.Strict c ∧ ∃ a ∈ g.nodes, ∀ b, b ∈ c ↔ g.Connected a b := by
  obtain ⟨-, hclasses, hall⟩ :=
    componentsFrom_spec hg [] g.nodes [] rfl (by simp) (by simp)
  refine ⟨fun hc => ?_, fun h => ?_⟩
  · obtain ⟨a, ha, hclass⟩ := hclasses c hc
    exact ⟨hclass.strict, a, ha, hclass.mem_iff⟩
  · obtain ⟨hstrict, a, ha, hmem⟩ := h
    obtain ⟨d, hd, had⟩ := (hall a ha).resolve_left List.not_mem_nil
    obtain ⟨a', -, hclass⟩ := hclasses d hd
    rwa [eq_of_mem_classes hg hstrict hclass.strict hmem hclass.mem_iff ((hmem a).2 .refl) had]

/-- Two nodes are in one component exactly if they are connected. -/
theorem exists_component_iff {a b : α} :
    (∃ c ∈ g.components, a ∈ c ∧ b ∈ c) ↔ a ∈ g.nodes ∧ g.Connected a b := by
  refine ⟨fun h => ?_, fun h => ?_⟩
  · obtain ⟨c, hc, hac, hbc⟩ := h
    obtain ⟨-, x, hx, hmem⟩ := (mem_components hg).1 hc
    have hxa := (hmem a).1 hac
    exact ⟨hxa.mem_nodes hg hx, (hxa.symm hg).trans ((hmem b).1 hbc)⟩
  · obtain ⟨ha, hab⟩ := h
    obtain ⟨-, -, hall⟩ := componentsFrom_spec hg [] g.nodes [] rfl (by simp) (by simp)
    obtain ⟨c, hc, hac⟩ := (hall a ha).resolve_left List.not_mem_nil
    obtain ⟨-, x, -, hmem⟩ := (mem_components hg).1 hc
    exact ⟨c, hc, hac, (hmem b).2 (((hmem a).1 hac).trans hab)⟩

/-- Every node is in exactly one component. -/
theorem perm_flatten_components : g.components.flatten.Perm g.nodes := by
  -- Different components have no node in common, for they would be the same class.
  have hdisjoint : g.components.Pairwise List.Disjoint := by
    apply (strict_components hg).nodup.pairwise_of_forall_ne
    intro c hc d hd hne x hxc hxd
    obtain ⟨hcstrict, a, -, hmemc⟩ := (mem_components hg).1 hc
    obtain ⟨hdstrict, b, -, hmemd⟩ := (mem_components hg).1 hd
    exact hne (eq_of_mem_classes hg hcstrict hdstrict hmemc hmemd hxc hxd)
  have hnodup : g.components.flatten.Nodup :=
    List.nodup_flatten.2 ⟨fun c hc => ((mem_components hg).1 hc).1.nodup, hdisjoint⟩
  refine (List.perm_ext_iff_of_nodup hnodup hg.strict.nodup).2 fun a => ?_
  rw [List.mem_flatten]
  have ha := exists_component_iff hg (a := a) (b := a)
  simp only [and_self] at ha
  rw [ha]
  exact and_iff_left .refl

theorem ne_nil_of_mem_components {c : List α} (hc : c ∈ g.components) : c ≠ [] := by
  obtain ⟨-, a, -, hmem⟩ := (mem_components hg).1 hc
  exact List.ne_nil_of_mem ((hmem a).2 .refl)

/-- The components go by their smallest nodes: an earlier one has a node that is smaller than all
nodes of a later one. -/
theorem pairwise_smaller_components :
    g.components.Pairwise fun c d => ∃ a ∈ c, ∀ b ∈ d, compare a b = .lt := by
  refine (strict_components hg).imp_of_mem fun {c d} hc hd hlt => ?_
  obtain ⟨hcstrict, x, -, hmemc⟩ := (mem_components hg).1 hc
  obtain ⟨hdstrict, y, -, hmemd⟩ := (mem_components hg).1 hd
  obtain ⟨a, c', rfl⟩ := List.exists_cons_of_ne_nil (ne_nil_of_mem_components hg hc)
  obtain ⟨b, d', rfl⟩ := List.exists_cons_of_ne_nil (ne_nil_of_mem_components hg hd)
  have hab : compare a b = .lt := by
    have hheads := hlt
    rw [List.compare_cons_cons, Ordering.then_eq_lt] at hheads
    rcases hheads with hab | ⟨hab, -⟩
    · exact hab
    -- With a node in common they would be the same component.
    · have heq : a = b := LawfulEqOrd.eq_of_compare hab
      have hsame := eq_of_mem_classes hg hcstrict hdstrict hmemc hmemd List.mem_cons_self
        (heq ▸ List.mem_cons_self)
      rw [hsame, compare_self] at hlt
      cases hlt
  refine ⟨a, List.mem_cons_self, List.forall_mem_cons.2 ⟨hab, fun e he => ?_⟩⟩
  exact TransCmp.lt_trans hab ((List.pairwise_cons.1 hdstrict).1 e he)

/-- Graphs with the same nodes and the same links have the same components. -/
theorem components_congr {g' : LinkGraph α} (hg' : g'.Symmetric)
    (hnodes : ∀ a, a ∈ g.nodes ↔ a ∈ g'.nodes)
    (hlinks : ∀ a b, b ∈ g.neighbours a ↔ b ∈ g'.neighbours a) : g.components = g'.components := by
  apply (strict_components hg).ext (strict_components hg')
  intro c
  simp only [mem_components hg, mem_components hg', Connected, hnodes, hlinks]

end Components

/-! ## §4 Parts of a graph -/

section Part

variable {g g' : LinkGraph Nat} (hg : g.Symmetric) (hg' : g'.Symmetric) {f : Nat → Nat} {m : Nat}
  (hf : StrictMonoOn f (Set.Iio m)) (hnodes' : ∀ i, i ∈ g'.nodes ↔ i < m)
  (hnodes : ∀ i < m, f i ∈ g.nodes)
  (hlinks : ∀ i < m, ∀ b, b ∈ g.neighbours (f i) ↔ ∃ j, j ∈ g'.neighbours i ∧ f j = b)

include hg' hnodes' hlinks

theorem connected_renumbered_iff {i : Nat} (hi : i < m) {b : Nat} :
    g.Connected (f i) b ↔ ∃ j < m, g'.Connected i j ∧ f j = b := by
  refine reflTransGen_renumbered_iff (fun i _ j hij => ?_) hlinks hi
  exact (hnodes' j).1 (mem_nodes_of_mem_neighbours (hg'.symm i j hij))

omit hlinks in
theorem lt_of_mem_components {c : List Nat} (hc : c ∈ g'.components) {i : Nat} (hi : i ∈ c) :
    i < m := by
  obtain ⟨-, a, ha, hmem⟩ := (mem_components hg').1 hc
  exact (hnodes' i).1 (((hmem i).1 hi).mem_nodes hg' ha)

include hg hf

/-- A renumbered component is a component. -/
theorem map_mem_components (hnodes : ∀ i < m, f i ∈ g.nodes) {c : List Nat}
    (hc : c ∈ g'.components) : c.map f ∈ g.components := by
  have hbelow : ∀ j ∈ c, j < m := fun j => lt_of_mem_components hg' hnodes' hc
  obtain ⟨hstrict, i, hi, hmem⟩ := (mem_components hg').1 hc
  have him : i < m := (hnodes' i).1 hi
  refine (mem_components hg).2 ⟨hstrict.map_below hf hbelow, f i, hnodes i him, fun b => ?_⟩
  rw [connected_renumbered_iff hg' hnodes' hlinks him, List.mem_map]
  apply exists_congr
  intro j
  rw [← and_assoc, ← hmem, and_iff_right_of_imp (hbelow j)]

/-- A component of renumbered nodes is a renumbered component. -/
theorem exists_map_eq_of_mem_components {c : List Nat} (hc : c ∈ g.components)
    (hrange : ∀ a ∈ c, ∃ i < m, f i = a) : ∃ c' ∈ g'.components, c'.map f = c := by
  obtain ⟨hstrict, a, -, hmem⟩ := (mem_components hg).1 hc
  obtain ⟨i, hi, rfl⟩ := hrange a ((hmem a).2 .refl)
  obtain ⟨c', hstrict', hbelow, rfl⟩ := hstrict.exists_map_eq hf hrange
  have hnode : i ∈ g'.nodes := (hnodes' i).2 hi
  have hconnected : ∀ b, g.Connected (f i) b ↔ ∃ j < m, g'.Connected i j ∧ f j = b :=
    fun b => connected_renumbered_iff hg' hnodes' hlinks hi
  refine ⟨c', (mem_components hg').2 ⟨hstrict', i, hnode, fun j => ?_⟩, rfl⟩
  -- In both directions, a path between renumbered nodes comes from a path between the nodes.
  refine ⟨fun hj => ?_, fun hij => ?_⟩
  · obtain ⟨k, hk, hik, hkj⟩ := (hconnected _).1 ((hmem (f j)).1 (List.mem_map_of_mem hj))
    rwa [← hf.injOn hk (hbelow j hj) hkj]
  · have hj : j < m := (hnodes' j).1 (hij.mem_nodes hg' hnode)
    rw [← Ascending.mem_map_iff_of_lt hf hbelow hj, hmem, hconnected]
    exact ⟨j, hj, hij, rfl⟩

include hnodes

/-- If the links of a renumbered node are the renumbered links, then the components of the
renumbered nodes are the renumbered components. -/
theorem restrict_components {p : Nat → Bool}
    (hp : ∀ a ∈ g.nodes, p a = true ↔ ∃ i < m, f i = a) :
    Ascending.restrict p g.components = g'.components.map (List.map f) := by
  have hkept : ∀ i < m, p (f i) = true := fun i hi => (hp _ (hnodes i hi)).2 ⟨i, hi, rfl⟩
  -- Links do not lead from one side to the other.
  have hside : ∀ a ∈ g.nodes, ∀ b, g.Connected a b → p a = true → p b = true := by
    intro a ha b hab hpa
    obtain ⟨i, hi, rfl⟩ := (hp a ha).1 hpa
    obtain ⟨j, hj, -, rfl⟩ := (connected_renumbered_iff hg' hnodes' hlinks hi).1 hab
    exact hkept j hj
  apply Ascending.restrict_eq_map hf (strict_components hg) (strict_components hg')
  · intro c hc
    obtain ⟨-, a, ha, hmem⟩ := (mem_components hg).1 hc
    refine ⟨List.ne_nil_of_mem ((hmem a).2 .refl), ?_⟩
    -- A component with one node in the part has all of its nodes there.
    cases hpa : p a with
    | true => exact Or.inl fun b hb => hside a ha b ((hmem b).1 hb) hpa
    | false =>
      refine Or.inr fun b hb => ?_
      have hab := (hmem b).1 hb
      by_contra hpb
      rw [Bool.not_eq_false] at hpb
      rw [hside b (hab.mem_nodes hg ha) a (hab.symm hg) hpb] at hpa
      cases hpa
  · exact fun c hc i => lt_of_mem_components hg' hnodes' hc
  · intro c
    refine ⟨fun h => ?_, fun h => ?_⟩
    · obtain ⟨-, a, ha, hmem⟩ := (mem_components hg).1 h.1
      apply exists_map_eq_of_mem_components hg hg' hf hnodes' hlinks h.1
      exact fun b hb => (hp b (((hmem b).1 hb).mem_nodes hg ha)).1 (h.2 b hb)
    · obtain ⟨c', hc', rfl⟩ := h
      refine ⟨map_mem_components hg hg' hf hnodes' hlinks hnodes hc', fun b hb => ?_⟩
      obtain ⟨j, hj, rfl⟩ := List.mem_map.1 hb
      exact hkept j (lt_of_mem_components hg' hnodes' hc' hj)

end Part

end ExistentialRules.LinkGraph
