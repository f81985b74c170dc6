import ExistentialRules.Proofs.LinkComponents

/-!
# Walks with a worklist

The nodes reachable from a node are collected by a depth-first walk. They can also be collected by a
loop that keeps a worklist: it takes the latest node off the list and meets the neighbours of that
node one by one. Each of them is reached, and one that was not noted before goes on the list.

The loop comes to an end, since a node goes on the list only when it is noted. It collects the same
nodes as the walk, in whatever order the neighbours of a node are met.

## Main definitions

* `Worklist`: how far the loop has come;
* `Worklist.meet`, `Worklist.finish`: one neighbour, and the whole loop;
* `Worklist.Consistent`: what holds after every turn;
* `LinkGraph.collect`: the loop on a link graph.

## Main statements

* `Worklist.room_foldl_meet_le`: why the loop ends;
* `Worklist.Consistent.turn`, `Worklist.Consistent.mem_finish`: a turn, and the whole loop;
* `LinkGraph.collect_eq_reachable`: the loop and the walk.
-/

namespace ExistentialRules

open Relation Std

/-- How far the loop has come. -/
structure Worklist (α : Type) where
  /-- The nodes whose neighbours are still to be met, the latest first. -/
  pending : List α
  /-- The nodes that are or were pending. -/
  noted : List α
  /-- The nodes met as neighbours, in ascending order. -/
  reached : List α

namespace Worklist

variable {α : Type} [DecidableEq α]

/-! ## §1 The loop -/

/-- The worklist with one node, from which nothing is reached yet. -/
def start (a : α) : Worklist α :=
  ⟨[a], [a], []⟩

/-- Meet a node as a neighbour: it is reached, and it is pending from now on if it is new. -/
def meet [Ord α] (w : Worklist α) (b : α) : Worklist α :=
  if b ∈ w.noted then
    { w with reached := Ascending.insert b w.reached }
  else
    ⟨b :: w.pending, b :: w.noted, Ascending.insert b w.reached⟩

/-- The number of turns that are left at most, if no other nodes than the given ones are met. -/
def room (nodes : Finset α) (w : Worklist α) : Nat :=
  w.pending.length + (nodes \ w.noted.toFinset).card

/-- A node that becomes pending is not left to be noted any more. -/
theorem room_meet_le [Ord α] {nodes : Finset α} (w : Worklist α) {b : α} (hb : b ∈ nodes) :
    (w.meet b).room nodes ≤ w.room nodes := by
  unfold meet
  split
  · exact Nat.le_refl _
  -- One more node is pending, and one fewer is left to be noted.
  · rename_i hnew
    have hleft : b ∈ nodes \ w.noted.toFinset :=
      Finset.mem_sdiff.2 ⟨hb, fun h => hnew (List.mem_toFinset.1 h)⟩
    have hfewer := Finset.card_erase_lt_of_mem hleft
    simp only [room, List.length_cons, List.toFinset_cons, Finset.sdiff_insert]
    omega

/-- Nor does meeting several nodes take more room than there was. -/
theorem room_foldl_meet_le [Ord α] {nodes : Finset α} (bs : List α) (hbs : ∀ b ∈ bs, b ∈ nodes)
    (w : Worklist α) : (bs.foldl meet w).room nodes ≤ w.room nodes := by
  induction bs generalizing w with
  | nil => exact Nat.le_refl _
  | cons b bs ih =>
    obtain ⟨hb, hbs⟩ := List.forall_mem_cons.1 hbs
    exact (ih hbs (w.meet b)).trans (room_meet_le w hb)

/-- Take pending nodes off the worklist and meet their neighbours, until no node is pending. What is
given back are the nodes reached. -/
def finish [Ord α] (next : α → List α) {nodes : Finset α}
    (hnodes : ∀ a, ∀ b ∈ next a, b ∈ nodes) : Worklist α → List α
  | ⟨[], _, reached⟩ => reached
  | ⟨a :: pending, noted, reached⟩ =>
    finish next hnodes ((next a).foldl meet ⟨pending, noted, reached⟩)
termination_by w => w.room nodes
decreasing_by
  -- Taking a node off makes room, and meeting its neighbours takes none.
  have hmet := room_foldl_meet_le (next a) (hnodes a) ⟨pending, noted, reached⟩
  have htaken : room nodes ⟨pending, noted, reached⟩ <
      room nodes ⟨a :: pending, noted, reached⟩ := by
    simp [room]
  exact hmet.trans_lt htaken

/-! ## §2 What holds after every turn -/

section Meet

variable [Ord α] [LawfulEqOrd α]

/-- The neighbours met are reached and noted, and those that are new become pending. -/
theorem mem_foldl_meet (bs : List α) (w : Worklist α) (c : α) :
    (c ∈ (bs.foldl meet w).reached ↔ c ∈ bs ∨ c ∈ w.reached) ∧
    (c ∈ (bs.foldl meet w).noted ↔ c ∈ bs ∨ c ∈ w.noted) ∧
    (c ∈ (bs.foldl meet w).pending ↔ c ∈ w.pending ∨ c ∈ bs ∧ c ∉ w.noted) := by
  -- By induction on the neighbours; each is new or was noted before.
  induction bs generalizing w with
  | nil => simp
  | cons b bs ih =>
    obtain ⟨hreached, hnoted, hpending⟩ := ih (w.meet b)
    rw [List.foldl_cons, hreached, hnoted, hpending]
    unfold meet
    split
    · simp only [Ascending.mem_insert, List.mem_cons]
      grind
    · simp only [Ascending.mem_insert, List.mem_cons]
      grind

/-- The nodes reached stay in ascending order. -/
theorem strict_reached_foldl_meet [TransOrd α] (bs : List α) (w : Worklist α)
    (hw : Ascending.Strict w.reached) : Ascending.Strict (bs.foldl meet w).reached := by
  induction bs generalizing w with
  | nil => exact hw
  | cons b bs ih =>
    refine ih (w.meet b) ?_
    unfold meet
    split
    · exact Ascending.strict_insert b hw
    · exact Ascending.strict_insert b hw

end Meet

/-- All that is noted or reached from `a` can be, and the neighbours of the nodes that are no longer
pending are reached. -/
structure Consistent (next : α → List α) (a : α) (w : Worklist α) : Prop where
  start_noted : a ∈ w.noted
  reflTransGen_noted : ∀ b ∈ w.noted, ReflTransGen (fun x y => y ∈ next x) a b
  transGen_reached : ∀ b ∈ w.reached, TransGen (fun x y => y ∈ next x) a b
  pending_noted : ∀ b ∈ w.pending, b ∈ w.noted
  reached_noted : ∀ b ∈ w.reached, b ∈ w.noted
  pending_or_met : ∀ b ∈ w.noted, b ∈ w.pending ∨ ∀ c ∈ next b, c ∈ w.reached

section Consistent

variable [Ord α] [LawfulEqOrd α] {next : α → List α} {a : α} {w : Worklist α}

omit [Ord α] [LawfulEqOrd α] [DecidableEq α] in
theorem consistent_start : (start a).Consistent next a := by
  constructor <;> simp [start, ReflTransGen.refl]

/-- A turn of the loop: the latest pending node is taken off, and its neighbours are met. -/
theorem Consistent.turn {x : α} {pending noted reached : List α}
    (h : Consistent next a ⟨x :: pending, noted, reached⟩) :
    ((next x).foldl meet ⟨pending, noted, reached⟩).Consistent next a := by
  have hmem := mem_foldl_meet (next x) ⟨pending, noted, reached⟩
  have hx := h.reflTransGen_noted x (h.pending_noted x List.mem_cons_self)
  constructor
  · exact (hmem a).2.1.2 (Or.inr h.start_noted)
  · intro b hb
    rcases (hmem b).2.1.1 hb with hb | hb
    · exact hx.tail hb
    · exact h.reflTransGen_noted b hb
  · intro b hb
    rcases (hmem b).1.1 hb with hb | hb
    · exact TransGen.tail' hx hb
    · exact h.transGen_reached b hb
  · intro b hb
    rcases (hmem b).2.2.1 hb with hb | ⟨hb, -⟩
    · exact (hmem b).2.1.2 (Or.inr (h.pending_noted b (List.mem_cons_of_mem x hb)))
    · exact (hmem b).2.1.2 (Or.inl hb)
  · intro b hb
    rcases (hmem b).1.1 hb with hb | hb
    · exact (hmem b).2.1.2 (Or.inl hb)
    · exact (hmem b).2.1.2 (Or.inr (h.reached_noted b hb))
  · intro b hb
    -- A node that was not noted before is pending now; the one taken off has met its neighbours.
    by_cases hold : b ∈ noted
    · rcases h.pending_or_met b hold with hpending | hmet
      · rcases List.mem_cons.1 hpending with rfl | hpending
        · exact Or.inr fun c hc => (hmem c).1.2 (Or.inl hc)
        · exact Or.inl ((hmem b).2.2.2 (Or.inl hpending))
      · exact Or.inr fun c hc => (hmem c).1.2 (Or.inr (hmet c hc))
    · have hnew := ((hmem b).2.1.1 hb).resolve_right hold
      exact Or.inl ((hmem b).2.2.2 (Or.inr ⟨hnew, hold⟩))

omit [Ord α] [LawfulEqOrd α] [DecidableEq α] in
/-- When no node is pending, all that can be reached is reached. -/
theorem Consistent.mem_reached {noted reached : List α}
    (h : Consistent next a ⟨[], noted, reached⟩) {b : α} :
    b ∈ reached ↔ TransGen (fun x y => y ∈ next x) a b := by
  refine ⟨h.transGen_reached b, fun hab => ?_⟩
  have hmet : ∀ x ∈ noted, ∀ c ∈ next x, c ∈ reached :=
    fun x hx => (h.pending_or_met x hx).resolve_left List.not_mem_nil
  -- By induction on the path: all nodes on it are noted.
  have hnoted : ∀ c, ReflTransGen (fun x y => y ∈ next x) a c → c ∈ noted := by
    intro c hac
    induction hac with
    | refl => exact h.start_noted
    | tail _ hstep ih => exact h.reached_noted _ (hmet _ ih _ hstep)
  obtain ⟨c, hac, hcb⟩ := TransGen.tail'_iff.1 hab
  exact hmet c (hnoted c hac) b hcb

/-- The whole loop, turn by turn. -/
theorem Consistent.mem_finish {nodes : Finset α} (hnodes : ∀ a, ∀ b ∈ next a, b ∈ nodes)
    (h : w.Consistent next a) {b : α} :
    b ∈ w.finish next hnodes ↔ TransGen (fun x y => y ∈ next x) a b := by
  fun_induction finish next hnodes w with
  | case1 noted reached => exact h.mem_reached
  | case2 x pending noted reached ih => exact ih h.turn

theorem strict_finish [TransOrd α] {nodes : Finset α} (hnodes : ∀ a, ∀ b ∈ next a, b ∈ nodes)
    (hw : Ascending.Strict w.reached) : Ascending.Strict (w.finish next hnodes) := by
  fun_induction finish next hnodes w with
  | case1 noted reached => exact hw
  | case2 x pending noted reached ih =>
    exact ih (strict_reached_foldl_meet (next x) ⟨pending, noted, reached⟩ hw)

end Consistent

end Worklist

/-! ## §3 Link graphs -/

namespace LinkGraph

variable {α : Type} [Ord α] [DecidableEq α]

/-- The nodes that are listed as neighbours. -/
def linked (g : LinkGraph α) : Finset α :=
  (g.adjacency.flatMap Prod.snd).toFinset

omit [Ord α] in
/-- Every neighbour is one of finitely many nodes, so that the loop ends. -/
theorem mem_linked {g : LinkGraph α} {a b : α} (h : b ∈ g.neighbours a) : b ∈ g.linked := by
  unfold neighbours at h
  cases hentry : g.adjacency.lookup a with
  | none => simp [hentry] at h
  | some neighbours =>
    rw [hentry, Option.getD_some] at h
    obtain ⟨before, after, hadjacency, -⟩ := List.lookup_eq_some_iff.1 hentry
    simp only [linked, List.mem_toFinset, List.mem_flatMap]
    exact ⟨(a, neighbours), by simp [hadjacency], h⟩

/-- Collect the nodes reachable from a node by means of a worklist, where the neighbours of a node
are met in the given order. From an unknown node nothing is reached. -/
def collect (g : LinkGraph α) {order : α → List α}
    (horder : ∀ a, (order a).Perm (g.neighbours a)) (a : α) : List α :=
  if g.contains a then
    (Worklist.start a).finish order fun x _ h => mem_linked ((horder x).mem_iff.1 h)
  else
    []

/-- The loop collects what the walk collects, whatever the order of the neighbours. -/
theorem collect_eq_reachable [TransOrd α] [LawfulEqOrd α] {g : LinkGraph α} (hg : g.Symmetric)
    {order : α → List α} (horder : ∀ a, (order a).Perm (g.neighbours a)) (a : α) :
    g.collect horder a = g.reachable a := by
  unfold collect
  split
  · refine Ascending.Strict.ext (Worklist.strict_finish _ List.Pairwise.nil)
      (Ascending.strict_ofList _) fun b => ?_
    rw [Worklist.consistent_start.mem_finish, mem_reachable hg]
    simp only [(horder _).mem_iff]
  -- A node that is not known has no neighbours, and the walk reaches nothing from it.
  · rename_i hunknown
    have hnone : g.neighbours a = [] := by
      rw [List.eq_nil_iff_forall_not_mem]
      exact fun b hb => hunknown (contains_iff_mem_nodes.2 (mem_nodes_of_mem_neighbours hb))
    exact (reachable_eq_nil hnone).symm

end LinkGraph

end ExistentialRules
