import Mathlib.Data.Finset.Card
import Mathlib.Data.Finset.SDiff
import Mathlib.Logic.Relation
import ExistentialRules.Graph.DepthFirst

/-!
# What depth-first walks find

A walk that starts from some nodes finishes exactly the nodes that a path of new nodes leads to, and
it finishes them in a certain order: if a node is finished before another that it leads to, then it
is on a circle with a node that is finished no earlier than the other.

The order is stated relative to what was seen before. So it can be proved for one visit after the
other: what a later visit finishes cannot be reached from what an earlier one has finished.

## Main definitions

* `Walk.Reaches`: paths through new nodes;
* `Walk.Explores`: what a walk does that starts from given nodes;
* `Walk.enter`: one step of the recursion.

## Main statements

* `Walk.Explores.append`, `Walk.Explores.enter`: walks one after the other, and a walk through the
  successors of a node;
* `Walk.exists_explores_visit`, `Walk.exists_explores_foldl`: visiting one node, and several in
  turn;
* `Walk.Explores.mem_new_iff`: what is found;
* `Walk.visit_eq_enter`: the bound on the depth makes no difference.
-/

namespace ExistentialRules.Walk

open Relation

universe u

variable {α : Type u} {next : α → List α}

/-! ## §1 Paths of new nodes -/

/-- A path through successors leads from one node to another, and no node on it, the first one
apart, has been seen. -/
def Reaches (next : α → List α) (seen : List α) : α → α → Prop :=
  ReflTransGen fun a b => b ∈ next a ∧ b ∉ seen

/-- The fewer nodes have been seen, the more paths there are. -/
theorem Reaches.mono {seen seen' : List α} (hseen : ∀ x ∈ seen, x ∈ seen') {a b : α}
    (h : Reaches next seen' a b) : Reaches next seen a b := by
  refine ReflTransGen.mono (fun x y hxy => ?_) a b h
  exact ⟨hxy.1, fun hy => hxy.2 (hseen y hy)⟩

/-- A path leads to one of the newly seen nodes, or it is a path of nodes that are still new. -/
theorem Reaches.meets_or_avoids {seen seen' new : List α}
    (hseen : ∀ x ∈ seen', x ∈ seen ∨ x ∈ new) {a b : α} (h : Reaches next seen a b) :
    (∃ c ∈ new, Reaches next seen a c ∧ Reaches next seen c b) ∨ Reaches next seen' a b := by
  -- By induction on the path, one step at its end at a time.
  induction h with
  | refl => exact Or.inr .refl
  | @tail x y hax hxy ih =>
    rcases ih with ⟨c, hc, hac, hcx⟩ | havoids
    · exact Or.inl ⟨c, hc, hac, hcx.tail hxy⟩
    · by_cases hy : y ∈ new
      · exact Or.inl ⟨y, hy, hax.tail hxy, .refl⟩
      · refine Or.inr (havoids.tail ⟨hxy.1, fun hy' => ?_⟩)
        exact (hseen y hy').elim hxy.2 hy

/-- Paths do not leave a set of nodes that contains all new successors of its nodes. -/
theorem Reaches.mem_of_closed {seen : List α} {P : α → Prop}
    (hclosed : ∀ x, P x → ∀ y ∈ next x, y ∉ seen → P y) {a b : α} (ha : P a)
    (h : Reaches next seen a b) : P b := by
  induction h with
  | refl => exact ha
  | tail _ hxy ih => exact hclosed _ ih _ hxy.1 hxy.2

/-! ## §2 Walks one after the other -/

/-- The walk `w` was continued from the nodes `starts`. It has become `w'` and has finished the
nodes `new`, the latest first. -/
structure Explores (next : α → List α) (starts : List α) (w w' : Walk α) (new : List α) : Prop where
  /-- The new nodes are finished last. -/
  finished : w'.finished = new ++ w.finished
  /-- They are all that was seen. -/
  seen : ∀ x, x ∈ w'.seen ↔ x ∈ w.seen ∨ x ∈ new
  /-- They were not seen before. -/
  fresh : ∀ x ∈ new, x ∉ w.seen
  /-- Each of them is finished once. -/
  nodup : new.Nodup
  /-- The walk has been where it was to start. -/
  started : ∀ a ∈ starts, a ∈ w'.seen
  /-- A path of new nodes leads to each of them. -/
  found : ∀ x ∈ new, ∃ a ∈ starts, a ∉ w.seen ∧ Reaches next w.seen a x
  /-- Nothing is left to be found from them. -/
  closed : ∀ x ∈ new, ∀ y ∈ next x, y ∈ w'.seen
  /-- If a path leads from a node to some that are finished after it, then it is on a circle with
  one of these. -/
  ordered : ∀ later earlier, new = later ++ earlier → ∀ x ∈ earlier, ∀ y ∈ later,
    Reaches next w.seen x y → ∃ z ∈ later, Reaches next w.seen x z ∧ Reaches next w.seen z x

theorem Explores.nil (next : α → List α) (w : Walk α) : Explores next [] w w [] where
  finished := rfl
  seen := by simp
  fresh := by simp
  nodup := List.nodup_nil
  started := by simp
  found := by simp
  closed := by simp
  ordered := by
    intro later earlier hsplit x _ y hy
    rw [(List.append_eq_nil_iff.1 hsplit.symm).1] at hy
    cases hy

/-- A node seen before changes nothing. -/
theorem Explores.skip {w : Walk α} {a : α} (ha : a ∈ w.seen) : Explores next [a] w w [] :=
  { Explores.nil next w with
    started := by simpa using ha
    found := by simp }

/-- What a path of new nodes leads to from a finished node is finished, too. -/
theorem Explores.mem_of_reaches {starts : List α} {w w' : Walk α} {new : List α}
    (h : Explores next starts w w' new) {x y : α} (hx : x ∈ new)
    (hxy : Reaches next w.seen x y) : y ∈ new := by
  refine hxy.mem_of_closed (fun u hu v hv hnew => ?_) hx
  exact ((h.seen v).1 (h.closed u hu v hv)).resolve_left hnew

/-- What is found is what a path of new nodes leads to. -/
theorem Explores.mem_new_iff {starts : List α} {w w' : Walk α} {new : List α}
    (h : Explores next starts w w' new) {x : α} :
    x ∈ new ↔ ∃ a ∈ starts, a ∉ w.seen ∧ Reaches next w.seen a x := by
  refine ⟨h.found x, fun hx => ?_⟩
  -- The walk has been at the start of the path, and has finished all that follows.
  obtain ⟨a, ha, hnew, hax⟩ := hx
  exact h.mem_of_reaches (((h.seen a).1 (h.started a ha)).resolve_left hnew) hax

section Append

variable {starts starts' : List α} {w w' w'' : Walk α} {new new' : List α}
  (h : Explores next starts w w' new) (h' : Explores next starts' w' w'' new')

include h h'

/-- From what is finished first no path leads to what is finished later. -/
theorem Explores.not_reaches_later {x y : α} (hx : x ∈ new) (hy : y ∈ new') :
    ¬ Reaches next w.seen x y := by
  intro hxy
  exact h'.fresh y hy ((h.seen y).2 (Or.inr (h.mem_of_reaches hx hxy)))

/-- A path to what is finished later is not seen by the first walk. -/
theorem Explores.reaches_later {x y : α} (hy : y ∈ new') (hxy : Reaches next w.seen x y) :
    Reaches next w'.seen x y := by
  rcases hxy.meets_or_avoids fun z hz => (h.seen z).1 hz with ⟨c, hc, -, hcy⟩ | havoids
  · exact absurd hcy (h.not_reaches_later h' hc hy)
  · exact havoids

/-- The order of finishing is kept when one walk follows another: wherever the list of finished
nodes is cut, the cut goes through one of the walks. -/
theorem Explores.ordered_append (later earlier : List α) (hsplit : new' ++ new = later ++ earlier)
    {x y : α} (hx : x ∈ earlier) (hy : y ∈ later) (hxy : Reaches next w.seen x y) :
    ∃ z ∈ later, Reaches next w.seen x z ∧ Reaches next w.seen z x := by
  have hmono : ∀ {a b : α}, Reaches next w'.seen a b → Reaches next w.seen a b :=
    Reaches.mono fun z hz => (h.seen z).2 (Or.inl hz)
  rcases List.append_eq_append_iff.1 hsplit with ⟨mid, hlater, hnew⟩ | ⟨mid, hnew', hearlier⟩
  -- The first walk is cut in two, and all of the second one is later.
  · have hxnew : x ∈ new := hnew ▸ List.mem_append_right mid hx
    rw [hlater] at hy ⊢
    rcases List.mem_append.1 hy with hy | hy
    · exact absurd hxy (h.not_reaches_later h' hxnew hy)
    · obtain ⟨z, hz, hxz, hzx⟩ := h.ordered mid earlier hnew x hx y hy hxy
      exact ⟨z, List.mem_append_right new' hz, hxz, hzx⟩
  -- The second walk is cut in two, and all of the first one is earlier.
  · have hynew' : y ∈ new' := hnew' ▸ List.mem_append_left mid hy
    rw [hearlier] at hx
    rcases List.mem_append.1 hx with hx | hx
    · obtain ⟨z, hz, hxz, hzx⟩ :=
        h'.ordered later mid hnew' x hx y hy (h.reaches_later h' hynew' hxy)
      exact ⟨z, hz, hmono hxz, hmono hzx⟩
    · exact absurd hxy (h.not_reaches_later h' hx hynew')

/-- One walk after the other is one walk. -/
theorem Explores.append : Explores next (starts ++ starts') w w'' (new' ++ new) where
  finished := by rw [h'.finished, h.finished, List.append_assoc]
  seen := by
    intro x
    rw [h'.seen, h.seen, List.mem_append, or_assoc, or_comm (a := x ∈ new')]
  fresh := by
    intro x hx hseen
    rcases List.mem_append.1 hx with hx | hx
    · exact h'.fresh x hx ((h.seen x).2 (Or.inl hseen))
    · exact h.fresh x hx hseen
  nodup := by
    refine List.nodup_append'.2 ⟨h'.nodup, h.nodup, fun x hx' hx => ?_⟩
    exact h'.fresh x hx' ((h.seen x).2 (Or.inr hx))
  started := by
    intro a ha
    rcases List.mem_append.1 ha with ha | ha
    · exact (h'.seen a).2 (Or.inl (h.started a ha))
    · exact h'.started a ha
  found := by
    intro x hx
    rcases List.mem_append.1 hx with hx | hx
    · obtain ⟨a, ha, hnew, hax⟩ := h'.found x hx
      refine ⟨a, List.mem_append_right _ ha, fun hseen => hnew ((h.seen a).2 (Or.inl hseen)), ?_⟩
      exact hax.mono fun z hz => (h.seen z).2 (Or.inl hz)
    · obtain ⟨a, ha, hnew, hax⟩ := h.found x hx
      exact ⟨a, List.mem_append_left _ ha, hnew, hax⟩
  closed := by
    intro x hx y hy
    rcases List.mem_append.1 hx with hx | hx
    · exact h'.closed x hx y hy
    · exact (h'.seen y).2 (Or.inl (h.closed x hx y hy))
  ordered := by
    intro later earlier hsplit x hx y hy hxy
    exact h.ordered_append h' later earlier hsplit hx hy hxy

end Append

/-! ## §3 Entering a node -/

section Enter

variable {w w' : Walk α} {new : List α} {a : α}
  (h : Explores next (next a) { w with seen := a :: w.seen } w' new)

include h

theorem Explores.reaches_of_enter {x : α} (hx : x ∈ new) : Reaches next w.seen a x := by
  obtain ⟨b, hb, hnew, hbx⟩ := h.found x hx
  have hstep : b ∈ next a ∧ b ∉ w.seen := ⟨hb, fun hseen => hnew (List.mem_cons_of_mem a hseen)⟩
  exact ReflTransGen.head hstep (hbx.mono fun z hz => List.mem_cons_of_mem a hz)

/-- A node whose successors have been visited is finished itself. -/
theorem Explores.enter (ha : a ∉ w.seen) :
    Explores next [a] w { w' with finished := a :: w'.finished } (a :: new) where
  finished := by
    show a :: w'.finished = a :: new ++ w.finished
    rw [h.finished, List.cons_append]
  seen := by
    intro x
    show x ∈ w'.seen ↔ x ∈ w.seen ∨ x ∈ a :: new
    rw [h.seen, List.mem_cons, List.mem_cons, or_assoc, or_left_comm]
  fresh := by
    intro x hx hseen
    rcases List.mem_cons.1 hx with rfl | hx
    · exact ha hseen
    · exact h.fresh x hx (List.mem_cons_of_mem a hseen)
  nodup := List.nodup_cons.2 ⟨fun hnew => h.fresh a hnew List.mem_cons_self, h.nodup⟩
  started := by
    intro b hb
    rw [List.mem_singleton.1 hb]
    exact (h.seen a).2 (Or.inl List.mem_cons_self)
  found := by
    intro x hx
    refine ⟨a, List.mem_singleton_self a, ha, ?_⟩
    rcases List.mem_cons.1 hx with rfl | hx
    · exact .refl
    · exact h.reaches_of_enter hx
  closed := by
    intro x hx y hy
    rcases List.mem_cons.1 hx with rfl | hx
    · exact h.started y hy
    · exact h.closed x hx y hy
  ordered := by
    intro later earlier hsplit x hx y hy hxy
    cases later with
    | nil => cases hy
    | cons b later =>
      obtain ⟨rfl, hnew⟩ := List.cons.inj hsplit
      have hax : Reaches next w.seen a x :=
        h.reaches_of_enter (hnew ▸ List.mem_append_right later hx)
      -- Either the path leads through the node itself, which is finished last, or it is a path of
      -- nodes that are new to the walk through the successors.
      have hseen : ∀ u ∈ a :: w.seen, u ∈ w.seen ∨ u ∈ [a] := by simp [or_comm]
      rcases hxy.meets_or_avoids hseen with ⟨c, hc, hxc, -⟩ | havoids
      · rw [List.mem_singleton.1 hc] at hxc
        exact ⟨a, List.mem_cons_self, hxc, hax⟩
      · rcases List.mem_cons.1 hy with rfl | hy
        · exact ⟨y, List.mem_cons_self, hxy, hax⟩
        · obtain ⟨z, hz, hxz, hzx⟩ := h.ordered later earlier hnew x hx y hy havoids
          have hmono : ∀ u ∈ w.seen, u ∈ a :: w.seen := fun u hu => List.mem_cons_of_mem a hu
          exact ⟨z, List.mem_cons_of_mem a hz, hxz.mono hmono, hzx.mono hmono⟩

end Enter

/-! ## §4 Visits -/

section Visit

variable [DecidableEq α] {nodes : Finset α}

/-- The nodes that have not been seen. -/
def unseen (nodes : Finset α) (w : Walk α) : Finset α :=
  nodes \ w.seen.toFinset

/-- A walk never leaves more nodes to be seen than there were. -/
theorem Explores.card_unseen_le {starts : List α} {w w' : Walk α} {new : List α}
    (h : Explores next starts w w' new) : (unseen nodes w').card ≤ (unseen nodes w).card := by
  apply Finset.card_le_card
  apply Finset.sdiff_subset_sdiff (Finset.Subset.refl nodes)
  intro x hx
  rw [List.mem_toFinset] at hx ⊢
  exact (h.seen x).2 (Or.inl hx)

/-- Entering a new node leaves fewer nodes to be seen. -/
theorem card_unseen_enter {w : Walk α} {a : α} (ha : a ∈ nodes) (hnew : a ∉ w.seen) :
    (unseen nodes { w with seen := a :: w.seen }).card < (unseen nodes w).card := by
  apply Finset.card_lt_card
  refine (Finset.ssubset_iff_of_subset ?_).2 ⟨a, ?_, ?_⟩
  · intro x hx
    simp only [unseen, Finset.mem_sdiff, List.mem_toFinset, List.mem_cons, not_or] at hx ⊢
    exact ⟨hx.1, hx.2.2⟩
  · simpa [unseen] using ⟨ha, hnew⟩
  · simp [unseen]

/-- If nothing is left to be seen, then everything has been seen. -/
theorem mem_seen_of_card_le_zero {w : Walk α} {a : α} (ha : a ∈ nodes)
    (hcard : (unseen nodes w).card ≤ 0) : a ∈ w.seen := by
  have hempty : unseen nodes w = ∅ := Finset.card_eq_zero.1 (Nat.le_zero.1 hcard)
  by_contra hnew
  have hmem : a ∈ unseen nodes w := by simpa [unseen] using ⟨ha, hnew⟩
  rw [hempty] at hmem
  cases hmem

/-- Several visits in turn explore if each of them does. -/
theorem exists_explores_foldl_of {step : Walk α → α → Walk α} {bound : Nat}
    (hstep : ∀ w a, a ∈ nodes → (unseen nodes w).card ≤ bound →
      ∃ new, Explores next [a] w (step w a) new)
    (as : List α) (has : ∀ a ∈ as, a ∈ nodes) (w : Walk α) (hw : (unseen nodes w).card ≤ bound) :
    ∃ new, Explores next as w (as.foldl step w) new := by
  -- By induction on the nodes to be visited; each visit leaves no more to be seen than the last.
  induction as generalizing w with
  | nil => exact ⟨[], .nil next w⟩
  | cons a as ih =>
    obtain ⟨new, h⟩ := hstep w a (has a List.mem_cons_self) hw
    obtain ⟨new', h'⟩ := ih (fun b hb => has b (List.mem_cons_of_mem a hb)) (step w a)
      (h.card_unseen_le.trans hw)
    exact ⟨new' ++ new, h.append h'⟩

variable (hnext : ∀ a ∈ nodes, ∀ b ∈ next a, b ∈ nodes)

include hnext

/-- A visit explores if it may go as deep as there are nodes left to be seen. -/
theorem exists_explores_visit (depth : Nat) (w : Walk α) {a : α} (ha : a ∈ nodes)
    (hdepth : (unseen nodes w).card ≤ depth) :
    ∃ new, Explores next [a] w (w.visit next depth a) new := by
  induction depth generalizing w a with
  | zero =>
    -- Without a level left there is no node left either.
    have hseen : a ∈ w.seen := mem_seen_of_card_le_zero ha hdepth
    exact ⟨[], .skip hseen⟩
  | succ depth ih =>
    unfold visit
    split
    · rename_i hseen
      exact ⟨[], .skip hseen⟩
    · rename_i hnew
      -- The successors are visited one level deeper, with one node less left to be seen.
      have hleft := card_unseen_enter ha hnew
      obtain ⟨new, h⟩ := exists_explores_foldl_of (fun w b hb hw => ih w hb hw) (next a)
        (hnext a ha) { w with seen := a :: w.seen } (by omega)
      exact ⟨a :: new, h.enter hnew⟩

theorem exists_explores_foldl (depth : Nat) (as : List α) (has : ∀ a ∈ as, a ∈ nodes) (w : Walk α)
    (hdepth : (unseen nodes w).card ≤ depth) :
    ∃ new, Explores next as w (as.foldl (visit next depth) w) new :=
  exists_explores_foldl_of (fun w _ hb hw => exists_explores_visit hnext depth w hb hw) as has w
    hdepth

end Visit

/-! ## §5 Depth -/

section Depth

variable [DecidableEq α] {nodes : Finset α}

/-- Enter a node if it is new, and go on from its successors in a given way. -/
def enter (next : α → List α) (goOn : Walk α → α → Walk α) (w : Walk α) (a : α) : Walk α :=
  if a ∈ w.seen then
    w
  else
    let w' := (next a).foldl goOn { w with seen := a :: w.seen }
    { w' with finished := a :: w'.finished }

variable (hnext : ∀ a ∈ nodes, ∀ b ∈ next a, b ∈ nodes)

include hnext

/-- A greater depth makes no difference to several visits if it makes none to each of them. -/
theorem foldl_visit_succ_eq {depth : Nat}
    (hvisit : ∀ w a, a ∈ nodes → (unseen nodes w).card ≤ depth →
      visit next (depth + 1) w a = visit next depth w a)
    (as : List α) (has : ∀ a ∈ as, a ∈ nodes) (w : Walk α) (hw : (unseen nodes w).card ≤ depth) :
    as.foldl (visit next (depth + 1)) w = as.foldl (visit next depth) w := by
  induction as generalizing w with
  | nil => rfl
  | cons a as ih =>
    have ha := has a List.mem_cons_self
    obtain ⟨new, h⟩ := exists_explores_visit hnext depth w ha hw
    rw [List.foldl_cons, List.foldl_cons, hvisit w a ha hw]
    exact ih (fun b hb => has b (List.mem_cons_of_mem a hb)) _ (h.card_unseen_le.trans hw)

/-- A visit that may go as deep as there are nodes left to be seen goes no deeper if it may. -/
theorem visit_succ_eq (depth : Nat) (w : Walk α) {a : α} (ha : a ∈ nodes)
    (hdepth : (unseen nodes w).card ≤ depth) :
    visit next (depth + 1) w a = visit next depth w a := by
  induction depth generalizing w a with
  | zero =>
    show enter next (visit next 0) w a = w
    exact if_pos (mem_seen_of_card_le_zero ha hdepth)
  | succ depth ih =>
    show enter next (visit next (depth + 1)) w a = enter next (visit next depth) w a
    unfold enter
    split
    · rfl
    · rename_i hnew
      have hleft := card_unseen_enter ha hnew
      -- The successors are visited with one node less to be seen, and one level less to go.
      rw [foldl_visit_succ_eq hnext (fun w b hb hw => ih w hb hw) (next a) (hnext a ha) _
        (by omega)]

/-- Visits that may go deep enough obey the recursion that knows no depth. -/
theorem visit_eq_enter (depth : Nat) (w : Walk α) {a : α} (ha : a ∈ nodes)
    (hdepth : (unseen nodes w).card ≤ depth) :
    visit next depth w a = enter next (visit next depth) w a :=
  (visit_succ_eq hnext depth w ha hdepth).symm

end Depth

end ExistentialRules.Walk
