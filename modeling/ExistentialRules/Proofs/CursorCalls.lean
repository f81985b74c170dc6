import Mathlib.Algebra.Group.Nat.Defs
import ExistentialRules.Proofs.Enumeration

/-!
# The calls of a subset cursor

A cursor is asked again and again for the next subset. As long as the number of subsets is not cut
off at the limit, its calls give out all subsets of the size asked for, in lexicographic order. The
count that it shows goes down by one with each of them. Calls beyond the last subset give nothing
and change nothing.

## Main definitions

* `SubsetCursor.call`, `SubsetCursor.after`: one call, and the cursor after several calls.

## Main statements

* `pairwise_lt_ascendingLists`: the order of the subsets;
* `SubsetCursor.GivesOut.step`, `SubsetCursor.GivesOut.run`: what one call does, and what several
  do;
* `SubsetCursor.calls_exact`: what a cursor gives out from its start to its end and beyond.
-/

namespace ExistentialRules

/-! ## §1 Lexicographic order -/

/-- Lists that are ordered by their first entries, and for each first entry by the rest, are ordered
lexicographically. -/
theorem pairwise_lt_flatMap_cons {heads : List Nat} {tails : Nat → List (List Nat)}
    (hheads : heads.Pairwise (· < ·)) (htails : ∀ p ∈ heads, (tails p).Pairwise (· < ·)) :
    (heads.flatMap fun p => (tails p).map (p :: ·)).Pairwise (· < ·) := by
  refine List.pairwise_flatMap.2 ⟨fun p hp => ?_, hheads.imp fun {p q} hpq xs hxs ys hys => ?_⟩
  -- The same first entry: the rest decides.
  · refine List.pairwise_map.2 ((htails p hp).imp fun {xs ys} hlt => ?_)
    exact List.cons_lt_cons_iff.2 (Or.inr ⟨rfl, hlt⟩)
  -- Different first entries decide by themselves.
  · obtain ⟨xs, -, rfl⟩ := List.mem_map.1 hxs
    obtain ⟨ys, -, rfl⟩ := List.mem_map.1 hys
    exact List.cons_lt_cons_iff.2 (Or.inl hpq)

/-- Ascending lists come in lexicographic order: the first entry goes up, and for each of its values
the rest does. -/
theorem pairwise_lt_ascendingLists (k room lo : Nat) :
    (ascendingLists k room lo).Pairwise (· < ·) := by
  induction k generalizing room lo with
  | zero => exact List.pairwise_singleton _ _
  | succ k ih =>
    exact pairwise_lt_flatMap_cons List.pairwise_lt_range' fun p _ => ih (room + 1) (p + 1)

section Subsets

variable {n k : Nat} (hk : k ≤ n) (hlimit : n.choose k ≤ countLimit)

include hk hlimit

/-- Below the limit, the subsets of one size are all ascending lists of that length. -/
theorem mem_subsets {xs : List Nat} :
    xs ∈ subsets n k ↔ xs.length = k ∧ xs.Pairwise (· < ·) ∧ ∀ x ∈ xs, x < n := by
  refine ⟨ascending_of_mem_subsets, fun h => ?_⟩
  obtain ⟨hlength, hasc, hn⟩ := h
  exact mem_subsets_of_ascending hlimit hlength hasc hn hk

theorem length_subsets : (subsets n k).length = n.choose k := by
  rw [subsets_eq_ascendingLists hk hlimit, length_ascendingLists (Nat.zero_le _), Nat.sub_zero,
    Nat.sub_add_cancel hk]

end Subsets

/-- Subsets come in lexicographic order, also where the limit cuts them off. -/
theorem pairwise_lt_subsets (n k : Nat) : (subsets n k).Pairwise (· < ·) := by
  by_cases hk : k ≤ n
  -- Also a list that is cut off is in order.
  · rw [subsets_eq_take hk]
    exact (pairwise_lt_ascendingLists k (n - k) 0).sublist (List.take_sublist _ _)
  · simp [subsets, SubsetCursor.new, Nat.lt_of_not_le hk]

namespace SubsetCursor

/-! ## §2 Calls -/

/-- One call: the mask that it gives out, if it gives out one, and the cursor behind it. -/
def call (c : SubsetCursor) : Option (List Bool) × SubsetCursor :=
  c.nth? 0

/-- The cursor after a number of calls. -/
def after (c : SubsetCursor) : Nat → SubsetCursor
  | 0 => c
  | i + 1 => (c.after i).call.2

section GivesOut

variable {c : SubsetCursor} {masks : List (List Bool)} (h : GivesOut c masks)

include h

/-- One call gives out the first mask and leaves the others; at the end it changes nothing. -/
theorem GivesOut.step : c.call.1 = masks.head? ∧ GivesOut c.call.2 masks.tail := by
  -- What is left decides whether the call gives out anything.
  cases masks with
  | nil =>
    have hend : c.remaining = 0 := h
    have hcall : c.call = (none, c) := by simp [call, nth?, next?, hend]
    rw [hcall]
    exact ⟨rfl, hend⟩
  | cons mask masks =>
    obtain ⟨-, c', hnext, h'⟩ := h
    have hcall : c.call = (some mask, c') := by simp [call, nth?, hnext]
    rw [hcall]
    exact ⟨rfl, h'⟩

/-- By induction on the calls: what is left is what was there without the masks given out. -/
theorem GivesOut.run (i : Nat) : GivesOut (c.after i) (masks.drop i) := by
  induction i with
  | zero => simpa [after] using h
  | succ i ih =>
    rw [← List.tail_drop]
    exact ih.step.2

/-- The calls give out the masks in their order, and nothing after the last one. -/
theorem GivesOut.call_after (i : Nat) : (c.after i).call.1 = masks[i]? := by
  rw [(h.run i).step.1, List.head?_drop]

theorem GivesOut.remaining_after (i : Nat) : (c.after i).remaining = masks.length - i := by
  rw [(h.run i).remaining_eq, List.length_drop]

end GivesOut

/-- If there are at most `2 ^ 64 - 1` subsets of `k` out of `n` elements, then a new cursor gives
out one mask of length `n` for each of them: the selected positions are the ascending lists of `k`
numbers below `n`, each of them once, in lexicographic order. Call `i` gives out mask `i`. After `i`
calls the cursor shows the number of the masks still to come; when there are none left, further
calls give out nothing and the number stays 0. -/
theorem calls_exact {n k : Nat} (hk : k ≤ n) (hlimit : n.choose k ≤ 2 ^ 64 - 1) :
    ∃ c, new n k = .ok c ∧
      c.toList.length = n.choose k ∧
      (∀ mask ∈ c.toList, mask.length = n) ∧
      (∀ xs, xs ∈ c.toList.map selected ↔
        xs.length = k ∧ xs.Pairwise (· < ·) ∧ ∀ x ∈ xs, x < n) ∧
      (c.toList.map selected).Pairwise (· < ·) ∧
      (∀ i, (c.after i).call.1 = c.toList[i]?) ∧
      (∀ i ≤ n.choose k, (c.after i).remaining = n.choose k - i) ∧
      ∀ i, n.choose k ≤ i → (c.after i).call.1 = none ∧ (c.after (i + 1)).remaining = 0 := by
  obtain ⟨c, hnew, hc⟩ := givesOut_new hk
  have hsubsets : c.toList.map selected = subsets n k := by simp [subsets, hnew]
  have hlength : c.toList.length = n.choose k := by
    rw [← List.length_map selected, hsubsets, length_subsets hk hlimit]
  -- Masks have an entry for each element, selected or not.
  have hmasks : ∀ mask ∈ c.toList, mask.length = n := by
    intro mask hmask
    rw [hc.toList_eq] at hmask
    obtain ⟨xs, -, rfl⟩ := List.mem_map.1 hmask
    simp [maskOf]
  rw [← hc.toList_eq] at hc
  refine ⟨c, hnew, hlength, hmasks, fun xs => ?_, ?_, hc.call_after, fun i _ => ?_, fun i hi => ?_⟩
  · rw [hsubsets]
    exact mem_subsets hk hlimit
  · rw [hsubsets]
    exact pairwise_lt_subsets n k
  · rw [hc.remaining_after, hlength]
  -- All masks have been given out.
  · rw [hc.call_after, hc.remaining_after, hlength]
    exact ⟨List.getElem?_eq_none (hlength ▸ hi), by omega⟩

/-- The six subsets of two out of four elements. -/
theorem calls_exact_four_two :
    2 ≤ 4 ∧ Nat.choose 4 2 ≤ 2 ^ 64 - 1 ∧
      ∃ c, new 4 2 = .ok c ∧ c.toList.length = 6 ∧ [1, 3] ∈ c.toList.map selected ∧
        (c.after 4).remaining = 2 ∧ (c.after 6).call.1 = none ∧ (c.after 7).remaining = 0 := by
  have hlimit : Nat.choose 4 2 ≤ 2 ^ 64 - 1 := by decide
  obtain ⟨c, hnew, hlength, -, hmem, -, -, hremaining, hend⟩ := calls_exact (by decide) hlimit
  refine ⟨by decide, hlimit, c, hnew, hlength, (hmem [1, 3]).2 (by decide), ?_, hend 6 (by decide)⟩
  exact hremaining 4 (by decide)

end SubsetCursor

end ExistentialRules
