import Mathlib.Data.Nat.Choose.Sum
import ExistentialRules.Proofs.CursorCalls

/-!
# The order and the number of pairings

The pairings are listed by the number of right-hand literals that take part, then by these literals,
then by their partners. Both lists of a pairing are ordered lexicographically. So no pairing is
listed twice, and as long as no count of subsets is cut off at the limit, every map from a non-empty
set of right-hand literals to left-hand literals is listed. A right-hand literal then has one of the
left-hand literals as its partner or none at all, and only the empty choice is left out.

## Main definitions

* `Pairing.Before`: the order of pairings;
* `pairingsOfSize`: the pairings with a given number of right-hand literals.

## Main statements

* `pairwise_before_pairings`, `nodup_pairings`: the pairings are listed in this order;
* `length_pairings`: their number;
* `pairings_exact`: which pairings are listed, in which order, and how many.
-/

namespace ExistentialRules

/-! ## §1 Tuples -/

theorem pairwise_lt_tuples (bound length : Nat) : (tuples bound length).Pairwise (· < ·) := by
  -- By induction on the length: the first number decides, then the rest.
  induction length with
  | zero => exact List.pairwise_singleton _ _
  | succ length ih => exact pairwise_lt_flatMap_cons List.pairwise_lt_range fun _ _ => ih

/-- At each place of a tuple, any number below the bound can stand. -/
theorem length_tuples (bound length : Nat) : (tuples bound length).length = bound ^ length := by
  induction length with
  | zero => rfl
  | succ length ih => simp [tuples, List.length_flatMap, ih, Nat.pow_succ, Nat.mul_comm]

/-! ## §2 Order -/

/-- One pairing comes before another: it has fewer right-hand literals, or as many and they come
first in lexicographic order, or they are the same and the partners come first. -/
def Pairing.Before (p q : Pairing) : Prop :=
  p.right.length < q.right.length ∨
    p.right.length = q.right.length ∧ (p.right < q.right ∨ p.right = q.right ∧ p.left < q.left)

theorem Pairing.Before.ne {p q : Pairing} (h : p.Before q) : p ≠ q := by
  rintro rfl
  rcases h with h | ⟨-, h | ⟨-, h⟩⟩
  · exact Nat.lt_irrefl _ h
  · exact List.lt_irrefl _ h
  · exact List.lt_irrefl _ h

/-- The pairings with `m` literals on the right. -/
def pairingsOfSize (left right m : Nat) : List Pairing :=
  (subsets right m).flatMap fun chosen => (tuples left m).map fun images => ⟨images, chosen⟩

theorem pairings_eq_flatMap (left right : Nat) :
    pairings left right = (List.range' 1 right).flatMap (pairingsOfSize left right) :=
  rfl

theorem length_right_of_mem {left right m : Nat} {p : Pairing}
    (hp : p ∈ pairingsOfSize left right m) : p.right.length = m := by
  obtain ⟨chosen, hchosen, hp⟩ := List.mem_flatMap.1 hp
  obtain ⟨images, -, rfl⟩ := List.mem_map.1 hp
  exact (ascending_of_mem_subsets hchosen).1

/-- The pairings of one size come in order. -/
theorem pairwise_before_pairingsOfSize (left right m : Nat) :
    (pairingsOfSize left right m).Pairwise Pairing.Before := by
  refine List.pairwise_flatMap.2 ⟨fun chosen _ => ?_, ?_⟩
  -- The same literals on the right: the partners are tried in order.
  · refine List.pairwise_map.2 ((pairwise_lt_tuples left m).imp fun hlt => ?_)
    exact Or.inr ⟨rfl, Or.inr ⟨rfl, hlt⟩⟩
  -- As many literals on the right: the subsets come in order.
  · apply (pairwise_lt_subsets right m).imp_of_mem
    intro chosen chosen' hmem hmem' hlt p hp q hq
    obtain ⟨_, -, rfl⟩ := List.mem_map.1 hp
    obtain ⟨_, -, rfl⟩ := List.mem_map.1 hq
    have hlength : chosen.length = chosen'.length :=
      (ascending_of_mem_subsets hmem).1.trans (ascending_of_mem_subsets hmem').1.symm
    exact Or.inr ⟨hlength, Or.inl hlt⟩

/-- All pairings come in order. -/
theorem pairwise_before_pairings (left right : Nat) :
    (pairings left right).Pairwise Pairing.Before := by
  rw [pairings_eq_flatMap, List.pairwise_flatMap]
  refine ⟨fun m _ => pairwise_before_pairingsOfSize left right m, ?_⟩
  -- Of two sizes the smaller comes first.
  refine List.Pairwise.imp (fun {m m'} hlt p hp q hq => Or.inl ?_) List.pairwise_lt_range'
  rw [length_right_of_mem hp, length_right_of_mem hq]
  exact hlt

theorem nodup_pairings (left right : Nat) : (pairings left right).Nodup :=
  (pairwise_before_pairings left right).imp Pairing.Before.ne

/-! ## §3 Number -/

/-- With `m` literals on the right, each has any of the left-hand literals as its partner. -/
theorem length_pairingsOfSize (left : Nat) {right m : Nat} (hm : m ≤ right)
    (hlimit : right.choose m ≤ countLimit) :
    (pairingsOfSize left right m).length = right.choose m * left ^ m := by
  simp [pairingsOfSize, List.length_flatMap, length_tuples, length_subsets hm hlimit]

/-- The number of pairings, as long as no count is cut off. -/
theorem length_pairings (left : Nat) {right : Nat} (hlimit : ∀ m, right.choose m ≤ countLimit) :
    (pairings left right).length = (left + 1) ^ right - 1 := by
  have hsizes : (pairings left right).length =
      ((List.range' 1 right).map fun m => right.choose m * left ^ m).sum := by
    rw [pairings_eq_flatMap, List.length_flatMap]
    congr 1
    refine List.map_congr_left fun m hm => length_pairingsOfSize left ?_ (hlimit m)
    have := List.mem_range'_1.1 hm
    omega
  -- By the binomial theorem, the empty choice included.
  have hall : (left + 1) ^ right = (pairings left right).length + 1 := by
    calc (left + 1) ^ right
        = ∑ m ∈ Finset.range (right + 1), right.choose m * left ^ m := by
          simp [add_pow, Nat.mul_comm]
      _ = (∑ m ∈ Finset.range right, right.choose (m + 1) * left ^ (m + 1)) + 1 := by
          rw [Finset.sum_range_succ']
          simp
      _ = (pairings left right).length + 1 := by
          rw [hsizes, List.range'_eq_map_range, List.map_map]
          simp only [Function.comp_def, Nat.add_comm 1]
          rfl
  omega

/-- If no number of subsets of the right-hand literals passes `2 ^ 64 - 1`, then the pairings are
the maps from a non-empty set of right-hand numbers to left-hand numbers, as an ascending list with
the list of the partners. They come in order, so that each is listed once, there are
`(left + 1) ^ right - 1` of them, and a search tries them one after the other. -/
theorem pairings_exact (left right : Nat) (hlimit : ∀ m, right.choose m ≤ 2 ^ 64 - 1) :
    (∀ p, p ∈ pairings left right ↔ p.Valid left right) ∧
      (pairings left right).Nodup ∧
      (pairings left right).length = (left + 1) ^ right - 1 ∧
      (pairings left right).Pairwise Pairing.Before ∧
      ∀ f, Pairing.any left right f = Logged.any (pairings left right) f :=
  ⟨fun _ => ⟨valid_of_mem_pairings, mem_pairings_of_valid hlimit⟩, nodup_pairings left right,
    length_pairings left hlimit, pairwise_before_pairings left right, Pairing.any_eq left right⟩

/-- With 67 right-hand literals no number of subsets is cut off yet. -/
theorem pairings_exact_three_sixtySeven :
    (∀ m, Nat.choose 67 m ≤ 2 ^ 64 - 1) ∧
      (pairings 3 67).length = 4 ^ 67 - 1 ∧ (⟨[2, 0], [5, 66]⟩ : Pairing) ∈ pairings 3 67 := by
  have hlimit : ∀ m, Nat.choose 67 m ≤ 2 ^ 64 - 1 := choose_le_countLimit le_rfl
  have hvalid : (⟨[2, 0], [5, 66]⟩ : Pairing).Valid 3 67 :=
    ⟨by decide, by decide, by decide, by decide, by decide⟩
  obtain ⟨hmem, -, hlength, -⟩ := pairings_exact 3 67 hlimit
  exact ⟨hlimit, hlength, (hmem _).2 hvalid⟩

end ExistentialRules
