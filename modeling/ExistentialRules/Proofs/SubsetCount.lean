import Mathlib.Algebra.Group.Nat.Defs
import ExistentialRules.Proofs.Enumeration

/-!
# Counting subsets in machine words

The number of subsets of a given size is multiplied up round by round. Numbers are unbounded here,
but nothing in the rounds needs more than machine words: for sets of 64-bit size the products stay
below 128 bits, no difference goes below zero, and no division leaves a remainder.

All of this follows from one invariant: in round `i` the count is the number of subsets of size `i`,
and it has not passed the limit.

## Main definitions

* `CountingReaches`: the rounds that a count comes to.

## Main statements

* `CountingReaches.binomial_eq`: from each round on, counting gives the same result;
* `CountingReaches.count_eq_choose`, `CountingReaches.count_le`: the invariant;
* `binomial_fits_words`: what the invariant means for machine words.
-/

namespace ExistentialRules

/-! ## §1 Rounds -/

/-- Counting the `k`-element subsets of an `n`-element set comes to round `i`, and before this round
the count is `count`. -/
inductive CountingReaches (n k : Nat) : Nat → Nat → Prop where
  /-- Counting starts with the one subset of size 0. -/
  | start (hk : k ≤ n) : CountingReaches n k 0 1
  /-- A round in which the limit is not passed leads to the next one. -/
  | next {i count : Nat} (h : CountingReaches n k i count) (hi : i < min k (n - k))
      (hcount : count * (n - i) / (i + 1) ≤ countLimit) :
      CountingReaches n k (i + 1) (count * (n - i) / (i + 1))

namespace CountingReaches

variable {n k i count : Nat}

theorem le_size (h : CountingReaches n k i count) : k ≤ n := by
  induction h with
  | start hk => exact hk
  | next _ _ _ ih => exact ih

/-- What is left of the count, from each round that is come to, gives the result. -/
theorem binomial_eq (h : CountingReaches n k i count) :
    binomial n k = chooseFrom n (min k (n - k) - i) i count := by
  induction h with
  | start hk => simp [binomial, Nat.not_lt.2 hk]
  | @next i count _ hi hcount ih =>
    -- There is a round to come, and as it does not pass the limit, counting goes on after it.
    have hsteps : min k (n - k) - i = (min k (n - k) - (i + 1)) + 1 := by omega
    rw [ih, hsteps, chooseFrom]
    simp [Nat.not_lt.2 hcount]

/-- Before round `i`, the count is the number of subsets of size `i`. -/
theorem count_eq_choose (h : CountingReaches n k i count) : count = n.choose i := by
  -- By induction on the rounds, the quotient being the number for the next size.
  induction h with
  | start hk => exact (Nat.choose_zero_right n).symm
  | next _ _ _ ih => rw [ih, choose_mul_sub_div]

/-- No count that is come to has passed the limit. -/
theorem count_le (h : CountingReaches n k i count) : count ≤ countLimit := by
  cases h with
  | start hk => decide
  | next _ _ hcount => exact hcount

/-- A round that passes the limit comes before the final count does so too, for up to the middle the
counts grow. -/
theorem countLimit_lt_choose (h : CountingReaches n k i count) (hi : i < min k (n - k))
    (hpassed : countLimit < count * (n - i) / (i + 1)) : countLimit < n.choose k := by
  rw [h.count_eq_choose, choose_mul_sub_div] at hpassed
  calc countLimit < n.choose (i + 1) := hpassed
    _ ≤ n.choose (min k (n - k)) := choose_le_choose_of_le_half hi (by omega)
    _ = n.choose k := choose_min_sub h.le_size

/-- The product of a round fits in 128 bits. -/
theorem mul_lt_of_lt (h : CountingReaches n k i count) (hn : n < 2 ^ 64) :
    count * (n - i) < 2 ^ 128 := by
  -- The test of the round before bounds one factor, the size of the set bounds the other.
  have hcount : count < 2 ^ 64 := Nat.lt_of_le_of_lt h.count_le (by decide)
  calc count * (n - i) ≤ count * n := Nat.mul_le_mul_left count (Nat.sub_le n i)
    _ < 2 ^ 64 * 2 ^ 64 := Nat.mul_lt_mul'' hcount hn
    _ = 2 ^ 128 := (Nat.pow_add 2 64 64).symm

end CountingReaches

/-! ## §2 Machine words -/

/-- For 64-bit numbers the result is the number of subsets, cut off at `2 ^ 64 - 1`; there are none
if more elements are asked for than there are. In every round the difference does not go below zero,
the product fits in 128 bits and the division is exact. If a round passes the limit, at which point
counting ends, then so does the number of subsets asked for. -/
theorem binomial_fits_words (n k : UInt64) :
    binomial n.toNat k.toNat = min (n.toNat.choose k.toNat) (2 ^ 64 - 1) ∧
      (n < k → binomial n.toNat k.toNat = 0) ∧
      ∀ i count, CountingReaches n.toNat k.toNat i count →
        binomial n.toNat k.toNat =
            chooseFrom n.toNat (min k.toNat (n.toNat - k.toNat) - i) i count ∧
          (i < min k.toNat (n.toNat - k.toNat) →
            i < n.toNat ∧
              count * (n.toNat - i) < 2 ^ 128 ∧
              i + 1 ∣ count * (n.toNat - i) ∧
              (2 ^ 64 - 1 < count * (n.toNat - i) / (i + 1) →
                2 ^ 64 - 1 < n.toNat.choose k.toNat)) := by
  refine ⟨binomial_eq_min n.toNat k.toNat, fun hlt => ?_, fun i count h => ⟨h.binomial_eq, ?_⟩⟩
  · simp [binomial, UInt64.lt_iff_toNat_lt.1 hlt]
  · intro hi
    -- The product counts the subsets of the next size, each once for every element in it.
    have hdvd : i + 1 ∣ count * (n.toNat - i) := by
      rw [h.count_eq_choose, ← Nat.choose_succ_right_eq]
      exact Nat.dvd_mul_left (i + 1) _
    exact ⟨by omega, h.mul_lt_of_lt n.toNat_lt, hdvd, h.countLimit_lt_choose hi⟩

end ExistentialRules
