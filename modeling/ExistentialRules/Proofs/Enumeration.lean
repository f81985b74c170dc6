import Mathlib.Data.List.Sort
import Mathlib.Data.Nat.Choose.Basic
import ExistentialRules.Pairing

/-!
# The enumeration of subsets and pairings is complete

The cursor over the subsets of a given size moves from one ascending list of positions to the next.
This module lists the same subsets by recursion on their size, shows that the cursor goes through
this list from its start, and counts it. As long as no count is cut off at the limit, the cursor
therefore gives out every subset, and every pairing is tried.

## Main statements

* `binomial_eq_min`: the count is the binomial coefficient, cut off at the limit;
* `SubsetCursor.givesOut_new`, `subsets_eq_take`: the cursor goes through the list of all subsets up
  to its count;
* `valid_of_mem_pairings`, `mem_pairings_of_valid`: the pairings that are tried.
-/

namespace ExistentialRules

/-! ## §1 Counting -/

theorem choose_le_choose_of_le_half {n a b : Nat} (hab : a ≤ b) (hb : b ≤ n / 2) :
    n.choose a ≤ n.choose b := by
  induction b, hab using Nat.le_induction with
  | base => exact le_rfl
  | succ b _ ih =>
    calc n.choose a ≤ n.choose b := ih (by omega)
      _ ≤ n.choose (b + 1) := Nat.choose_le_succ_of_lt_half_left (by omega)

/-- From the subsets of one size to those of the next; the division is exact. -/
theorem choose_mul_sub_div (n i : Nat) : n.choose i * (n - i) / (i + 1) = n.choose (i + 1) := by
  rw [← Nat.choose_succ_right_eq]
  exact Nat.mul_div_cancel _ (Nat.succ_pos i)

/-- Counting step by step gives the number of subsets, or the limit if the number passes it. -/
theorem chooseFrom_eq_min (n steps i : Nat) (hhalf : i + steps ≤ n / 2)
    (hcount : n.choose i ≤ countLimit) :
    chooseFrom n steps i (n.choose i) = min (n.choose (i + steps)) countLimit := by
  -- By induction on the steps that are left; the count so far is exact.
  induction steps generalizing i with
  | zero => simp [chooseFrom, hcount]
  | succ steps ih =>
    have hsteps : i + (steps + 1) = i + 1 + steps := by omega
    rw [chooseFrom, choose_mul_sub_div, hsteps]
    split
    -- Past the limit the coefficients still grow, up to the middle.
    · have hgrow : n.choose (i + 1) ≤ n.choose (i + 1 + steps) :=
        choose_le_choose_of_le_half (by omega) (by omega)
      omega
    · exact ih (i + 1) (by omega) (by omega)

/-- Counting goes up to the smaller of a subset and its complement only. -/
theorem choose_min_sub {n k : Nat} (hk : k ≤ n) : n.choose (min k (n - k)) = n.choose k := by
  rcases Nat.le_total k (n - k) with h | h
  · rw [Nat.min_eq_left h]
  · rw [Nat.min_eq_right h, Nat.choose_symm hk]

/-- The count is the number of subsets, cut off at the limit. -/
theorem binomial_eq_min (n k : Nat) : binomial n k = min (n.choose k) countLimit := by
  unfold binomial
  split
  · rename_i hlt
    simp [Nat.choose_eq_zero_of_lt hlt]
  · rename_i hle
    have hfrom := chooseFrom_eq_min n (min k (n - k)) 0 (by omega) (by simp [countLimit])
    rw [Nat.choose_zero_right, Nat.zero_add, choose_min_sub (Nat.le_of_not_lt hle)] at hfrom
    exact hfrom

/-- Up to 67 elements no count of subsets passes the limit. -/
theorem choose_le_countLimit {n : Nat} (hn : n ≤ 67) (m : Nat) : n.choose m ≤ countLimit := by
  calc n.choose m ≤ (67).choose m := Nat.choose_le_choose m hn
    _ ≤ (67).choose 33 := Nat.choose_le_middle m 67
    _ ≤ countLimit := by
      rw [Nat.choose_eq_descFactorial_div_factorial]
      decide

/-! ## §2 The ascending lists -/

/-- The ascending lists of length `k` with entries from `lo` on, the first entry at most `room`, the
second at most `room + 1` and so on, in lexicographic order. -/
def ascendingLists : Nat → Nat → Nat → List (List Nat)
  | 0, _, _ => [[]]
  | k + 1, room, lo =>
    (List.range' lo (room + 1 - lo)).flatMap fun p =>
      (ascendingLists k (room + 1) (p + 1)).map (p :: ·)

/-- The lists that begin with the least possible entry come before all others. -/
theorem ascendingLists_succ (k : Nat) {room lo : Nat} (hlo : lo ≤ room) :
    ascendingLists (k + 1) room lo =
      (ascendingLists k (room + 1) (lo + 1)).map (lo :: ·) ++
        ascendingLists (k + 1) room (lo + 1) := by
  have hcount : room + 1 - lo = (room + 1 - (lo + 1)) + 1 := by omega
  simp only [ascendingLists]
  rw [hcount, List.range'_succ, List.flatMap_cons]

theorem ascendingLists_of_lt (k : Nat) {room lo : Nat} (hlo : room < lo) :
    ascendingLists (k + 1) room lo = [] := by
  have hcount : room + 1 - lo = 0 := by omega
  simp [ascendingLists, hcount]

/-- There are as many ascending lists as subsets of their length. -/
theorem length_ascendingLists {k room lo : Nat} (hlo : lo ≤ room + 1) :
    (ascendingLists k room lo).length = (room + k - lo).choose k := by
  induction k generalizing room lo with
  | zero => simp [ascendingLists]
  | succ k ihk =>
    -- Within one length the lists are counted from the largest first entry downwards.
    induction hd : room + 1 - lo generalizing lo with
    | zero =>
      have heq : room + (k + 1) - lo = k := by omega
      rw [ascendingLists_of_lt k (by omega), heq]
      simp
    | succ d ihd =>
      have hfirst : room + 1 + k - (lo + 1) = room + k - lo := by omega
      have hrest : room + (k + 1) - (lo + 1) = room + k - lo := by omega
      have hall : room + (k + 1) - lo = room + k - lo + 1 := by omega
      rw [ascendingLists_succ k (by omega), List.length_append, List.length_map,
        ihk (by omega), ihd (by omega) (by omega), hfirst, hrest, hall, Nat.choose_succ_succ]

/-- Above the first entry of an ascending list there is room for the others. -/
theorem add_length_lt_of_pairwise {p b : Nat} {ps : List Nat} (hasc : (p :: ps).Pairwise (· < ·))
    (hb : ∀ x ∈ p :: ps, x < b) : p + ps.length < b := by
  induction ps generalizing p with
  | nil => simpa using hb p List.mem_cons_self
  | cons q qs ih =>
    obtain ⟨hp, hrest⟩ := List.pairwise_cons.1 hasc
    have hpq : p < q := hp q List.mem_cons_self
    have hq := ih hrest fun x hx => hb x (List.mem_cons_of_mem _ hx)
    simp only [List.length_cons]
    omega

/-- Ascending lists are listed exactly if their entries are within the bounds. -/
theorem mem_ascendingLists {k room lo : Nat} {xs : List Nat} :
    xs ∈ ascendingLists k room lo ↔
      xs.length = k ∧ xs.Pairwise (· < ·) ∧ ∀ x ∈ xs, lo ≤ x ∧ x < room + k := by
  induction k generalizing room lo xs with
  | zero =>
    simp only [ascendingLists, List.mem_singleton]
    constructor
    · rintro rfl
      simp
    · rintro ⟨hlength, -⟩
      exact List.length_eq_zero_iff.1 hlength
  | succ k ih =>
    simp only [ascendingLists, List.mem_flatMap, List.mem_map, List.mem_range'_1, ih]
    constructor
    -- The rest of the list begins above its first entry.
    · rintro ⟨p, hp, ps, ⟨hlength, hasc, hbounds⟩, rfl⟩
      refine ⟨by simp [hlength], List.pairwise_cons.2 ⟨fun x hx => ?_, hasc⟩, fun x hx => ?_⟩
      · have := (hbounds x hx).1
        omega
      · rcases List.mem_cons.1 hx with rfl | hx
        · omega
        · have := hbounds x hx
          omega
    · rintro ⟨hlength, hasc, hbounds⟩
      cases xs with
      | nil => simp at hlength
      | cons p ps =>
        have hps : ps.length = k := by simpa using hlength
        have hp := hbounds p List.mem_cons_self
        -- The later entries need room above the first one.
        have hroom := add_length_lt_of_pairwise hasc fun x hx => (hbounds x hx).2
        obtain ⟨habove, hasc⟩ := List.pairwise_cons.1 hasc
        refine ⟨p, by omega, ps, ⟨hps, hasc, fun x hx => ?_⟩, rfl⟩
        have := habove x hx
        have := (hbounds x (List.mem_cons_of_mem _ hx)).2
        omega

/-! ## §3 The cursor -/

namespace SubsetCursor

/-- After the positions `x` the cursor gives out the lists `L`, and then nothing more. -/
def Follows (room : Nat) : List Nat → List (List Nat) → Prop
  | x, [] => advance room x = none
  | x, y :: ys => advance room x = some y ∧ Follows room y ys

/-- A cursor on the later positions goes through all its lists before the first position moves. -/
theorem follows_cons {room p : Nat} {x : List Nat} {L M : List (List Nat)}
    (hL : Follows (room + 1) x L)
    (hlast : ∀ y ∈ x :: L, advance (room + 1) y = none → Follows room (p :: y) M) :
    Follows room (p :: x) (L.map (p :: ·) ++ M) := by
  induction L generalizing x with
  | nil => exact hlast x List.mem_cons_self hL
  | cons y ys ih =>
    obtain ⟨hxy, hys⟩ := hL
    refine ⟨by simp [advance, hxy], ih hys fun z hz => ?_⟩
    exact hlast z (List.mem_cons_of_mem _ hz)

/-- The cursor starts with the least list and goes through all of them. -/
theorem follows_ascendingLists {k room lo : Nat} (hlo : lo ≤ room) :
    ∃ rest, ascendingLists k room lo = List.range' lo k :: rest ∧
      Follows room (List.range' lo k) rest := by
  induction k generalizing room lo with
  | zero => exact ⟨[], rfl, rfl⟩
  | succ k ihk =>
    -- For one length, by induction on how far the first entry can still go up.
    induction hd : room - lo generalizing lo with
    | zero =>
      have hlo : lo = room := by omega
      subst hlo
      obtain ⟨rest, hlists, hfollows⟩ := ihk (Nat.le_refl (lo + 1))
      refine ⟨rest.map (lo :: ·), ?_, ?_⟩
      · rw [ascendingLists_succ k (Nat.le_refl lo), ascendingLists_of_lt k (Nat.lt_succ_self lo),
          hlists, List.range'_succ]
        simp
      · have hlast : ∀ y ∈ List.range' (lo + 1) k :: rest, advance (lo + 1) y = none →
            Follows lo (lo :: y) [] := by
          intro y _ hnone
          simp [Follows, advance, hnone]
        simpa [List.range'_succ] using follows_cons hfollows hlast
    | succ d ihd =>
      obtain ⟨rest, hlists, hfollows⟩ := ihk (show lo + 1 ≤ room + 1 by omega)
      obtain ⟨later, hlater, hlaterFollows⟩ := ihd (show lo + 1 ≤ room by omega) (by omega)
      refine ⟨rest.map (lo :: ·) ++ ascendingLists (k + 1) room (lo + 1), ?_, ?_⟩
      · rw [ascendingLists_succ k (by omega), hlists, List.range'_succ]
        simp
      · rw [hlater, List.range'_succ]
        refine follows_cons hfollows fun y hy hnone => ⟨?_, hlaterFollows⟩
        -- All tails have the same length, so that the step up leads to the least list again.
        have hlength : y.length = k := (mem_ascendingLists.1 (hlists ▸ hy)).1
        have hroom : lo < room := by omega
        simp [advance, hnone, hroom, hlength]

/-- The cursor gives out the masks, one with each call, and then nothing more. Its count of the
masks still to come is right at every point. -/
def GivesOut : SubsetCursor → List (List Bool) → Prop
  | c, [] => c.remaining = 0
  | c, mask :: masks =>
    c.remaining = masks.length + 1 ∧ ∃ c', c.next? = some (mask, c') ∧ GivesOut c' masks

theorem GivesOut.remaining_eq {c : SubsetCursor} {masks : List (List Bool)}
    (h : GivesOut c masks) : c.remaining = masks.length := by
  cases masks with
  | nil => exact h
  | cons mask masks => exact h.1

/-- The first calls give out the first masks. -/
theorem GivesOut.take_eq {c : SubsetCursor} {masks : List (List Bool)} (h : GivesOut c masks)
    (count : Nat) : (c.take count).1 = masks.take count := by
  -- By induction on the calls, from the cursor that each of them leaves behind.
  induction count generalizing c masks with
  | zero => simp [take]
  | succ count ih =>
    cases masks with
    | nil =>
      have hend : c.remaining = 0 := h
      simp [take, next?, hend]
    | cons mask masks =>
      obtain ⟨-, c', hnext, h'⟩ := h
      simp [take, hnext, ih h']

theorem GivesOut.toList_eq {c : SubsetCursor} {masks : List (List Bool)} (h : GivesOut c masks) :
    c.toList = masks := by
  rw [toList, h.take_eq, h.remaining_eq, List.take_length]

/-- A cursor whose count does not go beyond the lists that follow gives out as many of them. -/
theorem givesOut_of_follows {n k : Nat} {x : List Nat} {L : List (List Nat)}
    (hL : Follows (n - k) x L) {r : Nat} (hr : r ≤ L.length) :
    GivesOut ⟨n, k, some x, r⟩ ((L.take r).map (maskOf n)) := by
  induction r generalizing x L with
  | zero => simp [GivesOut]
  | succ r ih =>
    cases L with
    | nil => simp at hr
    | cons y ys =>
      obtain ⟨hxy, hys⟩ := hL
      have hr' : r ≤ ys.length := by simpa using hr
      refine ⟨by simp [hr'], ⟨n, k, some y, r⟩, ?_, ih hys hr'⟩
      simp [next?, upcoming, hxy]

/-- A new cursor gives out the least subsets, as many as were counted. -/
theorem givesOut_new {n k : Nat} (hk : k ≤ n) :
    ∃ c, new n k = .ok c ∧
      GivesOut c (((ascendingLists k (n - k) 0).take (binomial n k)).map (maskOf n)) := by
  obtain ⟨rest, hlists, hfollows⟩ := follows_ascendingLists (k := k) (Nat.zero_le (n - k))
  -- No more masks are counted than there are lists.
  have hcount : binomial n k ≤ rest.length + 1 := by
    have hlength := length_ascendingLists (k := k) (Nat.zero_le (n - k + 1))
    rw [hlists, List.length_cons, Nat.sub_zero, Nat.sub_add_cancel hk] at hlength
    rw [hlength, binomial_eq_min]
    exact Nat.min_le_left _ _
  refine ⟨⟨n, k, none, binomial n k⟩, by simp [new, Nat.not_lt.2 hk], ?_⟩
  rw [hlists]
  cases hb : binomial n k with
  | zero => simp [GivesOut]
  | succ r =>
    -- The first call gives out the least list, and from there on the cursor follows the others.
    have hr : r ≤ rest.length := by omega
    refine ⟨by simp [hr], ⟨n, k, some (List.range' 0 k), r⟩, ?_, givesOut_of_follows hfollows hr⟩
    simp [next?, upcoming, List.range_eq_range']

end SubsetCursor

/-- A mask can be read back: the positions that it selects are those it was made of. -/
theorem selected_maskOf {n : Nat} {ps : List Nat} (hasc : ps.Pairwise (· < ·))
    (hn : ∀ p ∈ ps, p < n) : selected (maskOf n ps) = ps := by
  have hselected : selected (maskOf n ps) = (List.range n).filter fun p => p ∈ ps := by
    simp only [selected, maskOf, List.zipIdx_map]
    rw [List.zipIdx_eq_zip_range']
    simp only [List.length_range, ← List.range_eq_range', List.zip_eq_zipWith, List.zipWith_self]
    simp [List.filter_map, Function.comp_def]
  rw [hselected]
  -- Two ascending lists with the same entries are equal.
  refine List.Pairwise.eq_of_mem_iff (List.pairwise_lt_range.filter _) hasc fun p => ?_
  simp only [List.mem_filter, List.mem_range, decide_eq_true_eq]
  exact ⟨And.right, fun hp => ⟨hn p hp, hp⟩⟩

theorem selected_maskOf_of_mem {n k : Nat} (hk : k ≤ n) {xs : List Nat}
    (hxs : xs ∈ ascendingLists k (n - k) 0) : selected (maskOf n xs) = xs := by
  obtain ⟨-, hasc, hbounds⟩ := mem_ascendingLists.1 hxs
  refine selected_maskOf hasc fun p hp => ?_
  have := (hbounds p hp).2
  omega

/-- The cursor goes through the list of all subsets until its count is used up. -/
theorem subsets_eq_take {n k : Nat} (hk : k ≤ n) :
    subsets n k = (ascendingLists k (n - k) 0).take (binomial n k) := by
  obtain ⟨c, hnew, hc⟩ := SubsetCursor.givesOut_new hk
  simp only [subsets, hnew, hc.toList_eq, List.map_map]
  refine (List.map_congr_left fun xs hxs => ?_).trans (List.map_id _)
  exact selected_maskOf_of_mem hk (List.mem_of_mem_take hxs)

/-- Below the limit the count is not used up too early. -/
theorem subsets_eq_ascendingLists {n k : Nat} (hk : k ≤ n) (hlimit : n.choose k ≤ countLimit) :
    subsets n k = ascendingLists k (n - k) 0 := by
  have hall : (ascendingLists k (n - k) 0).length ≤ binomial n k := by
    rw [length_ascendingLists (Nat.zero_le _), binomial_eq_min, Nat.min_eq_left hlimit,
      Nat.sub_zero, Nat.sub_add_cancel hk]
  rw [subsets_eq_take hk, List.take_of_length_le hall]

/-- Below the limit no ascending list is left out. -/
theorem mem_subsets_of_ascending {n k : Nat} (hlimit : n.choose k ≤ countLimit) {xs : List Nat}
    (hlength : xs.length = k) (hasc : xs.Pairwise (· < ·)) (hn : ∀ x ∈ xs, x < n) (hk : k ≤ n) :
    xs ∈ subsets n k := by
  rw [subsets_eq_ascendingLists hk hlimit, mem_ascendingLists]
  refine ⟨hlength, hasc, fun x hx => ⟨Nat.zero_le x, ?_⟩⟩
  have := hn x hx
  omega

/-- Every subset that is given out is an ascending list, cut off or not. -/
theorem ascending_of_mem_subsets {n k : Nat} {xs : List Nat} (hxs : xs ∈ subsets n k) :
    xs.length = k ∧ xs.Pairwise (· < ·) ∧ ∀ x ∈ xs, x < n := by
  by_cases hk : k ≤ n
  · rw [subsets_eq_take hk] at hxs
    obtain ⟨hlength, hasc, hbounds⟩ := mem_ascendingLists.1 (List.mem_of_mem_take hxs)
    refine ⟨hlength, hasc, fun x hx => ?_⟩
    have := (hbounds x hx).2
    omega
  · simp [subsets, SubsetCursor.new, Nat.lt_of_not_le hk] at hxs

/-! ## §4 Pairings -/

/-- Tuples are all lists of a length whose entries are below a bound. -/
theorem mem_tuples {bound length : Nat} {xs : List Nat} :
    xs ∈ tuples bound length ↔ xs.length = length ∧ ∀ x ∈ xs, x < bound := by
  -- By induction on the length; the first entry is free below the bound.
  induction length generalizing xs with
  | zero =>
    simp only [tuples, List.mem_singleton]
    constructor
    · rintro rfl
      simp
    · rintro ⟨hlength, -⟩
      exact List.length_eq_zero_iff.1 hlength
  | succ length ih =>
    simp only [tuples, List.mem_flatMap, List.mem_range, List.mem_map, ih]
    constructor
    · rintro ⟨i, hi, ys, ⟨hlength, hys⟩, rfl⟩
      exact ⟨by simp [hlength], List.forall_mem_cons.2 ⟨hi, hys⟩⟩
    · rintro ⟨hlength, hxs⟩
      cases xs with
      | nil => simp at hlength
      | cons i ys =>
        obtain ⟨hi, hys⟩ := List.forall_mem_cons.1 hxs
        exact ⟨i, hi, ys, ⟨by simpa using hlength, hys⟩, rfl⟩

/-- The pairing maps a non-empty subset of the right-hand numbers, in ascending order, to left-hand
numbers. -/
structure Pairing.Valid (left right : Nat) (p : Pairing) : Prop where
  nonempty : p.right ≠ []
  ascending : p.right.Pairwise (· < ·)
  right_lt : ∀ j ∈ p.right, j < right
  length_eq : p.left.length = p.right.length
  left_lt : ∀ i ∈ p.left, i < left

/-- Every pairing that is tried maps a non-empty subset. -/
theorem valid_of_mem_pairings {left right : Nat} {p : Pairing} (hp : p ∈ pairings left right) :
    p.Valid left right := by
  simp only [pairings, List.mem_flatMap, List.mem_map, List.mem_range'_1] at hp
  obtain ⟨m, hm, chosen, hchosen, images, himages, rfl⟩ := hp
  obtain ⟨hlength, hasc, hlt⟩ := ascending_of_mem_subsets hchosen
  obtain ⟨hcount, hbound⟩ := mem_tuples.1 himages
  refine ⟨?_, hasc, hlt, hcount.trans hlength.symm, hbound⟩
  rintro rfl
  simp at hlength
  omega

/-- If no count of subsets passes the limit, then every map from a non-empty subset is tried. -/
theorem mem_pairings_of_valid {left right : Nat} (hlimit : ∀ m, right.choose m ≤ countLimit)
    {p : Pairing} (hp : p.Valid left right) : p ∈ pairings left right := by
  have hpositive : 0 < p.right.length := List.length_pos_iff.2 hp.nonempty
  -- A subset of the right-hand numbers is no longer than there are numbers.
  have hle : p.right.length ≤ right := by
    cases hright : p.right with
    | nil => exact absurd hright hp.nonempty
    | cons j js =>
      have hasc := hp.ascending
      have hlt := hp.right_lt
      rw [hright] at hasc hlt
      have := add_length_lt_of_pairwise hasc hlt
      simp only [List.length_cons]
      omega
  simp only [pairings, List.mem_flatMap, List.mem_map, List.mem_range'_1]
  exact ⟨p.right.length, by omega, p.right,
    mem_subsets_of_ascending (hlimit _) rfl hp.ascending hp.right_lt hle,
    p.left, mem_tuples.2 ⟨hp.length_eq, hp.left_lt⟩, rfl⟩

end ExistentialRules
