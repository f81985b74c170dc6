import Mathlib.Data.List.Basic
import Mathlib.Data.List.Nodup
import Mathlib.Data.Nat.Basic
import Mathlib.Logic.Relation
import Mathlib.Order.Interval.Set.Defs
import Mathlib.Order.Monotone.Basic
import ExistentialRules.Ascending

/-!
# Ascending lists and renumbering

An ascending list is determined by its elements. So two of them are equal as soon as they have the
same elements, however they were come by.

A family of sets of numbers is an ascending list of ascending lists. Where some numbers are left out
and the others are renumbered without a change of their order, the family restricted to the numbers
that are kept is the renumbered one.

## Main definitions

* `Ascending.restrict`: a family of sets with some numbers left out.

## Main statements

* `Ascending.Strict.ext`: ascending lists with the same elements are equal;
* `Ascending.find?_eq_some_iff`: what is found first is the least;
* `reflTransGen_renumbered_iff`: paths between renumbered nodes;
* `Ascending.restrict_eq_map`: a restricted family is a renumbered one.
-/

namespace ExistentialRules

open Relation Std

/-! ## §1 Paths -/

/-- If the steps from a renumbered node are the renumbered steps, then so are the paths. -/
theorem reflTransGen_renumbered_iff {f : Nat → Nat} {m : Nat} {r r' : Nat → Nat → Prop}
    (hbelow : ∀ i < m, ∀ j, r' i j → j < m)
    (hstep : ∀ i < m, ∀ b, r (f i) b ↔ ∃ j, r' i j ∧ f j = b) {i : Nat} (hi : i < m) {b : Nat} :
    ReflTransGen r (f i) b ↔ ∃ j < m, ReflTransGen r' i j ∧ f j = b := by
  refine ⟨fun h => ?_, fun h => ?_⟩
  -- By induction on the path, step by step from its beginning.
  · induction h with
    | refl => exact ⟨i, hi, .refl, rfl⟩
    | tail _ hxy ih =>
      obtain ⟨j, hj, hij, rfl⟩ := ih
      obtain ⟨k, hjk, rfl⟩ := (hstep j hj _).1 hxy
      exact ⟨k, hbelow j hj k hjk, hij.tail hjk, rfl⟩
  · obtain ⟨j, -, hij, rfl⟩ := h
    induction hij using ReflTransGen.head_induction_on with
    | refl => exact .refl
    | head hij' _ ih =>
      exact ReflTransGen.head ((hstep _ hi _).2 ⟨_, hij', rfl⟩) (ih (hbelow _ hi _ hij'))

namespace Ascending

/-! ## §2 Elements -/

section Elements

variable {α : Type} [Ord α] [LawfulEqOrd α] {xs ys : List α}

theorem Strict.nodup (h : Strict xs) : xs.Nodup := by
  refine List.Pairwise.imp (fun {a b} hlt heq => ?_) h
  rw [heq, compare_self] at hlt
  cases hlt

variable [TransOrd α]

/-- A list without repetitions only has its order changed. -/
theorem perm_ofList (h : xs.Nodup) : (ofList xs).Perm xs :=
  (List.perm_ext_iff_of_nodup (strict_ofList xs).nodup h).2 fun x => mem_ofList x xs

/-- Ascending lists with the same elements are equal. -/
theorem Strict.ext (hxs : Strict xs) (hys : Strict ys) (h : ∀ a, a ∈ xs ↔ a ∈ ys) : xs = ys := by
  -- Without repetitions, they differ in the order only, and the order is given.
  refine List.Perm.eq_of_pairwise (fun a b _ _ hab hba => ?_) hxs hys
    ((List.perm_ext_iff_of_nodup hxs.nodup hys.nodup).2 h)
  rw [OrientedCmp.gt_of_lt hab] at hba
  cases hba

omit [LawfulEqOrd α] [TransOrd α] in
theorem Strict.map {β : Type} [Ord β] {f : α → β} (hxs : Strict xs)
    (hf : ∀ a ∈ xs, ∀ b ∈ xs, compare a b = .lt → compare (f a) (f b) = .lt) :
    Strict (xs.map f) :=
  List.pairwise_map.2 (hxs.imp_of_mem fun {a b} ha hb => hf a ha b hb)

/-- Where the keys are ascending, the first entry with a property is the one with the least key. -/
theorem find?_eq_some_iff {β : Type} {key : β → α} {entries : List β}
    (hkeys : entries.Pairwise fun b c => compare (key b) (key c) = .lt) {p : β → Bool} {b : β} :
    entries.find? p = some b ↔
      b ∈ entries ∧ p b = true ∧
        ∀ c ∈ entries, p c = true → (compare (key b) (key c)).isLE = true := by
  -- Those before it do not have the property, and those after it have larger keys.
  have hfirst : ∀ {b}, entries.find? p = some b →
      ∀ c ∈ entries, p c = true → (compare (key b) (key c)).isLE = true := by
    intro b hb c hc hpc
    obtain ⟨-, before, after, rfl, hbefore⟩ := List.find?_eq_some_iff_append.1 hb
    have hafter := (List.pairwise_cons.1 (List.pairwise_append.1 hkeys).2.1).1
    rcases List.mem_append.1 hc with hc | hc
    · have hnot := hbefore c hc
      rw [hpc] at hnot
      cases hnot
    · rcases List.mem_cons.1 hc with rfl | hc
      · rw [compare_self]
        rfl
      · rw [hafter c hc]
        rfl
  refine ⟨fun hb => ⟨List.mem_of_find?_eq_some hb, List.find?_some hb, hfirst hb⟩, fun h => ?_⟩
  obtain ⟨hb, hpb, hleast⟩ := h
  obtain ⟨c, hc⟩ := Option.isSome_iff_exists.1 (List.find?_isSome.2 ⟨b, hb, hpb⟩)
  have hcmem := List.mem_of_find?_eq_some hc
  -- Both have the least key, and no key is listed twice.
  have hequal : key c = key b := LawfulEqOrd.eq_of_compare (OrientedCmp.isLE_antisymm
    (hfirst hc b hb hpb) (hleast c hcmem (List.find?_some hc)))
  have hstrict : Strict (entries.map key) := List.pairwise_map.2 hkeys
  rw [hc, List.inj_on_of_nodup_map hstrict.nodup hcmem hb hequal]

end Elements

theorem strict_range (n : Nat) : Strict (List.range n) :=
  List.pairwise_lt_range.imp Nat.compare_eq_lt.2

/-! ## §3 Renumbering -/

section Renumbering

variable {f : Nat → Nat} {m : Nat} (hf : StrictMonoOn f (Set.Iio m))

include hf

theorem Strict.map_below {c : List Nat} (hc : Strict c) (hm : ∀ i ∈ c, i < m) :
    Strict (c.map f) :=
  hc.map fun i hi j hj hij =>
    Nat.compare_eq_lt.2 (hf (hm i hi) (hm j hj) (Nat.compare_eq_lt.1 hij))

/-- Sets keep their order too, by induction on the common beginning of two of them. -/
theorem compare_map_lt {c d : List Nat} (hc : ∀ i ∈ c, i < m) (hd : ∀ i ∈ d, i < m)
    (hlt : compare c d = .lt) : compare (c.map f) (d.map f) = .lt := by
  induction c generalizing d with
  | nil =>
    cases d with
    | nil => cases hlt
    | cons j d => rfl
  | cons i c ih =>
    cases d with
    | nil => cases hlt
    | cons j d =>
      obtain ⟨hi, hc⟩ := List.forall_mem_cons.1 hc
      obtain ⟨hj, hd⟩ := List.forall_mem_cons.1 hd
      rw [List.compare_cons_cons, Ordering.then_eq_lt] at hlt
      rw [List.map_cons, List.map_cons, List.compare_cons_cons, Ordering.then_eq_lt]
      rcases hlt with hij | ⟨hij, hlt⟩
      · exact Or.inl (Nat.compare_eq_lt.2 (hf hi hj (Nat.compare_eq_lt.1 hij)))
      · rw [Nat.compare_eq_eq.1 hij]
        exact Or.inr ⟨compare_self, ih hc hd hlt⟩

theorem Strict.map_map_below {L : List (List Nat)} (hL : Strict L)
    (hm : ∀ c ∈ L, ∀ i ∈ c, i < m) : Strict (L.map (List.map f)) :=
  hL.map fun c hc d hd hlt => compare_map_lt hf (hm c hc) (hm d hd) hlt

theorem mem_map_iff_of_lt {c : List Nat} (hc : ∀ i ∈ c, i < m) {i : Nat} (hi : i < m) :
    f i ∈ c.map f ↔ i ∈ c := by
  refine ⟨fun hmem => ?_, fun hmem => List.mem_map_of_mem hmem⟩
  obtain ⟨j, hj, hji⟩ := List.mem_map.1 hmem
  rwa [← hf.injOn (hc j hj) hi hji]

/-- An ascending list of renumbered numbers comes from one. -/
theorem Strict.exists_map_eq {c : List Nat} (hc : Strict c) (hmem : ∀ a ∈ c, ∃ i < m, f i = a) :
    ∃ c', Strict c' ∧ (∀ i ∈ c', i < m) ∧ c'.map f = c := by
  -- It is the list of all numbers that are sent into the given one.
  have hm : ∀ i ∈ (List.range m).filter fun i => f i ∈ c, i < m :=
    fun i hi => List.mem_range.1 (List.mem_of_mem_filter hi)
  have hstrict : Strict ((List.range m).filter fun i => f i ∈ c) :=
    List.Pairwise.filter _ (strict_range m)
  refine ⟨_, hstrict, hm, (hstrict.map_below hf hm).ext hc fun a => ⟨fun ha => ?_, fun ha => ?_⟩⟩
  · obtain ⟨i, hi, rfl⟩ := List.mem_map.1 ha
    simpa using (List.mem_filter.1 hi).2
  · obtain ⟨i, hi, rfl⟩ := hmem a ha
    exact List.mem_map_of_mem (List.mem_filter.2 ⟨List.mem_range.2 hi, by simpa using ha⟩)

end Renumbering

/-! ## §4 Restriction -/

/-- Leave out the numbers without a certain property, and the sets of which nothing is left. -/
def restrict (p : Nat → Bool) (L : List (List Nat)) : List (List Nat) :=
  (L.map (List.filter p)).filter fun c => !c.isEmpty

section Restriction

variable {p : Nat → Bool} {L : List (List Nat)}

/-- If no set is divided, then whole sets are left out. -/
theorem restrict_eq_filter
    (hwhole : ∀ c ∈ L, c ≠ [] ∧ ((∀ i ∈ c, p i = true) ∨ ∀ i ∈ c, p i = false)) :
    restrict p L = L.filter fun c => c.all p := by
  unfold restrict
  induction L with
  | nil => rfl
  | cons c L ih =>
    obtain ⟨⟨hc, hcases⟩, hL⟩ := List.forall_mem_cons.1 hwhole
    rw [List.map_cons, List.filter_cons, List.filter_cons, ih hL]
    -- A set is kept as it is, or nothing is left of it.
    rcases hcases with hall | hnone
    · have hkept : c.filter p = c := List.filter_eq_self.2 hall
      have hall' : c.all p = true := List.all_eq_true.2 hall
      simp [hkept, hall', hc]
    · have hleft : c.filter p = [] :=
        List.filter_eq_nil_iff.2 fun i hi => by simp [hnone i hi]
      have hnot : c.all p = false := by
        obtain ⟨i, hi⟩ := List.exists_mem_of_ne_nil c hc
        exact List.all_eq_false.2 ⟨i, hi, by simp [hnone i hi]⟩
      simp [hleft, hnot]

/-- A restricted family is a renumbered one. -/
theorem restrict_eq_map {f : Nat → Nat} {m : Nat} (hf : StrictMonoOn f (Set.Iio m))
    {L' : List (List Nat)} (hL : Strict L) (hL' : Strict L')
    (hwhole : ∀ c ∈ L, c ≠ [] ∧ ((∀ i ∈ c, p i = true) ∨ ∀ i ∈ c, p i = false))
    (hm : ∀ c ∈ L', ∀ i ∈ c, i < m)
    (hmem : ∀ c, (c ∈ L ∧ ∀ i ∈ c, p i = true) ↔ ∃ c' ∈ L', c'.map f = c) :
    restrict p L = L'.map (List.map f) := by
  rw [restrict_eq_filter hwhole]
  apply Strict.ext (List.Pairwise.filter _ hL) (hL'.map_map_below hf hm)
  intro c
  rw [List.mem_filter, List.all_eq_true, hmem, List.mem_map]

end Restriction

end Ascending

end ExistentialRules
