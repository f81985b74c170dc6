import ExistentialRules.Proofs.Enumeration
import ExistentialRules.Proofs.MostGeneral
import ExistentialRules.Proofs.Occurrence
import ExistentialRules.Reliance.Positive

/-!
# The unifier of a pairing

A pairing has a unifier exactly if some assignment makes its paired literals equal. Conversely, an
assignment under which chosen right-hand literals become equal to left-hand literals gives a pairing
that covers exactly the chosen literals, and this pairing is among those that are tried.

## Main statements

* `Pairing.wellFormed_of_unifier`, `Pairing.respects_iff_of_unifier`: what is known of a unifier;
* `Pairing.exists_partner`, `Pairing.under_substitution_eq`: every covered literal has a partner,
  and the unifier makes the two equal;
* `Pairing.exists_signature_eq`: literals with a unifier have one signature;
* `exists_pairing`: an assignment gives a pairing with a unifier that it respects.
-/

namespace ExistentialRules

namespace Pairing

/-! ## §1 The pairs of a pairing -/

section

variable {p : Pairing} {left right : List Literal}

/-- The literals at paired numbers are paired, where both are there. -/
theorem mem_pairs {l r : Literal} :
    (l, r) ∈ p.pairs left right ↔
      ∃ i j, (i, j) ∈ p.left.zip p.right ∧ left[i]? = some l ∧ right[j]? = some r := by
  simp only [pairs, List.mem_filterMap, Prod.exists]
  refine exists_congr fun i => exists_congr fun j => and_congr_right fun _ => ?_
  -- A pair of numbers counts only if there is a literal on either side.
  cases left[i]? with
  | none => simp
  | some l' =>
    cases right[j]? with
    | none => simp
    | some r' => simp

theorem mem_covered {l : Literal} : l ∈ p.covered right ↔ ∃ j ∈ p.right, right[j]? = some l :=
  List.mem_filterMap

theorem covers_iff {j : Nat} : p.covers j = true ↔ j ∈ p.right :=
  List.contains_iff_mem

theorem mem_uncovered {l : Literal} :
    l ∈ p.uncovered right ↔ ∃ j, right[j]? = some l ∧ j ∉ p.right := by
  simp only [uncovered, List.mem_map, List.mem_filter, Prod.exists, List.mem_zipIdx_iff_getElem?,
    Bool.not_eq_true', ← Bool.not_eq_true, covers_iff]
  constructor
  · rintro ⟨_, j, ⟨hj, hnot⟩, rfl⟩
    exact ⟨j, hj, hnot⟩
  · rintro ⟨j, hj, hnot⟩
    exact ⟨l, j, ⟨hj, hnot⟩, rfl⟩

/-- Every literal takes part or does not. -/
theorem mem_covered_or_uncovered {l : Literal} (hl : l ∈ right) :
    l ∈ p.covered right ∨ l ∈ p.uncovered right := by
  obtain ⟨j, hj⟩ := List.getElem?_of_mem hl
  by_cases hcovered : j ∈ p.right
  · exact Or.inl (mem_covered.2 ⟨j, hcovered, hj⟩)
  · exact Or.inr (mem_uncovered.2 ⟨j, hj, hcovered⟩)

/-- The literals with a variable all take part exactly if no other literal has the variable. -/
theorem literalsWith_all_covers_iff {r : Rule} {side : Side} {v : Variable} :
    ((RuleIndex.ofRule r).literalsWith side v).all p.covers = true ↔
      ∀ l ∈ p.uncovered (r.literalsOn side), v ∉ l.occurringVariables := by
  simp only [List.all_eq_true, covers_iff, RuleIndex.mem_literalsWith]
  constructor
  · intro h l hl hv
    obtain ⟨j, hj, hnot⟩ := mem_uncovered.1 hl
    exact hnot (h j ⟨l, hj, hv⟩)
  · intro h j hj
    obtain ⟨l, hl, hv⟩ := hj
    by_contra hnot
    exact h l (mem_uncovered.2 ⟨j, hl, hnot⟩) hv

theorem mem_left_of_mem_pairs {l r : Literal} (h : (l, r) ∈ p.pairs left right) : l ∈ left := by
  obtain ⟨i, j, -, hl, -⟩ := mem_pairs.1 h
  exact List.mem_of_getElem? hl

theorem mem_covered_of_mem_pairs {l r : Literal} (h : (l, r) ∈ p.pairs left right) :
    r ∈ p.covered right := by
  obtain ⟨i, j, hij, -, hr⟩ := mem_pairs.1 h
  exact mem_covered.2 ⟨j, (List.of_mem_zip hij).2, hr⟩

/-- Every literal that takes part has a partner. -/
theorem exists_partner (hp : p.Valid left.length right.length) {r : Literal}
    (hr : r ∈ p.covered right) : ∃ l, (l, r) ∈ p.pairs left right := by
  obtain ⟨j, hj, hr⟩ := mem_covered.1 hr
  -- The partner stands at the same position of the left-hand numbers.
  obtain ⟨k, hk, hjk⟩ := List.getElem_of_mem hj
  have hkleft : k < p.left.length := by rw [hp.length_eq]; exact hk
  have hi : p.left[k] < left.length := hp.left_lt _ (List.getElem_mem hkleft)
  refine ⟨left[p.left[k]], mem_pairs.2 ⟨p.left[k], j, ?_, List.getElem?_eq_getElem hi, hr⟩⟩
  refine List.mem_of_getElem? (i := k) ?_
  rw [List.getElem?_zip_eq_some]
  exact ⟨List.getElem?_eq_getElem hkleft, by rw [List.getElem?_eq_getElem hk, hjk]⟩

/-! ## §2 The unifier -/

/-- The term stands in a left-hand literal or in a right-hand literal that takes part. -/
def Uses (p : Pairing) (left right : List Literal) (t : Term) : Prop :=
  (∃ l ∈ left, t ∈ l.arguments) ∨ ∃ r ∈ p.covered right, t ∈ r.arguments

/-- A class with a fresh value has no rigid term: that would stand in one of the rules. -/
theorem rigid_eq_none_of_freshFor {r₁ r₂ : Rule} (hleft : ∀ l ∈ left, l ∈ r₁.body ++ r₁.head)
    (hright : ∀ l ∈ right, l ∈ r₂.body ++ r₂.head) {c : VariableClass}
    (hc : c.Valid (p.Uses left right)) {θ : Assignment} {a : Term} (hvalue : c.HasValue θ a)
    {I : Finset Literal} (ha : a.FreshFor I [r₁, r₂]) : c.rigid = none := by
  by_contra hsome
  obtain ⟨t, ht⟩ := Option.ne_none_iff_exists'.1 hsome
  obtain ⟨hrigid, huses⟩ := hc.rigid t ht
  rw [hvalue.2 t ht] at hrigid huses
  rcases huses with ⟨l, hl, hmem⟩ | ⟨l, hl, hmem⟩
  · exact ha.not_mentions hrigid r₁ (by simp) ⟨l, hleft l hl, hmem⟩
  · obtain ⟨j, -, hj⟩ := mem_covered.1 hl
    exact ha.not_mentions hrigid r₂ (by simp) ⟨l, hright l (List.mem_of_getElem? hj), hmem⟩

/-- Pairs of literals are unified as the equations between them are. -/
theorem toOption_unifyAll (u : Unifier) (ps : List (Literal × Literal)) :
    (unifyAll u ps).toOption =
      let step := u.unifyAll (ps.map fun pair => .literals pair.1 pair.2)
      if step.ok then some step.unifier else none := by
  induction ps generalizing u with
  | nil => rfl
  | cons pair ps ih =>
    obtain ⟨l, r⟩ := pair
    have hstep : u.unify (.literals l r) = u.unifyLiterals l r := rfl
    -- Both runs stop at the same pair.
    by_cases hok : (u.unifyLiterals l r).ok = true
    · simpa [unifyAll, Unifier.unifyAll, hstep, hok] using ih _
    · simp [unifyAll, Unifier.unifyAll, hstep, hok, Except.toOption]

/-- The run over all pairs has as solutions the assignments under which paired literals are equal.
-/
theorem meets_unifier :
    (Unifier.empty.unifyAll ((p.pairs left right).map fun pair => .literals pair.1 pair.2)).Meets
      (p.Uses left right) .empty
      fun θ => ∀ pair ∈ p.pairs left right, pair.1.under θ = pair.2.under θ := by
  have hover : ∀ e ∈ (p.pairs left right).map fun pair => Equation.literals pair.1 pair.2,
      e.Over (p.Uses left right) := by
    intro e he
    obtain ⟨⟨l, r⟩, hpair, rfl⟩ := List.mem_map.1 he
    exact ⟨fun t ht => Or.inl ⟨l, mem_left_of_mem_pairs hpair, ht⟩,
      fun t ht => Or.inr ⟨r, mem_covered_of_mem_pairs hpair, ht⟩⟩
  refine (Unifier.meets_unifyAll (Unifier.wellFormed_empty _) hover).congr fun θ _ => ?_
  simp only [List.forall_mem_map]
  rfl

/-- The unifier of a pairing has only terms of the paired literals in its classes. -/
theorem wellFormed_of_unifier {u : Unifier} (hu : p.unifier? left right = some u) :
    u.WellFormed (p.Uses left right) := by
  rw [unifier?, toOption_unifyAll] at hu
  dsimp only at hu
  split at hu
  · cases hu
    exact meets_unifier.wellFormed
  · cases hu

/-- The assignments that respect the unifier are those under which paired literals are equal. -/
theorem respects_iff_of_unifier {u : Unifier} (hu : p.unifier? left right = some u)
    (θ : Assignment) :
    u.Respects θ ↔ ∀ pair ∈ p.pairs left right, pair.1.under θ = pair.2.under θ := by
  rw [unifier?, toOption_unifyAll] at hu
  dsimp only at hu
  split at hu
  · rename_i hok
    cases hu
    rw [meets_unifier.solutions hok θ]
    exact and_iff_right (Unifier.respects_empty θ)
  · cases hu

/-- The substitution of a unifier makes paired literals equal, whatever stands for the classes. -/
theorem under_substitution_eq {u : Unifier} (hu : p.unifier? left right = some u)
    (rank : Variable → Nat) {l r : Literal} (hpair : (l, r) ∈ p.pairs left right) :
    l.under (u.substitution rank).applyVariable = r.under (u.substitution rank).applyVariable :=
  (respects_iff_of_unifier hu _).1 ((wellFormed_of_unifier hu).respects_substitution rank) _ hpair

/-- If the literals of a pairing have a unifier, then there is a literal of the same signature on
either side. -/
theorem exists_signature_eq (hp : p.Valid left.length right.length) {u : Unifier}
    (hu : p.unifier? left right = some u) :
    ∃ l ∈ left, ∃ r ∈ right, l.signature = r.signature := by
  obtain ⟨j, hj⟩ := List.exists_mem_of_ne_nil p.right hp.nonempty
  have hr := List.getElem?_eq_getElem (hp.right_lt j hj)
  obtain ⟨l, hpair⟩ := exists_partner hp (mem_covered.2 ⟨j, hj, hr⟩)
  -- Literals that can be made equal have one signature, since substitutions keep it.
  have hequal := under_substitution_eq hu (fun _ => 0) hpair
  refine ⟨l, mem_left_of_mem_pairs hpair, _, List.mem_of_getElem? hr, ?_⟩
  simpa using congrArg Literal.signature hequal

/-- If some assignment makes paired literals equal, then there is a unifier. -/
theorem exists_unifier {θ : Assignment}
    (hθ : ∀ pair ∈ p.pairs left right, pair.1.under θ = pair.2.under θ) :
    ∃ u, p.unifier? left right = some u := by
  rw [unifier?, toOption_unifyAll]
  dsimp only
  split
  · exact ⟨_, rfl⟩
  · rename_i hfail
    -- A failed run has no solution, but `θ` is one.
    have hclash := meets_unifier.clash (by simpa using hfail) θ (Unifier.respects_empty θ)
    exact absurd hθ hclash

end

/-! ## §3 Pairings from assignments -/

/-- Each of the given right-hand literals goes with its partner. -/
def ofPartner (partner : Nat → Nat) (chosen : List Nat) : Pairing :=
  ⟨chosen.map partner, chosen⟩

section

variable {left right : List Literal} {partner : Nat → Nat} {chosen : List Nat}

/-- The pairs are those of a chosen literal and its partner. -/
theorem mem_pairs_ofPartner {l r : Literal} :
    (l, r) ∈ (ofPartner partner chosen).pairs left right ↔
      ∃ j ∈ chosen, left[partner j]? = some l ∧ right[j]? = some r := by
  have hzip : (ofPartner partner chosen).left.zip (ofPartner partner chosen).right =
      chosen.map fun j => (partner j, j) := by
    rw [ofPartner, List.zip_map_left, List.zip_eq_zipWith, List.zipWith_self]
    simp
  rw [mem_pairs, hzip]
  constructor
  · intro h
    obtain ⟨i, j, hij, hl, hr⟩ := h
    obtain ⟨j', hj', heq⟩ := List.mem_map.1 hij
    cases heq
    exact ⟨j, hj', hl, hr⟩
  · intro h
    obtain ⟨j, hj, hl, hr⟩ := h
    exact ⟨partner j, j, List.mem_map.2 ⟨j, hj, rfl⟩, hl, hr⟩

/-- A choice of partners is a pairing, if something is chosen and all numbers are in range. -/
theorem valid_ofPartner (hne : chosen ≠ []) (hascending : chosen.Pairwise (· < ·))
    (hright : ∀ j ∈ chosen, j < right.length) (hleft : ∀ j ∈ chosen, partner j < left.length) :
    (ofPartner partner chosen).Valid left.length right.length where
  nonempty := hne
  ascending := hascending
  right_lt := hright
  length_eq := by simp [ofPartner]
  left_lt := List.forall_mem_map.2 hleft

end

end Pairing

/-- If every chosen right-hand literal becomes equal to a left-hand literal under an assignment,
then some pairing that is tried covers exactly the chosen literals, and the assignment respects its
unifier. -/
theorem exists_pairing {left right : List Literal}
    (hlimit : ∀ m, right.length.choose m ≤ countLimit) (chosen : Literal → Prop) {θ : Assignment}
    (hsome : ∃ r ∈ right, chosen r)
    (hpartner : ∀ r ∈ right, chosen r → ∃ l ∈ left, l.under θ = r.under θ) :
    ∃ p ∈ pairings left.length right.length,
      (∀ j r, right[j]? = some r → (j ∈ p.right ↔ chosen r)) ∧
        ∃ u, p.unifier? left right = some u ∧ u.Respects θ := by
  classical
  have hindex : ∀ j : Nat, (∃ r, right[j]? = some r ∧ chosen r) →
      ∃ i : Nat, ∃ l : Literal, left[i]? = some l ∧
        ∃ r : Literal, right[j]? = some r ∧ l.under θ = r.under θ := by
    intro j hj
    obtain ⟨r, hr, hchosen⟩ := hj
    obtain ⟨l, hl, heq⟩ := hpartner r (List.mem_of_getElem? hr) hchosen
    obtain ⟨i, hi⟩ := List.getElem?_of_mem hl
    exact ⟨i, l, hi, r, hr, heq⟩
  -- Choose a partner for every chosen literal, by numbers.
  choose! partner hpartner using hindex
  -- All numbers of chosen literals, in ascending order.
  let js := (List.range right.length).filter fun j => ∃ r, right[j]? = some r ∧ chosen r
  have hjs : ∀ j, j ∈ js ↔ ∃ r, right[j]? = some r ∧ chosen r := by
    intro j
    simp only [js, List.mem_filter, List.mem_range, decide_eq_true_eq, and_iff_right_iff_imp]
    rintro ⟨r, hr, -⟩
    exact (List.getElem?_eq_some_iff.1 hr).1
  -- They are a pairing, and one that is tried.
  have hvalid : (Pairing.ofPartner partner js).Valid left.length right.length := by
    refine Pairing.valid_ofPartner ?_ (List.pairwise_lt_range.filter _) (fun j hj => ?_)
      fun j hj => ?_
    · obtain ⟨r, hr, hchosen⟩ := hsome
      obtain ⟨j, hj⟩ := List.getElem?_of_mem hr
      exact List.ne_nil_of_mem ((hjs j).2 ⟨r, hj, hchosen⟩)
    · exact List.mem_range.1 (List.mem_of_mem_filter hj)
    · obtain ⟨l, hl, -⟩ := hpartner j ((hjs j).1 hj)
      exact (List.getElem?_eq_some_iff.1 hl).1
  -- The partners were chosen so that the assignment makes the literals equal.
  have hθ : ∀ pair ∈ (Pairing.ofPartner partner js).pairs left right,
      pair.1.under θ = pair.2.under θ := by
    intro pair hpair
    obtain ⟨j, hj, hl, hr⟩ := Pairing.mem_pairs_ofPartner.1 hpair
    obtain ⟨l, hl', r, hr', heq⟩ := hpartner j ((hjs j).1 hj)
    rw [hl, Option.some.injEq] at hl'
    rw [hr, Option.some.injEq] at hr'
    rw [hl', hr', heq]
  obtain ⟨u, hu⟩ := Pairing.exists_unifier hθ
  refine ⟨_, mem_pairings_of_valid hlimit hvalid, fun j r hr => (hjs j).trans ?_, u, hu,
    (Pairing.respects_iff_of_unifier hu θ).2 hθ⟩
  simp [hr]

end ExistentialRules
