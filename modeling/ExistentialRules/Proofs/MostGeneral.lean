import Mathlib.Data.List.Pairwise
import Mathlib.Tactic.ByContra
import ExistentialRules.Pairing
import ExistentialRules.Proofs.Assignment

/-!
# Unifiers are most general

A unifier stands for all assignments that give the members of each class one value. Every operation
on unifiers is described by how it changes this set of assignments; the equations that were met so
far are then exactly what the assignments of the unifier have in common.

## Main definitions

* `Unifier.WellFormed`: classes are disjoint and not empty, and all terms come from a given set;
* `Unifier.Respects`: the assignments that a unifier stands for;
* `Unifier.Step.Meets`: what one step does to them.

## Main statements

* `Unifier.meets_unifyTerms`, `Unifier.meets_unifyLiterals`, `Unifier.meets_unifyAll`: one step, and
  a run of steps;
* `Unifier.unifyAll_mostGeneral`: success is solvability, and the substitution of a unifier is an
  idempotent most general solution for every rank.
-/

namespace ExistentialRules

/-! ## §1 Classes -/

namespace VariableClass

/-- The class has a member, is bound to a rigid term if to any, and all its terms are in `T`. -/
structure Valid (T : Term → Prop) (c : VariableClass) : Prop where
  nonempty : c.members ≠ []
  members : ∀ v ∈ c.members, T (.var v)
  rigid : ∀ t, c.rigid = some t → t.isRigid = true ∧ T t

/-- Two classes have no member in common. -/
def Disjoint (c d : VariableClass) : Prop :=
  ∀ v ∈ c.members, v ∉ d.members

/-- Under the assignment, all that the class makes equal is equal to `a`. -/
def HasValue (c : VariableClass) (θ : Assignment) (a : Term) : Prop :=
  (∀ v ∈ c.members, θ v = a) ∧ ∀ t, c.rigid = some t → t = a

instance : Std.Symm Disjoint where
  symm _ _ h v hv hv' := h v hv' hv

theorem valid_singleton {T : Term → Prop} {v : Variable} (hv : T (.var v)) :
    (singleton v).Valid T where
  nonempty := by simp [singleton]
  members := by simpa [singleton] using hv
  rigid := by simp [singleton]

/-- Binding a class leaves the members of every class as they are. -/
theorem members_bound (c d : VariableClass) (t : Term) :
    (if d = c then { c with rigid := some t } else d).members = d.members := by
  split
  · rename_i hdc
    rw [hdc]
  · rfl

theorem mem_members_absorb {kept gone : VariableClass} {v : Variable} :
    v ∈ (kept.absorb gone).members ↔ v ∈ gone.members ∨ v ∈ kept.members := by
  simp [absorb]

/-- A class that takes in another one has the terms of both. -/
theorem valid_absorb {T : Term → Prop} {kept gone : VariableClass} (hkept : kept.Valid T)
    (hgone : gone.Valid T) : (kept.absorb gone).Valid T where
  nonempty := by
    obtain ⟨v, hv⟩ := List.exists_mem_of_ne_nil _ hkept.nonempty
    exact List.ne_nil_of_mem (mem_members_absorb.2 (Or.inr hv))
  members := by
    intro v hv
    rcases mem_members_absorb.1 hv with hv | hv
    · exact hgone.members v hv
    · exact hkept.members v hv
  rigid := by
    intro t ht
    -- The rigid term is that of the kept class, or of the other one if the kept class has none.
    rcases Option.or_eq_some_iff.1 ht with ht | ⟨-, ht⟩
    · exact hkept.rigid t ht
    · exact hgone.rigid t ht

theorem compatible_comm (c d : VariableClass) : c.compatible d = d.compatible c := by
  unfold compatible
  cases c.rigid with
  | none => cases d.rigid <;> rfl
  | some s =>
    cases d.rigid with
    | none => rfl
    | some t => simp [eq_comm]

/-- Classes that can have the same value are not bound to different terms. -/
theorem compatible_of_hasValue {c d : VariableClass} {θ : Assignment} {a : Term}
    (hc : c.HasValue θ a) (hd : d.HasValue θ a) : c.compatible d = true := by
  unfold compatible
  split
  · rename_i s t hs ht
    rw [hc.2 s hs, hd.2 t ht]
    simp
  · rfl

/-- The kept rigid term wins, but compatible classes have the same one, if both have one. -/
theorem rigid_absorb_iff {kept gone : VariableClass} (hcompatible : kept.compatible gone = true)
    {t : Term} :
    (kept.absorb gone).rigid = some t ↔ kept.rigid = some t ∨ gone.rigid = some t := by
  unfold compatible at hcompatible
  cases hk : kept.rigid with
  | none => simp [absorb, hk]
  | some s =>
    cases hg : gone.rigid with
    | none => simp [absorb, hk, hg]
    | some s' =>
      have hss : s = s' := by simpa [hk, hg] using hcompatible
      simp [absorb, hk, hss]

/-- What two compatible classes make equal separately, they make equal as one class. -/
theorem hasValue_absorb_iff {kept gone : VariableClass} (hcompatible : kept.compatible gone = true)
    (θ : Assignment) (a : Term) :
    (kept.absorb gone).HasValue θ a ↔ kept.HasValue θ a ∧ gone.HasValue θ a := by
  simp only [HasValue, rigid_absorb_iff hcompatible, mem_members_absorb, or_imp, forall_and]
  constructor
  · rintro ⟨⟨hgm, hkm⟩, hk, hg⟩
    exact ⟨⟨hkm, hk⟩, hgm, hg⟩
  · rintro ⟨⟨hkm, hk⟩, hgm, hg⟩
    exact ⟨⟨hgm, hkm⟩, hk, hg⟩

end VariableClass

/-! ## §2 Unifiers and the assignments they stand for -/

namespace Unifier

/-- The classes are valid and no two of them share a member. -/
structure WellFormed (T : Term → Prop) (u : Unifier) : Prop where
  valid : ∀ c ∈ u.classes, c.Valid T
  disjoint : u.classes.Pairwise VariableClass.Disjoint

/-- Under the assignment, every class has one value. -/
def Respects (u : Unifier) (θ : Assignment) : Prop :=
  ∀ c ∈ u.classes, ∃ a, c.HasValue θ a

theorem wellFormed_empty (T : Term → Prop) : empty.WellFormed T where
  valid := by simp [empty]
  disjoint := List.Pairwise.nil

theorem respects_empty (θ : Assignment) : empty.Respects θ := by
  intro c hc
  simp [empty] at hc

section

variable {T : Term → Prop} {u : Unifier} (hu : u.WellFormed T)

include hu

theorem WellFormed.eq_of_mem_members {c d : VariableClass} {v : Variable} (hc : c ∈ u.classes)
    (hd : d ∈ u.classes) (hcv : v ∈ c.members) (hdv : v ∈ d.members) : c = d := by
  by_contra hne
  exact hu.disjoint.forall hc hd hne v hcv hdv

/-- The class that is found for a variable is the one that contains it. -/
theorem WellFormed.class?_eq_some_iff {c : VariableClass} {v : Variable} :
    u.class? v = some c ↔ c ∈ u.classes ∧ v ∈ c.members := by
  constructor
  · intro h
    exact ⟨List.mem_of_find?_eq_some h, by simpa using List.find?_some h⟩
  · rintro ⟨hc, hv⟩
    -- Some class is found, and no other class can contain the variable.
    cases hfound : u.class? v with
    | none =>
      have habsent := List.find?_eq_none.1 hfound c hc
      simp [hv] at habsent
    | some d =>
      have hd : d ∈ u.classes := List.mem_of_find?_eq_some hfound
      have hdv : v ∈ d.members := by simpa using List.find?_some hfound
      rw [hu.eq_of_mem_members hd hc hdv hv]

/-- A test of the class of a variable, if it has one. -/
theorem WellFormed.class?_test_iff (v : Variable) (test : VariableClass → Bool) :
    (match u.class? v with
      | none => true
      | some c => test c) = true ↔
        ∀ c ∈ u.classes, v ∈ c.members → test c = true := by
  have hclasses : (∀ c ∈ u.classes, v ∈ c.members → test c = true) ↔
      ∀ c, u.class? v = some c → test c = true := by
    simp only [hu.class?_eq_some_iff, and_imp]
  rw [hclasses]
  cases u.class? v with
  | none => simp
  | some c => simp

end

theorem class?_eq_none_iff {u : Unifier} {v : Variable} :
    u.class? v = none ↔ ∀ c ∈ u.classes, v ∉ c.members := by
  simp [class?]

/-! ## §3 What one step does -/

/-- The step adds exactly the condition `E` to the assignments that `u` stands for; if it fails,
then no such assignment meets the condition. -/
structure Step.Meets (T : Term → Prop) (u : Unifier) (E : Assignment → Prop) (s : Step) : Prop where
  wellFormed : s.unifier.WellFormed T
  solutions : s.ok = true → ∀ θ, s.unifier.Respects θ ↔ u.Respects θ ∧ E θ
  clash : s.ok = false → ∀ θ, u.Respects θ → ¬ E θ

/-- A condition may be replaced by one that comes to the same where it matters. -/
theorem Step.Meets.congr {T : Term → Prop} {u : Unifier} {E F : Assignment → Prop} {s : Step}
    (h : s.Meets T u E) (hEF : ∀ θ, u.Respects θ → (E θ ↔ F θ)) : s.Meets T u F where
  wellFormed := h.wellFormed
  solutions := by
    intro hok θ
    rw [h.solutions hok θ]
    exact and_congr_right (hEF θ)
  clash := by
    intro hok θ hθ hF
    exact h.clash hok θ hθ ((hEF θ hθ).2 hF)

/-- What a step does is the same for two unifiers that stand for the same assignments. -/
theorem Step.Meets.of_respects_iff {T : Term → Prop} {u u' : Unifier} {E : Assignment → Prop}
    {s : Step} (h : s.Meets T u' E) (hu : ∀ θ, u'.Respects θ ↔ u.Respects θ) : s.Meets T u E where
  wellFormed := h.wellFormed
  solutions := by
    intro hok θ
    rw [h.solutions hok θ, hu θ]
  clash := by
    intro hok θ hθ
    exact h.clash hok θ ((hu θ).2 hθ)

/-- Going on after a step that succeeded adds both conditions. -/
theorem Step.Meets.andThen {T : Term → Prop} {u : Unifier} {E F : Assignment → Prop}
    {s s' : Step} (h : s.Meets T u E) (h' : s'.Meets T s.unifier F) :
    (if s.ok then s' else s).Meets T u fun θ => E θ ∧ F θ := by
  cases hok : s.ok with
  | true =>
    refine ⟨h'.wellFormed, fun hok' θ => ?_, fun hok' θ hθ hEF => ?_⟩
    · rw [if_pos rfl, h'.solutions hok' θ, h.solutions hok θ, and_assoc]
    · exact h'.clash hok' θ ((h.solutions hok θ).2 ⟨hθ, hEF.1⟩) hEF.2
  -- The second step is not taken, and the first condition alone cannot be met.
  | false =>
    refine ⟨h.wellFormed, fun hok' => ?_, fun _ θ hθ hEF => ?_⟩
    · simp [hok] at hok'
    · exact h.clash hok θ hθ hEF.1

section

variable {T : Term → Prop} {u : Unifier}

/-- A step that leaves the unifier as it is decides a condition that is settled already. -/
theorem meets_unchanged (hu : u.WellFormed T) {E : Assignment → Prop} (ok : Bool)
    (hE : ∀ θ, u.Respects θ → (E θ ↔ ok = true)) : Step.Meets T u E ⟨ok, u⟩ where
  wellFormed := hu
  solutions := by
    rintro rfl θ
    exact ⟨fun hθ => ⟨hθ, (hE θ hθ).2 rfl⟩, And.left⟩
  clash := by
    rintro rfl θ hθ hEθ
    exact absurd ((hE θ hθ).1 hEθ) (by simp)

/-- A class has the value of any of its members. -/
theorem Respects.hasValue_iff {θ : Assignment} (hθ : u.Respects θ) {c : VariableClass}
    (hc : c ∈ u.classes) {v : Variable} (hv : v ∈ c.members) (a : Term) :
    c.HasValue θ a ↔ θ v = a := by
  -- The class has some value, and the member has the same one.
  obtain ⟨b, hb⟩ := hθ c hc
  have hvb : θ v = b := hb.1 v hv
  constructor
  · intro h
    exact h.1 v hv
  · rintro rfl
    rwa [hvb]

/-! ### Registering -/

/-- Registering a variable opens a class for it, unless it has one. -/
theorem wellFormed_register (hu : u.WellFormed T) {v : Variable} (hv : T (.var v)) :
    (u.register v).WellFormed T := by
  unfold register
  cases hclass : u.class? v with
  | some c => exact hu
  -- A new class has a variable that is in no other class.
  | none =>
    have habsent := class?_eq_none_iff.1 hclass
    refine ⟨fun c hc => ?_, List.pairwise_append.2 ⟨hu.disjoint, List.pairwise_singleton _ _, ?_⟩⟩
    · rcases List.mem_append.1 hc with hc | hc
      · exact hu.valid c hc
      · rw [List.mem_singleton.1 hc]
        exact VariableClass.valid_singleton hv
    · intro c hc d hd w hw hwd
      rw [List.mem_singleton.1 hd] at hwd
      rw [List.mem_singleton.1 hwd] at hw
      exact habsent c hc hw

/-- A class of its own puts no condition on a variable. -/
theorem respects_register (v : Variable) (θ : Assignment) :
    (u.register v).Respects θ ↔ u.Respects θ := by
  unfold register
  cases hclass : u.class? v with
  | some c => rfl
  | none =>
    have hsingleton : ∃ a, (VariableClass.singleton v).HasValue θ a :=
      ⟨θ v, by simp [VariableClass.HasValue, VariableClass.singleton]⟩
    simp [Respects, or_imp, forall_and, hsingleton]

theorem exists_class_register (v : Variable) : ∃ c ∈ (u.register v).classes, v ∈ c.members := by
  unfold register
  cases hclass : u.class? v with
  | some c =>
    exact ⟨c, List.mem_of_find?_eq_some hclass, by simpa using List.find?_some hclass⟩
  | none => exact ⟨.singleton v, by simp, by simp [VariableClass.singleton]⟩

theorem mem_register_of_mem {c : VariableClass} (v : Variable) (hc : c ∈ u.classes) :
    c ∈ (u.register v).classes := by
  unfold register
  cases u.class? v with
  | some d => exact hc
  | none => exact List.mem_append.2 (Or.inl hc)

theorem classOf_mem {v : Variable} (h : ∃ c ∈ u.classes, v ∈ c.members) :
    u.classOf v ∈ u.classes ∧ v ∈ (u.classOf v).members := by
  unfold classOf
  cases hclass : u.class? v with
  | some c => exact ⟨List.mem_of_find?_eq_some hclass, by simpa using List.find?_some hclass⟩
  | none =>
    obtain ⟨c, hc, hv⟩ := h
    exact absurd hv (class?_eq_none_iff.1 hclass c hc)

/-! ### Binding and merging -/

/-- Binding a class changes its rigid term only, and only if it had none. -/
theorem wellFormed_bindRigid (hu : u.WellFormed T) (c : VariableClass) {t : Term}
    (ht : t.isRigid = true) (hT : T t) : (u.bindRigid c t).unifier.WellFormed T := by
  unfold bindRigid
  split
  · exact hu
  · refine ⟨fun d hd => ?_, ?_⟩
    · obtain ⟨e, he, rfl⟩ := List.mem_map.1 hd
      refine ⟨by rw [VariableClass.members_bound]; exact (hu.valid e he).nonempty,
        by rw [VariableClass.members_bound]; exact (hu.valid e he).members, ?_⟩
      split
      · rintro s ⟨⟩
        exact ⟨ht, hT⟩
      · exact (hu.valid e he).rigid
    -- The members are as before, so that the classes are still disjoint.
    · refine List.pairwise_map.2 (hu.disjoint.imp fun {d e} hde => ?_)
      unfold VariableClass.Disjoint at hde ⊢
      rwa [VariableClass.members_bound c d, VariableClass.members_bound c e]

/-- Binding the class of a variable to a term adds the condition that the variable has it as its
value. -/
theorem meets_bindRigid (hu : u.WellFormed T) {c : VariableClass} (hc : c ∈ u.classes)
    {v : Variable} (hv : v ∈ c.members) {t : Term} (ht : t.isRigid = true) (hT : T t) :
    (u.bindRigid c t).Meets T u fun θ => θ v = t := by
  have hwell := wellFormed_bindRigid hu c ht hT
  unfold bindRigid at hwell ⊢
  cases hrigid : c.rigid with
  | some existing =>
    -- The class is bound already: whether the equation holds is settled.
    refine meets_unchanged hu _ fun θ hθ => ?_
    obtain ⟨a, ha⟩ := hθ c hc
    rw [ha.1 v hv, ← ha.2 existing hrigid]
    simp
  | none =>
    rw [hrigid] at hwell
    refine ⟨hwell, fun _ θ => ?_, fun hok => absurd hok (by simp)⟩
    -- The class now asks for one thing more of its value.
    have hbound : ∀ a, VariableClass.HasValue { c with rigid := some t } θ a ↔
        c.HasValue θ a ∧ t = a := by
      intro a
      simp [VariableClass.HasValue, hrigid]
    constructor
    · intro hθ
      have hrespects : u.Respects θ := by
        intro d hd
        obtain ⟨a, ha⟩ := hθ _ (List.mem_map_of_mem hd)
        split at ha
        · rename_i hdc
          exact ⟨a, hdc ▸ ((hbound a).1 ha).1⟩
        · exact ⟨a, ha⟩
      obtain ⟨a, ha⟩ := hθ _ (List.mem_map_of_mem hc)
      rw [if_pos rfl] at ha
      obtain ⟨hca, rfl⟩ := (hbound a).1 ha
      exact ⟨hrespects, hca.1 v hv⟩
    · rintro ⟨hθ, hvt⟩ d hd
      obtain ⟨e, he, rfl⟩ := List.mem_map.1 hd
      split
      · exact ⟨t, (hbound t).2 ⟨(hθ.hasValue_iff hc hv t).2 hvt, rfl⟩⟩
      · exact hθ e he

/-- One class is enlarged, one is gone, and all others stay. -/
theorem mem_absorb {kept gone c : VariableClass} (hkept : kept ∈ u.classes) (hne : kept ≠ gone) :
    c ∈ (u.absorb kept gone).classes ↔
      c = kept.absorb gone ∨ c ∈ u.classes ∧ c ≠ gone ∧ c ≠ kept := by
  simp only [absorb, List.mem_filterMap]
  constructor
  -- Where a class of the result comes from: nothing becomes of the class that is gone.
  · rintro ⟨d, hd, hdc⟩
    split at hdc
    · cases hdc
    · split at hdc
      · cases hdc
        exact Or.inl rfl
      · cases hdc
        exact Or.inr ⟨hd, by assumption, by assumption⟩
  · rintro (rfl | ⟨hc, hcg, hck⟩)
    · exact ⟨kept, hkept, by simp [hne]⟩
    · exact ⟨c, hc, by simp [hcg, hck]⟩

/-- Classes stay valid and disjoint when one of them takes in another. -/
theorem wellFormed_absorb (hu : u.WellFormed T) {kept gone : VariableClass}
    (hkept : kept ∈ u.classes) (hgone : gone ∈ u.classes) (hne : kept ≠ gone) :
    (u.absorb kept gone).WellFormed T := by
  refine ⟨fun c hc => ?_, ?_⟩
  · rcases (mem_absorb hkept hne).1 hc with rfl | ⟨hc, -, -⟩
    · exact VariableClass.valid_absorb (hu.valid kept hkept) (hu.valid gone hgone)
    · exact hu.valid c hc
  -- A class that stays is disjoint from both halves of the enlarged class.
  · have hstays : ∀ c ∈ u.classes, c ≠ gone → c ≠ kept → (kept.absorb gone).Disjoint c := by
      intro c hc hcg hck v hv hvc
      rcases VariableClass.mem_members_absorb.1 hv with hv | hv
      · exact hcg (hu.eq_of_mem_members hc hgone hvc hv)
      · exact hck (hu.eq_of_mem_members hc hkept hvc hv)
    refine List.pairwise_filterMap.2 (hu.disjoint.imp_of_mem fun {c d} hc hd hcd => ?_)
    have hdistinct : c ≠ d := by
      rintro rfl
      obtain ⟨v, hv⟩ := List.exists_mem_of_ne_nil _ (hu.valid c hc).nonempty
      exact hcd v hv hv
    intro c' hc' d' hd'
    split at hc'
    · cases hc'
    · split at hd'
      · cases hd'
      -- Which of the two classes is the enlarged one? Not both, as they are distinct.
      · split at hc' <;> split at hd' <;> cases hc' <;> cases hd'
        · rename_i hck hdk
          exact absurd (hck.trans hdk.symm) hdistinct
        · exact hstays d hd (by assumption) (by assumption)
        · exact Std.Symm.symm _ _ (hstays c hc (by assumption) (by assumption))
        · exact hcd

/-- Enlarging a class asks of an assignment that it gives both classes one value. -/
theorem respects_absorb_iff {kept gone : VariableClass} (hkept : kept ∈ u.classes)
    (hne : kept ≠ gone) (hcompatible : kept.compatible gone = true) (θ : Assignment) :
    (u.absorb kept gone).Respects θ ↔
      u.Respects θ ∧ ∃ a, kept.HasValue θ a ∧ gone.HasValue θ a := by
  have hvalue := VariableClass.hasValue_absorb_iff hcompatible θ
  constructor
  · intro hθ
    obtain ⟨a, ha⟩ := hθ _ ((mem_absorb hkept hne).2 (Or.inl rfl))
    have hboth := (hvalue a).1 ha
    refine ⟨fun c hc => ?_, a, hboth⟩
    -- The two classes had the common value; the others have not changed.
    by_cases hcg : c = gone
    · exact ⟨a, hcg ▸ hboth.2⟩
    · by_cases hck : c = kept
      · exact ⟨a, hck ▸ hboth.1⟩
      · exact hθ c ((mem_absorb hkept hne).2 (Or.inr ⟨hc, hcg, hck⟩))
  · rintro ⟨hθ, a, ha⟩ c hc
    rcases (mem_absorb hkept hne).1 hc with rfl | ⟨hc, -, -⟩
    · exact ⟨a, (hvalue a).2 ha⟩
    · exact hθ c hc

/-- Incompatible classes have no common value, so that the step is right to fail. -/
theorem meets_absorb (hu : u.WellFormed T) {kept gone : VariableClass}
    (hkept : kept ∈ u.classes) (hgone : gone ∈ u.classes) (hne : kept ≠ gone) :
    Step.Meets T u (fun θ => ∃ a, kept.HasValue θ a ∧ gone.HasValue θ a)
      ⟨kept.compatible gone, u.absorb kept gone⟩ where
  wellFormed := wellFormed_absorb hu hkept hgone hne
  solutions := respects_absorb_iff hkept hne
  clash := by
    rintro hok θ - ⟨a, hk, hg⟩
    rw [VariableClass.compatible_of_hasValue hk hg] at hok
    cases hok

/-- Whichever of the two classes is kept, their members become equal. -/
theorem meets_merge (hu : u.WellFormed T) {c d : VariableClass} (hc : c ∈ u.classes)
    (hd : d ∈ u.classes) {v w : Variable} (hv : v ∈ c.members) (hw : w ∈ d.members) :
    (u.merge c d).Meets T u fun θ => θ v = θ w := by
  have hequal : ∀ θ, u.Respects θ →
      ((∃ a, c.HasValue θ a ∧ d.HasValue θ a) ↔ θ v = θ w) := by
    intro θ hθ
    simp only [hθ.hasValue_iff hc hv, hθ.hasValue_iff hd hw]
    constructor
    · rintro ⟨a, hva, hwa⟩
      rw [hva, hwa]
    · intro hvw
      exact ⟨θ w, hvw, rfl⟩
  unfold merge
  split
  -- The variables are in one class, so they are equal already.
  · rename_i hcd
    subst hcd
    refine meets_unchanged hu true fun θ hθ => ?_
    obtain ⟨a, ha⟩ := hθ c hc
    simp [ha.1 v hv, ha.1 w hw]
  · rename_i hne
    split
    · exact (meets_absorb hu hc hd hne).congr hequal
    -- The larger class absorbs the smaller one; the condition is the same either way.
    · rw [VariableClass.compatible_comm]
      refine (meets_absorb hu hd hc (Ne.symm hne)).congr fun θ hθ => ?_
      rw [← hequal θ hθ]
      exact exists_congr fun a => and_comm

/-! ### Terms and literals -/

theorem meets_unifyVariable (hu : u.WellFormed T) {v : Variable} {t : Term} (hv : T (.var v))
    (ht : t.isRigid = true) (hT : T t) :
    ((u.register v).bindRigid ((u.register v).classOf v) t).Meets T u fun θ => θ v = t := by
  have hclass := classOf_mem (exists_class_register (u := u) v)
  have hmeets := meets_bindRigid (wellFormed_register hu hv) hclass.1 hclass.2 ht hT
  exact hmeets.of_respects_iff (respects_register v)

/-- A variable is made equal to another one, by way of their classes. -/
theorem meets_unifyVariables (hu : u.WellFormed T) {v w : Variable} (hv : T (.var v))
    (hw : T (.var w)) : (u.unifyTerms (.var v) (.var w)).Meets T u fun θ => θ v = θ w := by
  have hwell := wellFormed_register (wellFormed_register hu hv) hw
  -- Registering the second variable does not touch the class of the first one.
  obtain ⟨c, hc, hvc⟩ := exists_class_register (u := u) v
  have hclassv := classOf_mem ⟨c, mem_register_of_mem w hc, hvc⟩
  have hclassw := classOf_mem (exists_class_register (u := u.register v) w)
  have hmeets := meets_merge hwell hclassv.1 hclassw.1 hclassv.2 hclassw.2
  exact (hmeets.of_respects_iff (respects_register w)).of_respects_iff (respects_register v)

/-- One equation between terms, by the kinds of its sides. -/
theorem meets_unifyTerms (hu : u.WellFormed T) {s t : Term} (hs : T s) (ht : T t) :
    (u.unifyTerms s t).Meets T u fun θ => s.mapVariable θ = t.mapVariable θ := by
  -- Two rigid terms are equal under every assignment or under none.
  have hrigid : ∀ {s t : Term}, s.isRigid = true → t.isRigid = true →
      Step.Meets T u (fun θ => s.mapVariable θ = t.mapVariable θ) ⟨s = t, u⟩ := by
    intro s t hs ht
    refine meets_unchanged hu _ fun θ _ => ?_
    rw [Term.mapVariable_of_isRigid θ hs, Term.mapVariable_of_isRigid θ ht]
    simp
  -- A variable on either side is bound or merged; the equation reads the same both ways.
  cases s with
  | var v =>
    cases t with
    | var w => exact meets_unifyVariables hu hs ht
    | constant name => exact meets_unifyVariable hu hs rfl ht
    | null label => exact meets_unifyVariable hu hs rfl ht
  | constant name =>
    cases t with
    | var w => exact (meets_unifyVariable hu ht rfl hs).congr fun θ _ => eq_comm
    | constant name' => exact hrigid rfl rfl
    | null label => exact hrigid rfl rfl
  | null label =>
    cases t with
    | var w => exact (meets_unifyVariable hu ht rfl hs).congr fun θ _ => eq_comm
    | constant name => exact hrigid rfl rfl
    | null label' => exact hrigid rfl rfl

/-- Equations between terms, one after the other. -/
theorem meets_unifyPairs (hu : u.WellFormed T) {pairs : List (Term × Term)}
    (hpairs : ∀ pair ∈ pairs, T pair.1 ∧ T pair.2) :
    (u.unifyPairs pairs).Meets T u fun θ =>
      ∀ pair ∈ pairs, pair.1.mapVariable θ = pair.2.mapVariable θ := by
  induction pairs generalizing u with
  | nil => exact meets_unchanged hu true (by simp)
  | cons pair rest ih =>
    obtain ⟨s, t⟩ := pair
    -- The rest starts from the unifier that the first pair leaves behind.
    have hhead := hpairs (s, t) List.mem_cons_self
    have hfirst := meets_unifyTerms hu hhead.1 hhead.2
    have hrest := ih hfirst.wellFormed fun pair hpair => hpairs pair (List.mem_cons_of_mem _ hpair)
    exact (hfirst.andThen hrest).congr fun θ _ => by simp

/-- One equation between literals comes down to equations between their arguments. -/
theorem meets_unifyLiterals (hu : u.WellFormed T) {l m : Literal} (hl : ∀ t ∈ l.arguments, T t)
    (hm : ∀ t ∈ m.arguments, T t) :
    (u.unifyLiterals l m).Meets T u fun θ => l.under θ = m.under θ := by
  unfold unifyLiterals
  split
  · rename_i hsig
    have hpairs : ∀ pair ∈ l.arguments.zip m.arguments, T pair.1 ∧ T pair.2 := by
      rintro ⟨s, t⟩ hpair
      exact ⟨hl s (List.of_mem_zip hpair).1, hm t (List.of_mem_zip hpair).2⟩
    exact (meets_unifyPairs hu hpairs).congr fun θ _ => (Literal.under_eq_under_iff hsig).symm
  · rename_i hsig
    refine meets_unchanged hu false fun θ _ => ?_
    -- No assignment changes a signature.
    have hne : l.under θ ≠ m.under θ := by
      intro heq
      exact hsig (by simpa using congrArg Literal.signature heq)
    simp [hne]

end

end Unifier

/-! ## §4 Runs of equations -/

/-- Two terms or two literals that are to become equal. -/
inductive Equation where
  | terms (s t : Term)
  | literals (l m : Literal)

namespace Equation

/-- The assignment makes both sides equal. -/
def Holds (θ : Assignment) : Equation → Prop
  | terms s t => s.mapVariable θ = t.mapVariable θ
  | literals l m => l.under θ = m.under θ

/-- All terms of the equation are in `T`. -/
def Over (T : Term → Prop) : Equation → Prop
  | terms s t => T s ∧ T t
  | literals l m => (∀ t ∈ l.arguments, T t) ∧ ∀ t ∈ m.arguments, T t

end Equation

namespace Unifier

/-- Make the two sides of an equation equal. -/
def unify (u : Unifier) : Equation → Step
  | .terms s t => u.unifyTerms s t
  | .literals l m => u.unifyLiterals l m

/-- Meet equations one after the other, up to the first that fails. -/
def unifyAll (u : Unifier) : List Equation → Step
  | [] => ⟨true, u⟩
  | e :: es =>
    let step := u.unify e
    if step.ok then step.unifier.unifyAll es else step

theorem meets_unify {T : Term → Prop} {u : Unifier} (hu : u.WellFormed T) {e : Equation}
    (he : e.Over T) : (u.unify e).Meets T u fun θ => e.Holds θ := by
  cases e with
  | terms s t => exact meets_unifyTerms hu he.1 he.2
  | literals l m => exact meets_unifyLiterals hu he.1 he.2

/-- A run of equations adds all of their conditions, as far as it goes. -/
theorem meets_unifyAll {T : Term → Prop} {u : Unifier} (hu : u.WellFormed T) {es : List Equation}
    (hes : ∀ e ∈ es, e.Over T) : (u.unifyAll es).Meets T u fun θ => ∀ e ∈ es, e.Holds θ := by
  -- By induction on the equations; each starts from the unifier that the last one leaves behind.
  induction es generalizing u with
  | nil => exact meets_unchanged hu true (by simp)
  | cons e es ih =>
    have hfirst := meets_unify hu (hes e List.mem_cons_self)
    have hrest := ih hfirst.wellFormed fun e he => hes e (List.mem_cons_of_mem _ he)
    exact (hfirst.andThen hrest).congr fun θ _ => by simp

end Unifier

/-! ## §5 The substitution of a unifier -/

namespace VariableClass

/-- Of the first two members, only the one that goes first can lead. -/
theorem leader?_cons_cons (rank : Variable → Nat) (v w : Variable) (vs : List Variable)
    (t : Option Term) :
    leader? rank ⟨w :: v :: vs, t⟩ =
      leader? rank ⟨(if precedes rank v w then v else w) :: vs, t⟩ := by
  unfold leader?
  simp only [List.foldl_cons]
  cases precedes rank v w <;> rfl

theorem rank_le_of_precedes {rank : Variable → Nat} {v w : Variable}
    (h : precedes rank v w = true) : rank v ≤ rank w := by
  simp only [precedes, Bool.or_eq_true, Bool.and_eq_true, decide_eq_true_eq] at h
  omega

theorem rank_le_of_not_precedes {rank : Variable → Nat} {v w : Variable}
    (h : precedes rank v w = false) : rank w ≤ rank v := by
  simp only [precedes, Bool.or_eq_false_iff, decide_eq_false_iff_not] at h
  omega

/-- A class with members has one that leads, and none has a smaller rank. -/
theorem exists_leader (rank : Variable → Nat) {c : VariableClass} (hc : c.members ≠ []) :
    ∃ w ∈ c.members, c.leader? rank = some w ∧ ∀ v ∈ c.members, rank w ≤ rank v := by
  obtain ⟨members, t⟩ := c
  cases members with
  | nil => exact absurd rfl hc
  | cons w vs =>
    clear hc
    induction vs generalizing w with
    | nil => exact ⟨w, by simp, rfl, by simp⟩
    | cons v vs ih =>
      -- The better of the first two members goes on, and leads both of them.
      rw [leader?_cons_cons]
      cases hvw : precedes rank v w with
      | true =>
        have hle := rank_le_of_precedes hvw
        obtain ⟨w', hmem, hleader, hmin⟩ := ih v
        refine ⟨w', List.mem_cons_of_mem _ hmem, hleader, fun x hx => ?_⟩
        rcases List.mem_cons.1 hx with rfl | hx
        · exact Nat.le_trans (hmin v List.mem_cons_self) hle
        · exact hmin x hx
      | false =>
        have hle := rank_le_of_not_precedes hvw
        obtain ⟨w', hmem, hleader, hmin⟩ := ih w
        have hw : rank w' ≤ rank w := hmin w List.mem_cons_self
        refine ⟨w', ?_, hleader, fun x hx => ?_⟩
        · rcases List.mem_cons.1 hmem with rfl | hmem
          · exact List.mem_cons_self
          · exact List.mem_cons_of_mem _ (List.mem_cons_of_mem _ hmem)
        · rcases List.mem_cons.1 hx with rfl | hx
          · exact hw
          · rcases List.mem_cons.1 hx with rfl | hx
            · exact Nat.le_trans hw hle
            · exact hmin x (List.mem_cons_of_mem _ hx)

/-- What stands for a class is its rigid term, or a member of least rank if it has none. -/
theorem Valid.exists_representative {T : Term → Prop} {c : VariableClass} (hc : c.Valid T)
    (rank : Variable → Nat) :
    ∃ t, c.representative? rank = some t ∧
      (c.rigid = some t ∨
        c.rigid = none ∧ ∃ w ∈ c.members, t = .var w ∧ ∀ v ∈ c.members, rank w ≤ rank v) := by
  unfold representative?
  cases hrigid : c.rigid with
  | some t => exact ⟨t, rfl, Or.inl rfl⟩
  | none =>
    obtain ⟨w, hw, hleader, hmin⟩ := exists_leader rank hc.nonempty
    exact ⟨.var w, by simp [hleader], Or.inr ⟨rfl, w, hw, rfl, hmin⟩⟩

end VariableClass

/-- After several variables were bound in turn, each of them has its own value. -/
theorem Substitution.lookup_foldl_bind (θ : Substitution) (vs : List Variable)
    (value : Variable → Term) (w : Variable) :
    (vs.foldl (fun η v => η.bind v (value v)) θ).lookup w =
      if w ∈ vs then some (value w) else θ.lookup w := by
  induction vs generalizing θ with
  | nil => simp
  | cons v vs ih =>
    rw [List.foldl_cons, ih]
    -- A variable that is bound again later has its later value, which is the same.
    by_cases hw : w ∈ vs
    · simp [hw]
    · by_cases hwv : w = v
      · simp [hwv]
      · simp [hw, hwv, Substitution.lookup_bind_of_ne θ hwv]

namespace Unifier

/-- Bind the members of a class to what stands for it. -/
def bindClass (rank : Variable → Nat) (θ : Substitution) (c : VariableClass) : Substitution :=
  match c.representative? rank with
  | some t => c.members.foldl (fun η v => η.bind v t) θ
  | none => θ

theorem substitution_eq_foldl (u : Unifier) (rank : Variable → Nat) :
    u.substitution rank = u.classes.foldl (bindClass rank) .empty :=
  rfl

theorem lookup_bindClass_of_notMem {rank : Variable → Nat} {θ : Substitution} {c : VariableClass}
    {v : Variable} (hv : v ∉ c.members) : (bindClass rank θ c).lookup v = θ.lookup v := by
  unfold bindClass
  cases c.representative? rank with
  | none => rfl
  | some t => rw [Substitution.lookup_foldl_bind θ _ fun _ => t, if_neg hv]

/-- Binding classes leaves all variables alone that are in none of them. -/
theorem lookup_foldl_of_notMem {rank : Variable → Nat} {cs : List VariableClass}
    {θ : Substitution} {v : Variable} (hv : ∀ c ∈ cs, v ∉ c.members) :
    (cs.foldl (bindClass rank) θ).lookup v = θ.lookup v := by
  induction cs generalizing θ with
  | nil => rfl
  | cons c cs ih =>
    rw [List.foldl_cons, ih fun d hd => hv d (List.mem_cons_of_mem _ hd),
      lookup_bindClass_of_notMem (hv c List.mem_cons_self)]

/-- When all classes are bound, the members of each are bound to what stands for it. -/
theorem lookup_foldl_of_mem {rank : Variable → Nat} {cs : List VariableClass} {θ : Substitution}
    (hcs : cs.Pairwise VariableClass.Disjoint) {c : VariableClass} (hc : c ∈ cs) {v : Variable}
    (hv : v ∈ c.members) {t : Term} (ht : c.representative? rank = some t) :
    (cs.foldl (bindClass rank) θ).lookup v = some t := by
  induction cs generalizing θ with
  | nil => cases hc
  | cons d ds ih =>
    obtain ⟨hd, hds⟩ := List.pairwise_cons.1 hcs
    rw [List.foldl_cons]
    rcases List.mem_cons.1 hc with rfl | hc
    -- No later class has this member, so that its binding stays.
    · rw [lookup_foldl_of_notMem fun e he => hd e he v hv, bindClass, ht]
      simp [Substitution.lookup_foldl_bind _ _ fun _ => t, hv]
    · exact ih hds hc

theorem applyVariable_substitution_of_notMem {u : Unifier} (rank : Variable → Nat) {v : Variable}
    (hv : ∀ c ∈ u.classes, v ∉ c.members) : (u.substitution rank).applyVariable v = .var v := by
  refine Substitution.applyVariable_of_lookup_none ?_
  rw [substitution_eq_foldl, lookup_foldl_of_notMem hv]
  rfl

section

variable {T : Term → Prop} {u : Unifier} (hu : u.WellFormed T) (rank : Variable → Nat)

include hu

theorem WellFormed.applyVariable_substitution {c : VariableClass} (hc : c ∈ u.classes)
    {v : Variable} (hv : v ∈ c.members) {t : Term} (ht : c.representative? rank = some t) :
    (u.substitution rank).applyVariable v = t := by
  refine Substitution.applyVariable_of_lookup ?_
  rw [substitution_eq_foldl]
  exact lookup_foldl_of_mem hu.disjoint hc hv ht

/-- The substitution of a unifier is one of the assignments that the unifier stands for. -/
theorem WellFormed.respects_substitution : u.Respects (u.substitution rank).applyVariable := by
  intro c hc
  obtain ⟨t, ht, hcases⟩ := (hu.valid c hc).exists_representative rank
  refine ⟨t, fun v hv => hu.applyVariable_substitution rank hc hv ht, fun s hs => ?_⟩
  -- The representative of a bound class is its rigid term.
  rcases hcases with hrigid | ⟨hrigid, -⟩
  · exact Option.some.inj (hs.symm.trans hrigid)
  · rw [hrigid] at hs
    cases hs

/-- An assignment that respects the unifier does not see its substitution. -/
theorem WellFormed.mapVariable_substitution {θ : Assignment} (hθ : u.Respects θ) (v : Variable) :
    ((u.substitution rank).applyVariable v).mapVariable θ = θ v := by
  by_cases hclass : ∃ c ∈ u.classes, v ∈ c.members
  · obtain ⟨c, hc, hv⟩ := hclass
    obtain ⟨t, ht, hcases⟩ := (hu.valid c hc).exists_representative rank
    obtain ⟨a, hmembers, hbound⟩ := hθ c hc
    -- The representative is rigid and stays, or it is a member and has the value of the class.
    rw [hu.applyVariable_substitution rank hc hv ht, hmembers v hv]
    rcases hcases with hrigid | ⟨-, w, hw, rfl, -⟩
    · rw [Term.mapVariable_of_isRigid θ ((hu.valid c hc).rigid t hrigid).1, hbound t hrigid]
    · exact hmembers w hw
  -- A variable without a class stands for itself.
  · have hfree : ∀ c ∈ u.classes, v ∉ c.members := by
      intro c hc hv
      exact hclass ⟨c, hc, hv⟩
    rw [applyVariable_substitution_of_notMem rank hfree]
    rfl

/-- The same for terms: after the substitution they have the value that they had before. -/
theorem WellFormed.mapVariable_applyTerm {θ : Assignment} (hθ : u.Respects θ) (t : Term) :
    ((u.substitution rank).applyTerm t).mapVariable θ = t.mapVariable θ := by
  rw [Substitution.applyTerm_eq_mapVariable, Term.mapVariable_mapVariable]
  exact Term.mapVariable_congr fun v _ => hu.mapVariable_substitution rank hθ v

theorem WellFormed.under_substitution {θ : Assignment} (hθ : u.Respects θ) (l : Literal) :
    (l.under (u.substitution rank).applyVariable).under θ = l.under θ := by
  rw [Literal.under_under]
  exact Literal.under_congr fun v _ => hu.mapVariable_substitution rank hθ v

/-! ### Variables as values -/

/-- A variable is replaced by another one only if the latter leads a class of both. -/
theorem WellFormed.eq_or_exists_class {v w : Variable}
    (h : (u.substitution rank).applyVariable v = .var w) :
    v = w ∨ ∃ c ∈ u.classes, v ∈ c.members ∧ w ∈ c.members ∧ ∀ x ∈ c.members, rank w ≤ rank x := by
  by_cases hclass : ∃ c ∈ u.classes, v ∈ c.members
  · obtain ⟨c, hc, hv⟩ := hclass
    obtain ⟨t, ht, hcases⟩ := (hu.valid c hc).exists_representative rank
    rw [hu.applyVariable_substitution rank hc hv ht] at h
    subst h
    -- The representative is a variable, so it is not the rigid term of the class.
    rcases hcases with hrigid | ⟨-, x, hx, hxw, hleast⟩
    · have hvar := ((hu.valid c hc).rigid _ hrigid).1
      cases hvar
    · cases hxw
      exact Or.inr ⟨c, hc, hv, hx, hleast⟩
  · rw [applyVariable_substitution_of_notMem rank fun c hc hv => hclass ⟨c, hc, hv⟩] at h
    cases h
    exact Or.inl rfl

/-- A variable stays if it is the only possible leader of its class. -/
theorem WellFormed.applyVariable_eq_self {v : Variable}
    (h : ∀ c ∈ u.classes, v ∈ c.members →
      c.rigid = none ∧ ∀ w ∈ c.members, rank w ≤ rank v → w = v) :
    (u.substitution rank).applyVariable v = .var v := by
  by_cases hclass : ∃ c ∈ u.classes, v ∈ c.members
  · obtain ⟨c, hc, hv⟩ := hclass
    obtain ⟨t, ht, hcases⟩ := (hu.valid c hc).exists_representative rank
    rw [hu.applyVariable_substitution rank hc hv ht]
    -- There is no rigid term to stand for the class, and no other variable can lead it.
    obtain ⟨hnone, honly⟩ := h c hc hv
    rcases hcases with hrigid | ⟨-, w, hw, rfl, hleast⟩
    · rw [hnone] at hrigid
      cases hrigid
    · rw [honly w hw (hleast v hv)]
  · exact applyVariable_substitution_of_notMem rank fun c hc hv => hclass ⟨c, hc, hv⟩

end

/-- Equations can be met one after the other exactly if some assignment makes both sides of each
equal, and then the substitution of the unifier, whatever the rank, is an idempotent solution that
every other solution factors through. -/
theorem unifyAll_mostGeneral (es : List Equation) :
    ((empty.unifyAll es).ok = true ↔ ∃ θ : Assignment, ∀ e ∈ es, e.Holds θ) ∧
      ((empty.unifyAll es).ok = true → ∀ rank : Variable → Nat,
        let σ := (empty.unifyAll es).unifier.substitution rank
        (∀ e ∈ es, e.Holds σ.applyVariable) ∧
          (∀ t, σ.applyTerm (σ.applyTerm t) = σ.applyTerm t) ∧
          ∀ θ : Assignment, (∀ e ∈ es, e.Holds θ) →
            ∀ t, (σ.applyTerm t).mapVariable θ = t.mapVariable θ) := by
  -- No restriction on the terms is needed here, so all of them are allowed.
  have hover : ∀ e ∈ es, e.Over fun _ => True := by
    intro e _
    cases e with
    | terms s t => exact ⟨trivial, trivial⟩
    | literals l m => exact ⟨fun _ _ => trivial, fun _ _ => trivial⟩
  have hmeets := meets_unifyAll (wellFormed_empty fun _ => True) hover
  have hsolutions : (empty.unifyAll es).ok = true →
      ∀ θ, (empty.unifyAll es).unifier.Respects θ ↔ ∀ e ∈ es, e.Holds θ := by
    intro hok θ
    rw [hmeets.solutions hok θ]
    exact and_iff_right (respects_empty θ)
  have hwell := hmeets.wellFormed
  refine ⟨⟨fun hok => ?_, fun hsolvable => ?_⟩, fun hok rank => ?_⟩
  -- Any rank will do to get a solution.
  · exact ⟨_, (hsolutions hok _).1 (hwell.respects_substitution fun _ => 0)⟩
  · obtain ⟨θ, hθ⟩ := hsolvable
    by_contra hfail
    exact hmeets.clash (by simpa using hfail) θ (respects_empty θ) hθ
  · have hσ := hwell.respects_substitution rank
    refine ⟨(hsolutions hok _).1 hσ, fun t => ?_, fun θ hθ t => ?_⟩
    -- The substitution is itself one of the assignments that do not see it.
    · exact hwell.mapVariable_applyTerm rank hσ t
    · exact hwell.mapVariable_applyTerm rank ((hsolutions hok θ).2 hθ) t

end Unifier

end ExistentialRules
