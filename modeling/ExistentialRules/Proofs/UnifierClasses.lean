import Mathlib.Data.List.Forall2
import Mathlib.Logic.Relation
import ExistentialRules.Proofs.MostGeneral
import ExistentialRules.Proofs.Renumbering

/-!
# The classes of a unifier

The classes of a unifier are the connected components of its equations, where only equations between
two variables connect. A class is bound to the rigid terms that its members are equated with, and if
there is a unifier at all, then there is at most one such term. So neither the order of the
equations nor the order of their sides matters, although merging depends on both.

The classes are first described by three relations: which variables are known, which are linked and
which are bound to a term. Each operation on unifiers changes one of the three.

## Main definitions

* `Unifier.Equates`, `Unifier.Occurs`, `Unifier.Linked`, `Unifier.BoundTo`: what a list of equations
  says;
* `Unifier.Classifies`: what the classes say about three relations;
* `Unifier.Rearranged`: other orders of the equations and of their sides.

## Main statements

* `Unifier.Classifies.register`, `Unifier.Classifies.bindRigid`, `Unifier.Classifies.merge`: what
  the operations do;
* `Unifier.describes_unifyTerms`, `Unifier.describes_unifyPairs`: one equation, and a list of them;
* `Unifier.Classifies.perm_classes`: the classes are determined by what they say;
* `Unifier.unifyPairs_components`: the classes are the components, in whatever order.
-/

namespace ExistentialRules

open Relation

namespace Unifier

/-! ## §1 Equations -/

/-- The two terms are the sides of one of the equations. -/
def Equates (es : List (Term × Term)) (s t : Term) : Prop :=
  (s, t) ∈ es ∨ (t, s) ∈ es

/-- The variable is a side of one of the equations. -/
def Occurs (es : List (Term × Term)) (v : Variable) : Prop :=
  ∃ t, Equates es (.var v) t

/-- A chain of equations between variables leads from the first variable to the second. -/
def Linked (es : List (Term × Term)) : Variable → Variable → Prop :=
  ReflTransGen fun v w => Equates es (.var v) (.var w)

/-- The variable is equated with the rigid term. -/
def BoundTo (es : List (Term × Term)) (v : Variable) (t : Term) : Prop :=
  t.isRigid = true ∧ Equates es (.var v) t

/-- The same equations in another order, some of them with their sides swapped. -/
def Rearranged (es es' : List (Term × Term)) : Prop :=
  ∃ swapped, List.Forall₂ (fun e e' => e' = e ∨ e' = e.swap) es swapped ∧ swapped.Perm es'

/-- Linked as before, or through a new link between `v` and `w`. -/
def Joined (linked : Variable → Variable → Prop) (v w x y : Variable) : Prop :=
  linked x y ∨ linked x v ∧ linked w y ∨ linked x w ∧ linked v y

theorem joined_comm {linked : Variable → Variable → Prop} {v w : Variable} :
    Joined linked v w = Joined linked w v := by
  funext x y
  exact propext (or_congr_right or_comm)

section Append

variable {es : List (Term × Term)} {s t : Term}

/-- One more equation equates its two sides, in either order. -/
theorem equates_append_singleton {a b : Term} :
    Equates (es ++ [(s, t)]) a b ↔ Equates es a b ∨ a = s ∧ b = t ∨ a = t ∧ b = s := by
  simp only [Equates, List.mem_append, List.mem_singleton, Prod.mk.injEq]
  rw [and_comm (a := b = s), or_or_or_comm]

theorem occurs_append_singleton {v : Variable} :
    Occurs (es ++ [(s, t)]) v ↔ Occurs es v ∨ .var v = s ∨ .var v = t := by
  simp only [Occurs, equates_append_singleton, exists_or, exists_and_left, exists_eq, and_true]

theorem boundTo_append_singleton {v : Variable} {r : Term} :
    BoundTo (es ++ [(s, t)]) v r ↔
      BoundTo es v r ∨ r.isRigid = true ∧ (.var v = s ∧ r = t ∨ .var v = t ∧ r = s) := by
  rw [BoundTo, equates_append_singleton, and_or_left, BoundTo]

/-- An equation with a rigid side links no variables. -/
theorem linked_append_rigid (h : s.isRigid = true ∨ t.isRigid = true) :
    Linked (es ++ [(s, t)]) = Linked es := by
  have hstep : ∀ v w,
      Equates (es ++ [(s, t)]) (.var v) (.var w) ↔ Equates es (.var v) (.var w) := by
    intro v w
    rw [equates_append_singleton]
    refine or_iff_left fun hnew => ?_
    rcases hnew with ⟨rfl, rfl⟩ | ⟨rfl, rfl⟩
    · simp at h
    · simp at h
  simp only [Linked, hstep]

/-- One more equation between variables joins what is linked with the one to what is linked with the
other. -/
theorem linked_append_variables {v w x y : Variable} :
    Linked (es ++ [(.var v, .var w)]) x y ↔ Joined (Linked es) v w x y := by
  have hstep : ∀ a b, Equates (es ++ [(.var v, .var w)]) (.var a) (.var b) ↔
      Equates es (.var a) (.var b) ∨ a = v ∧ b = w ∨ a = w ∧ b = v := by
    intro a b
    rw [equates_append_singleton]
    simp
  refine ⟨fun h => ?_, fun h => ?_⟩
  · -- The induction is on the chain; only one crossing of the new link is kept.
    induction h with
    | refl => exact Or.inl .refl
    | tail _ hlast ih =>
      rcases (hstep _ _).1 hlast with hold | ⟨rfl, rfl⟩ | ⟨rfl, rfl⟩
      · rcases ih with ih | ⟨hv, ih⟩ | ⟨hw, ih⟩
        · exact Or.inl (ih.tail hold)
        · exact Or.inr (Or.inl ⟨hv, ih.tail hold⟩)
        · exact Or.inr (Or.inr ⟨hw, ih.tail hold⟩)
      -- The new link leads from one of its ends to the other; what went through it goes back.
      · rcases ih with ih | ⟨hv, -⟩ | ⟨hw, -⟩
        · exact Or.inr (Or.inl ⟨ih, .refl⟩)
        · exact Or.inr (Or.inl ⟨hv, .refl⟩)
        · exact Or.inl hw
      · rcases ih with ih | ⟨hv, -⟩ | ⟨hw, -⟩
        · exact Or.inr (Or.inr ⟨ih, .refl⟩)
        · exact Or.inl hv
        · exact Or.inr (Or.inr ⟨hw, .refl⟩)
  · have hmono : ∀ {a b}, Linked es a b → Linked (es ++ [(.var v, .var w)]) a b :=
      ReflTransGen.mono (fun a b hab => (hstep a b).2 (Or.inl hab)) _ _
    rcases h with h | ⟨hv, hw⟩ | ⟨hw, hv⟩
    · exact hmono h
    · exact ((hmono hv).tail ((hstep v w).2 (Or.inr (Or.inl ⟨rfl, rfl⟩)))).trans (hmono hw)
    · exact ((hmono hw).tail ((hstep w v).2 (Or.inr (Or.inr ⟨rfl, rfl⟩)))).trans (hmono hv)

end Append

/-- A variable that no equation mentions is linked with itself only. -/
theorem linked_iff_of_not_occurs {es : List (Term × Term)} {v : Variable} (h : ¬ Occurs es v)
    (w : Variable) : Linked es v w ↔ w = v := by
  refine ⟨fun hvw => ?_, fun heq => heq ▸ .refl⟩
  rcases hvw.cases_head with heq | ⟨x, hx, -⟩
  · exact heq.symm
  · exact absurd ⟨_, hx⟩ h

/-- Rearranged equations equate the same terms. -/
theorem Rearranged.equates_iff {es es' : List (Term × Term)} (h : Rearranged es es') {s t : Term} :
    Equates es s t ↔ Equates es' s t := by
  obtain ⟨swapped, hswapped, hperm⟩ := h
  simp only [Equates, ← hperm.mem_iff]
  clear hperm
  induction hswapped with
  | nil => exact Iff.rfl
  | @cons e e' _ _ hhead _ ih =>
    have hsides : (s, t) = e ∨ (t, s) = e ↔ (s, t) = e' ∨ (t, s) = e' := by
      rcases hhead with rfl | rfl
      · exact Iff.rfl
      · simp only [Prod.ext_iff, Prod.fst_swap, Prod.snd_swap]
        rw [or_comm, and_comm, and_comm (a := s = e.1)]
    simp only [List.mem_cons]
    rw [or_or_or_comm, hsides, ih, or_or_or_comm]

/-! ## §2 What the classes say -/

/-- The members of the classes are the known variables, each class holds what is linked with one of
its members, and it is bound to what its members are bound to. -/
structure Classifies (known : Variable → Prop) (linked : Variable → Variable → Prop)
    (bound : Variable → Term → Prop) (u : Unifier) : Prop where
  known_iff : ∀ v, (∃ c ∈ u.classes, v ∈ c.members) ↔ known v
  linked_iff : ∀ c ∈ u.classes, ∀ v ∈ c.members, ∀ w, w ∈ c.members ↔ linked v w
  bound_iff : ∀ c ∈ u.classes, ∀ t, c.rigid = some t ↔ ∃ v ∈ c.members, bound v t
  strict : ∀ c ∈ u.classes, Ascending.Strict c.members

section Operations

variable {T : Term → Prop} {known : Variable → Prop} {linked : Variable → Variable → Prop}
  {bound : Variable → Term → Prop} {u : Unifier} (h : u.Classifies known linked bound)

include h

/-- Registering makes a variable known. -/
theorem Classifies.register {v : Variable}
    (hnew : ¬ known v → (∀ w, linked v w ↔ w = v) ∧ ∀ t, ¬ bound v t) :
    (u.register v).Classifies (fun w => known w ∨ w = v) linked bound := by
  unfold Unifier.register
  cases hclass : u.class? v with
  | some c =>
    have hv : known v :=
      (h.known_iff v).1 ⟨c, List.mem_of_find?_eq_some hclass, by simpa using List.find?_some hclass⟩
    refine ⟨fun w => ?_, h.linked_iff, h.bound_iff, h.strict⟩
    rw [h.known_iff, or_iff_left_of_imp]
    intro hwv
    rwa [hwv]
  | none =>
    have hv : ¬ known v := by
      intro hv
      obtain ⟨c, hc, hvc⟩ := (h.known_iff v).2 hv
      exact class?_eq_none_iff.1 hclass c hc hvc
    obtain ⟨hlinked, hbound⟩ := hnew hv
    refine ⟨fun w => ?_, List.forall_mem_append.2 ⟨h.linked_iff, ?_⟩,
      List.forall_mem_append.2 ⟨h.bound_iff, ?_⟩, List.forall_mem_append.2 ⟨h.strict, ?_⟩⟩
    · simp [or_and_right, exists_or, h.known_iff, VariableClass.singleton]
    -- The new class has one member, which is linked with itself only and not bound.
    · simp [VariableClass.singleton, hlinked]
    · simp [VariableClass.singleton, hbound]
    · simp [VariableClass.singleton, Ascending.Strict]

variable (hu : u.WellFormed T) {c d : VariableClass} (hc : c ∈ u.classes) (hd : d ∈ u.classes)
  {v w : Variable} (hv : v ∈ c.members) (hw : w ∈ d.members)

include hu hc hv

/-- Binding a class binds one of its members. -/
theorem Classifies.bindRigid {t : Term} (hok : (u.bindRigid c t).ok = true) :
    (u.bindRigid c t).unifier.Classifies known linked fun w s => bound w s ∨ w = v ∧ s = t := by
  have hbound : ∀ e ∈ u.classes, ∀ s,
      (∃ w ∈ e.members, bound w s ∨ w = v ∧ s = t) ↔ e.rigid = some s ∨ e = c ∧ s = t := by
    intro e he s
    simp only [and_or_left, exists_or, ← h.bound_iff e he]
    refine or_congr_right ⟨fun hnew => ?_, fun hnew => ?_⟩
    · obtain ⟨w, hw, rfl, hs⟩ := hnew
      exact ⟨hu.eq_of_mem_members he hc hw hv, hs⟩
    · obtain ⟨rfl, hs⟩ := hnew
      exact ⟨v, hv, rfl, hs⟩
  unfold Unifier.bindRigid at hok ⊢
  cases hrigid : c.rigid with
  | some existing =>
    -- The class was bound before, and to the same term.
    rw [hrigid] at hok
    have hexisting : existing = t := by simpa using hok
    refine ⟨h.known_iff, h.linked_iff, fun e he s => ?_, h.strict⟩
    rw [hbound e he, or_iff_left_of_imp]
    intro hes
    rw [hes.1, hes.2, hrigid, hexisting]
  | none =>
    -- One class gets a term, and the members of all classes stay.
    refine ⟨fun w => ?_, List.forall_mem_map.2 fun e he => ?_,
      List.forall_mem_map.2 fun e he s => ?_, List.forall_mem_map.2 fun e he => ?_⟩
    · simp only [List.mem_map, exists_exists_and_eq_and, VariableClass.members_bound, h.known_iff]
    · rw [VariableClass.members_bound]
      exact h.linked_iff e he
    · rw [VariableClass.members_bound, hbound e he]
      split
      · rename_i hec
        simp [hec, hrigid, eq_comm]
      · rename_i hec
        simp [hec]
    · rw [VariableClass.members_bound]
      exact h.strict e he

include hd hw

/-- A new link between members of two classes leads from each of these classes to the other. -/
theorem Classifies.joined_iff : ∀ e ∈ u.classes, ∀ x ∈ e.members, ∀ y,
    Joined linked v w x y ↔
      y ∈ e.members ∨ e = c ∧ y ∈ d.members ∨ e = d ∧ y ∈ c.members := by
  intro e he x hx y
  have hec : v ∈ e.members ↔ e = c :=
    ⟨fun hve => hu.eq_of_mem_members he hc hve hv, fun heq => heq ▸ hv⟩
  have hed : w ∈ e.members ↔ e = d :=
    ⟨fun hwe => hu.eq_of_mem_members he hd hwe hw, fun heq => heq ▸ hw⟩
  unfold Joined
  rw [← h.linked_iff e he x hx, ← h.linked_iff e he x hx, ← h.linked_iff e he x hx,
    ← h.linked_iff c hc v hv, ← h.linked_iff d hd w hw, hec, hed]

/-- To absorb a class is to link a member of the one with a member of the other. -/
theorem Classifies.absorb (hne : c ≠ d) (hcompatible : c.compatible d = true) :
    (u.absorb c d).Classifies known (Joined linked v w) bound := by
  have hmem : ∀ e, e ∈ (u.absorb c d).classes ↔
      e = c.absorb d ∨ e ∈ u.classes ∧ e ≠ d ∧ e ≠ c := fun e => mem_absorb hc hne
  have hjoined := h.joined_iff hu hc hd hv hw
  refine ⟨fun x => ?_, fun e he x hx y => ?_, fun e he t => ?_, fun e he => ?_⟩
  · -- The two classes have become one, and no member is lost.
    rw [← h.known_iff]
    refine ⟨fun hx => ?_, fun hx => ?_⟩
    · obtain ⟨e, he, hx⟩ := hx
      rcases (hmem e).1 he with rfl | ⟨he, -⟩
      · rcases VariableClass.mem_members_absorb.1 hx with hx | hx
        · exact ⟨d, hd, hx⟩
        · exact ⟨c, hc, hx⟩
      · exact ⟨e, he, hx⟩
    · obtain ⟨e, he, hx⟩ := hx
      by_cases hec : e = c
      · exact ⟨_, (hmem _).2 (Or.inl rfl), VariableClass.mem_members_absorb.2 (Or.inr (hec ▸ hx))⟩
      · by_cases hed : e = d
        · exact ⟨_, (hmem _).2 (Or.inl rfl), VariableClass.mem_members_absorb.2 (Or.inl (hed ▸ hx))⟩
        · exact ⟨e, (hmem e).2 (Or.inr ⟨he, hed, hec⟩), hx⟩
  · rcases (hmem e).1 he with rfl | ⟨he, hed, hec⟩
    -- From a member of either half, the link leads to both halves.
    · rw [VariableClass.mem_members_absorb]
      rcases VariableClass.mem_members_absorb.1 hx with hx | hx
      · simp [hjoined d hd x hx, hne.symm]
      · simp [hjoined c hc x hx, hne, or_comm]
    · simp [hjoined e he x hx, hed, hec]
  · rcases (hmem e).1 he with rfl | ⟨he, -⟩
    · simp only [VariableClass.rigid_absorb_iff hcompatible, VariableClass.mem_members_absorb,
        or_and_right, exists_or, h.bound_iff c hc, h.bound_iff d hd]
      exact or_comm
    · exact h.bound_iff e he t
  · rcases (hmem e).1 he with rfl | ⟨he, -⟩
    · exact Ascending.strict_union d.members (h.strict c hc)
    · exact h.strict e he

/-- Merging two classes links a member of the one with a member of the other, whichever is kept. -/
theorem Classifies.merge (hok : (u.merge c d).ok = true) :
    (u.merge c d).unifier.Classifies known (Joined linked v w) bound := by
  unfold Unifier.merge at hok ⊢
  split
  · rename_i hcd
    -- The two are in one class, so that the link adds nothing.
    refine ⟨h.known_iff, fun e he x hx y => ?_, h.bound_iff, h.strict⟩
    rw [h.joined_iff hu hc hd hv hw e he x hx, or_iff_left_of_imp]
    rw [← hcd, or_self]
    intro hey
    rw [hey.1]
    exact hey.2
  · rename_i hne
    rw [if_neg hne] at hok
    split
    · rename_i hlt
      rw [if_pos hlt] at hok
      exact h.absorb hu hc hd hv hw hne hok
    · rename_i hlt
      rw [if_neg hlt, VariableClass.compatible_comm] at hok
      rw [joined_comm]
      exact h.absorb hu hd hc hw hv (Ne.symm hne) hok

end Operations

/-! ## §3 Runs of equations -/

/-- The classes are the components of the equations, bound to the rigid terms of the equations. -/
def Describes (u : Unifier) (es : List (Term × Term)) : Prop :=
  u.Classifies (Occurs es) (Linked es) (BoundTo es)

theorem describes_empty : empty.Describes [] where
  known_iff := by simp [empty, Occurs, Equates]
  linked_iff := by simp [empty]
  bound_iff := by simp [empty]
  strict := by simp [empty]

/-- It remains to compare what the classes say with what the equations say. -/
theorem Classifies.describes {u : Unifier} {es : List (Term × Term)} {known : Variable → Prop}
    {linked : Variable → Variable → Prop} {bound : Variable → Term → Prop}
    (h : u.Classifies known linked bound) (hknown : ∀ v, Occurs es v ↔ known v)
    (hlinked : ∀ v w, Linked es v w ↔ linked v w) (hbound : ∀ v t, BoundTo es v t ↔ bound v t) :
    u.Describes es where
  known_iff := by simpa only [hknown] using h.known_iff
  linked_iff := by simpa only [hlinked] using h.linked_iff
  bound_iff := by simpa only [hbound] using h.bound_iff
  strict := h.strict

/-- Which side of an equation is which does not matter. -/
theorem Describes.congr {u : Unifier} {es es' : List (Term × Term)} (h : u.Describes es)
    (hes : ∀ s t, Equates es' s t ↔ Equates es s t) : u.Describes es' := by
  apply Classifies.describes h
  · simp only [Occurs, hes, implies_true]
  · simp only [Linked, hes, implies_true]
  · simp only [BoundTo, hes, implies_true]

section Steps

variable {u : Unifier} (hu : u.WellFormed fun _ => True) {es : List (Term × Term)}
  (h : u.Describes es)

include h

theorem Describes.register (v : Variable) :
    (u.register v).Classifies (fun w => Occurs es w ∨ w = v) (Linked es) (BoundTo es) := by
  apply Classifies.register h
  intro hnew
  exact ⟨linked_iff_of_not_occurs hnew, fun t ht => hnew ⟨t, ht.2⟩⟩

include hu

/-- An equation of a variable and a rigid term. -/
theorem describes_unifyVariable {v : Variable} {t : Term} (ht : t.isRigid = true)
    (hok : ((u.register v).bindRigid ((u.register v).classOf v) t).ok = true) :
    ((u.register v).bindRigid ((u.register v).classOf v) t).unifier.Describes
      (es ++ [(.var v, t)]) := by
  have hclass := classOf_mem (exists_class_register (u := u) v)
  have hwell := wellFormed_register hu (v := v) trivial
  have hvar := Term.var_ne_of_isRigid ht
  apply ((h.register v).bindRigid hwell hclass.1 hclass.2 hok).describes
  · simp [occurs_append_singleton, hvar]
  · simp [linked_append_rigid (Or.inr ht)]
  · intro x r
    rw [boundTo_append_singleton]
    -- The new binding is to a rigid term.
    have hrigid : r = t → r.isRigid = true := fun hr => hr ▸ ht
    simp only [hvar, false_and, or_false, Term.var.injEq]
    tauto

/-- An equation of two variables. -/
theorem describes_unifyVariables {v w : Variable}
    (hok : (u.unifyTerms (.var v) (.var w)).ok = true) :
    (u.unifyTerms (.var v) (.var w)).unifier.Describes (es ++ [(.var v, .var w)]) := by
  have hwell := wellFormed_register (wellFormed_register hu (v := v) trivial) (v := w) trivial
  obtain ⟨c, hc, hvc⟩ := exists_class_register (u := u) v
  have hclassv := classOf_mem ⟨c, mem_register_of_mem w hc, hvc⟩
  have hclassw := classOf_mem (exists_class_register (u := u.register v) w)
  -- The second variable may be new or not; if it is the first one, it is known by now.
  have hregistered := (h.register v).register (v := w) fun hnew =>
    ⟨linked_iff_of_not_occurs fun hw => hnew (Or.inl hw), fun t ht => hnew (Or.inl ⟨t, ht.2⟩)⟩
  apply (hregistered.merge hwell hclassv.1 hclassw.1 hclassv.2 hclassw.2 hok).describes
  · simp [occurs_append_singleton, or_assoc]
  · exact fun x y => linked_append_variables
  · intro x r
    rw [boundTo_append_singleton, or_iff_left_of_imp]
    rintro ⟨hr, ⟨-, rfl⟩ | ⟨-, rfl⟩⟩
    · simp at hr
    · simp at hr

/-- One equation of terms, by what stands on its sides. -/
theorem describes_unifyTerms {s t : Term} (hok : (u.unifyTerms s t).ok = true) :
    (u.unifyTerms s t).unifier.Describes (es ++ [(s, t)]) := by
  have hswap : ∀ s t a b, Equates (es ++ [(s, t)]) a b ↔ Equates (es ++ [(t, s)]) a b := by
    intro s t a b
    rw [equates_append_singleton, equates_append_singleton, or_comm (a := a = s ∧ b = t)]
  -- An equation between two rigid terms says nothing about variables.
  have hrigid : s.isRigid = true → t.isRigid = true → u.Describes (es ++ [(s, t)]) := by
    intro hs ht
    have hvars := Term.var_ne_of_isRigid hs
    have hvart := Term.var_ne_of_isRigid ht
    apply Classifies.describes h
    · simp [occurs_append_singleton, hvars, hvart]
    · simp [linked_append_rigid (Or.inl hs)]
    · simp [boundTo_append_singleton, hvars, hvart]
  cases s with
  | var v =>
    cases t with
    | var w => exact describes_unifyVariables hu h hok
    | constant name => exact describes_unifyVariable hu h rfl hok
    | null label => exact describes_unifyVariable hu h rfl hok
  | constant name =>
    cases t with
    | var w => exact (describes_unifyVariable hu h rfl hok).congr (hswap _ _)
    | constant name' => exact hrigid rfl rfl
    | null label => exact hrigid rfl rfl
  | null label =>
    cases t with
    | var w => exact (describes_unifyVariable hu h rfl hok).congr (hswap _ _)
    | constant name => exact hrigid rfl rfl
    | null label' => exact hrigid rfl rfl

/-- A list of equations, one after the other. -/
theorem describes_unifyPairs {more : List (Term × Term)} (hok : (u.unifyPairs more).ok = true) :
    (u.unifyPairs more).unifier.Describes (es ++ more) := by
  -- By induction on the equations to come; those that were taken are added to the ones before.
  induction more generalizing u es with
  | nil =>
    rw [List.append_nil]
    exact h
  | cons e more ih =>
    obtain ⟨s, t⟩ := e
    rw [unifyPairs] at hok ⊢
    cases hfirst : (u.unifyTerms s t).ok with
    | false => simp [hfirst] at hok
    | true =>
      simp only [hfirst, if_true] at hok ⊢
      have hwell := (meets_unifyTerms hu (s := s) (t := t) trivial trivial).wellFormed
      have hrest := ih hwell (describes_unifyTerms hu h hfirst) hok
      rwa [List.append_assoc] at hrest

end Steps

/-! ## §4 Other orders -/

theorem WellFormed.nodup {T : Term → Prop} {u : Unifier} (hu : u.WellFormed T) :
    u.classes.Nodup := by
  refine hu.disjoint.imp_of_mem fun {c d} hc _ hcd heq => ?_
  obtain ⟨v, hv⟩ := List.exists_mem_of_ne_nil _ (hu.valid c hc).nonempty
  exact hcd v hv (heq ▸ hv)

section Unique

variable {T : Term → Prop} {known : Variable → Prop} {linked : Variable → Variable → Prop}
  {bound : Variable → Term → Prop} {u u' : Unifier} (h : u.Classifies known linked bound)
  (h' : u'.Classifies known linked bound) (hu : u.WellFormed T) (hu' : u'.WellFormed T)

include h h' hu

/-- Unifiers that say the same have the same classes. -/
theorem Classifies.mem_classes {c : VariableClass} (hc : c ∈ u.classes) : c ∈ u'.classes := by
  obtain ⟨v, hv⟩ := List.exists_mem_of_ne_nil _ (hu.valid c hc).nonempty
  -- The other unifier has a class with the same member, hence with the same members.
  obtain ⟨d, hd, hvd⟩ := (h'.known_iff v).2 ((h.known_iff v).1 ⟨c, hc, hv⟩)
  have hmembers : c.members = d.members := by
    apply (h.strict c hc).ext (h'.strict d hd)
    intro w
    rw [h.linked_iff c hc v hv, h'.linked_iff d hd v hvd]
  have hrigid : c.rigid = d.rigid := by
    apply Option.ext
    intro t
    rw [h.bound_iff c hc, h'.bound_iff d hd, hmembers]
  obtain rfl : c = d := by
    cases c
    cases d
    simp_all
  exact hd

include hu'

/-- The classes are determined up to their order by what they say. -/
theorem Classifies.perm_classes : u.classes.Perm u'.classes :=
  (List.perm_ext_iff_of_nodup hu.nodup hu'.nodup).2 fun _ =>
    ⟨h.mem_classes h' hu, h'.mem_classes h hu'⟩

end Unique

theorem render_eq_of_perm {u u' : Unifier} (h : u.classes.Perm u'.classes) :
    u.render = u'.render := by
  rw [render, render, Text.sorted_eq_of_perm (h.map VariableClass.render)]

theorem meets_unifyPairs_empty (es : List (Term × Term)) :
    (empty.unifyPairs es).Meets (fun _ => True) empty fun θ =>
      ∀ e ∈ es, e.1.mapVariable θ = e.2.mapVariable θ :=
  meets_unifyPairs (wellFormed_empty _) fun _ _ => ⟨trivial, trivial⟩

theorem describes_unifyPairs_empty {es : List (Term × Term)}
    (hok : (empty.unifyPairs es).ok = true) : (empty.unifyPairs es).unifier.Describes es :=
  describes_unifyPairs (wellFormed_empty _) describes_empty hok

/-- Equations can be met exactly if some assignment makes the sides of each equal. -/
theorem ok_unifyPairs_iff (es : List (Term × Term)) :
    (empty.unifyPairs es).ok = true ↔
      ∃ θ : Assignment, ∀ s t, Equates es s t → s.mapVariable θ = t.mapVariable θ := by
  have hmeets := meets_unifyPairs_empty es
  have hsides : ∀ θ : Assignment, (∀ e ∈ es, e.1.mapVariable θ = e.2.mapVariable θ) ↔
      ∀ s t, Equates es s t → s.mapVariable θ = t.mapVariable θ := by
    intro θ
    refine ⟨fun hθ s t hst => ?_, fun hθ e he => hθ e.1 e.2 (Or.inl he)⟩
    rcases hst with hst | hts
    · exact hθ _ hst
    · exact (hθ _ hts).symm
  simp only [← hsides]
  refine ⟨fun hok => ?_, fun hsolvable => ?_⟩
  · -- The substitution of the unifier is such an assignment.
    have hrespects := hmeets.wellFormed.respects_substitution fun _ => 0
    exact ⟨_, ((hmeets.solutions hok _).1 hrespects).2⟩
  · obtain ⟨θ, hθ⟩ := hsolvable
    by_contra hfail
    exact hmeets.clash (by simpa using hfail) θ (respects_empty θ) hθ

/-- If equations can be met, then the variables with a class are those that occur in them, two
variables have the same class exactly if a chain of equations between variables leads from one to
the other, and a class is bound to a rigid term exactly if one of its members is equated with it.
Whether the equations can be met, the classes that they have then and the text of the unifier are
the same for every other order of the equations and of their sides. -/
theorem unifyPairs_components (es : List (Term × Term)) :
    ((empty.unifyPairs es).ok = true →
      let u := (empty.unifyPairs es).unifier
      (∀ v, (∃ c, u.class? v = some c) ↔ Occurs es v) ∧
      (∀ v w, Occurs es v → (u.class? v = u.class? w ↔ Linked es v w)) ∧
      (∀ v c, u.class? v = some c → (∀ w, w ∈ c.members ↔ Linked es v w) ∧
        ∀ t, c.rigid = some t ↔ t.isRigid = true ∧ ∃ w ∈ c.members, Equates es (.var w) t) ∧
      ∀ c, c ∈ u.classes ↔ ∃ v, u.class? v = some c) ∧
    ∀ es', Rearranged es es' →
      (empty.unifyPairs es).ok = (empty.unifyPairs es').ok ∧
      ((empty.unifyPairs es).ok = true →
        (empty.unifyPairs es).unifier.classes.Perm (empty.unifyPairs es').unifier.classes ∧
        (empty.unifyPairs es).unifier.render = (empty.unifyPairs es').unifier.render) := by
  have hwell := (meets_unifyPairs_empty es).wellFormed
  refine ⟨fun hok => ?_, fun es' hes' => ?_⟩
  · have h := describes_unifyPairs_empty hok
    generalize (empty.unifyPairs es).unifier = u at hwell h
    have hclass : ∀ v c, u.class? v = some c ↔ c ∈ u.classes ∧ v ∈ c.members :=
      fun v c => hwell.class?_eq_some_iff
    dsimp only
    refine ⟨fun v => ?_, fun v w hv => ?_, fun v c hc => ?_, fun c => ?_⟩
    · simp only [hclass]
      exact h.known_iff v
    · obtain ⟨c, hc, hvc⟩ := (h.known_iff v).2 hv
      rw [(hclass v c).2 ⟨hc, hvc⟩, eq_comm, hclass, ← h.linked_iff c hc v hvc]
      exact and_iff_right hc
    · obtain ⟨hc, hvc⟩ := (hclass v c).1 hc
      refine ⟨h.linked_iff c hc v hvc, fun t => ?_⟩
      rw [h.bound_iff c hc]
      exact (exists_congr fun w => and_left_comm).trans exists_and_left
    · simp only [hclass, exists_and_left]
      refine (and_iff_left_of_imp fun hc => ?_).symm
      exact List.exists_mem_of_ne_nil _ (hwell.valid c hc).nonempty
  · -- All that the classes say is said in terms of what is equated, which stays the same.
    have hequates : ∀ s t, Equates es s t ↔ Equates es' s t := fun s t => hes'.equates_iff
    have hsame : (empty.unifyPairs es).ok = (empty.unifyPairs es').ok := by
      rw [Bool.eq_iff_iff, ok_unifyPairs_iff, ok_unifyPairs_iff]
      simp only [hequates]
    refine ⟨hsame, fun hok => ?_⟩
    have h := describes_unifyPairs_empty hok
    have h' := (describes_unifyPairs_empty (hsame ▸ hok)).congr hequates
    have hperm := h.perm_classes h' hwell (meets_unifyPairs_empty es').wellFormed
    exact ⟨hperm, render_eq_of_perm hperm⟩

/-- Two classes that are bound to the same term stay two, and their order is not fixed. -/
example :
    let equations : List (Term × Term) := [(.universal "X", .constant "a"),
      (.universal "Y", .universal "Z"), (.constant "a", .universal "Y")]
    let first : VariableClass := ⟨[⟨"X", .universal⟩], some (.constant "a")⟩
    let second : VariableClass := ⟨[⟨"Y", .universal⟩, ⟨"Z", .universal⟩], some (.constant "a")⟩
    (empty.unifyPairs equations).unifier.classes = [first, second] ∧
      (empty.unifyPairs equations.reverse).unifier.classes = [second, first] := by
  decide +kernel

end Unifier

end ExistentialRules
