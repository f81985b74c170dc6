import ExistentialRules.Proofs.FoundHomomorphism

/-!
# What a search leaves unchanged

A search works on one substitution. A candidate that is tried binds variables in it, the rest of the
query binds more, and when this fails, the variables that the candidate has bound are taken back. A
variable that stands twice in a literal is bound once, and one that was bound before is not bound
again, so nothing is taken back that was there at the start. This needs nothing of the instance, not
even that its candidates have the signature asked for.

## Main definitions

* `Homomorphism.Extension.Frames`: what making terms equal leaves unchanged;
* `Homomorphism.Outcome.Frames`: what a search leaves unchanged.

## Main statements

* `Homomorphism.frames_extend`: one candidate;
* `Homomorphism.frames_tryCandidates`: the candidates of one literal;
* `Homomorphism.frames_search`: the whole query;
* `Homomorphism.search_frame`: failures leave no trace.
-/

namespace ExistentialRules

namespace Substitution

theorem Binds.of_lookup {θ : Substitution} {v : Variable} {t : Term} (h : θ.lookup v = some t) :
    θ.Binds v :=
  ⟨t, h⟩

theorem not_binds_iff {θ : Substitution} {v : Variable} : ¬ θ.Binds v ↔ θ.lookup v = none := by
  simp [Binds, Option.eq_none_iff_forall_ne_some]

end Substitution

namespace Homomorphism

/-! ## §1 One candidate -/

/-- What is bound in `θ` stays bound to the same term. The added variables are those that are bound
now and were not before, each is listed once, and all are among `vs`. -/
structure Extension.Frames (vs : List Variable) (θ : Substitution) (e : Extension) : Prop where
  kept : ∀ v t, θ.lookup v = some t → e.substitution.lookup v = some t
  mem_added_iff : ∀ v, v ∈ e.added ↔ ¬ θ.Binds v ∧ e.substitution.Binds v
  nodup : e.added.Nodup
  added : ∀ v ∈ e.added, v ∈ vs

section Extension

variable {vs : List Variable} {θ : Substitution}

theorem frames_unchanged (vs : List Variable) (θ : Substitution) (matched : Bool) :
    Extension.Frames vs θ ⟨matched, θ, []⟩ where
  kept := fun _ _ h => h
  mem_added_iff := by simp
  nodup := List.nodup_nil
  added := by simp

theorem Extension.Frames.mono {ws : List Variable} {e : Extension} (h : e.Frames vs θ)
    (hsubset : ∀ v ∈ vs, v ∈ ws) : e.Frames ws θ where
  kept := h.kept
  mem_added_iff := h.mem_added_iff
  nodup := h.nodup
  added := fun v hv => hsubset v (h.added v hv)

/-- A variable that was not bound is bound first; it is not among those that are added later. -/
theorem Extension.Frames.bind {e : Extension} {v : Variable} {t : Term}
    (hv : θ.lookup v = none) (h : e.Frames vs (θ.bind v t)) :
    Extension.Frames (v :: vs) θ { e with added := v :: e.added } where
  kept := by
    intro w s hw
    have hwv : w ≠ v := by
      intro heq
      rw [heq, hv] at hw
      cases hw
    apply h.kept
    rw [Substitution.lookup_bind_of_ne θ hwv, hw]
  mem_added_iff := by
    intro w
    have hlater := h.mem_added_iff w
    rw [Substitution.binds_bind_iff] at hlater
    rw [List.mem_cons, hlater]
    -- The variable itself is added now, and every other one later if at all.
    by_cases hwv : w = v
    · subst hwv
      have hbound : e.substitution.Binds w :=
        .of_lookup (h.kept w t (Substitution.lookup_bind_self θ w t))
      simp [Substitution.not_binds_iff.2 hv, hbound]
    · simp [hwv]
  nodup := by
    refine List.nodup_cons.2 ⟨fun hmem => ?_, h.nodup⟩
    exact ((h.mem_added_iff v).1 hmem).1 (.of_lookup (Substitution.lookup_bind_self θ v t))
  added := List.forall_mem_cons.2
    ⟨List.mem_cons_self, fun w hw => List.mem_cons_of_mem _ (h.added w hw)⟩

end Extension

/-- By induction along the two lists, up to the first clash. -/
theorem frames_extend (free : FreeVariables) (qs ts : List Term) (θ : Substitution) :
    (extend free qs ts θ).Frames (qs.filterMap free.freeVariable?) θ := by
  fun_induction extend free qs ts θ with
  -- A variable that is bound already to this very term: nothing is added.
  | case1 q qs ts θ v hq bound hv ih =>
    rw [List.filterMap_cons_some hq]
    exact ih.mono fun w hw => List.mem_cons_of_mem _ hw
  | case2 => exact frames_unchanged _ _ _
  -- A free variable without a value is bound here.
  | case3 q qs t ts θ v hq hv e ih =>
    rw [List.filterMap_cons_some hq]
    exact ih.bind hv
  | case4 qs t ts θ hq ih =>
    rw [List.filterMap_cons_none hq]
    exact ih
  | case5 => exact frames_unchanged _ _ _
  | case6 => exact frames_unchanged _ _ _

/-! ## §2 The search -/

/-- After a failure the substitution is `θ`. In any case what is bound in `θ` stays bound to the
same term, and what else is bound has the property `P`. -/
structure Outcome.Frames (P : Variable → Prop) (θ : Substitution) (o : Outcome) : Prop where
  failed : o.found = false → o.substitution = θ
  kept : ∀ v t, θ.lookup v = some t → o.substitution.lookup v = some t
  bound : ∀ v, o.substitution.Binds v → θ.Binds v ∨ P v

section Outcome

variable {P Q : Variable → Prop} {θ : Substitution}

theorem frames_start (P : Variable → Prop) (θ : Substitution) (found : Bool) :
    Outcome.Frames P θ ⟨found, θ⟩ where
  failed := fun _ => rfl
  kept := fun _ _ h => h
  bound := fun _ h => Or.inl h

theorem Outcome.Frames.mono {o : Outcome} (h : o.Frames P θ) (hPQ : ∀ v, P v → Q v) :
    o.Frames Q θ where
  failed := h.failed
  kept := h.kept
  bound := fun v hv => (h.bound v hv).imp_right (hPQ v)

/-- A success after a candidate was matched keeps what the candidate has kept. -/
theorem Outcome.Frames.after {vs : List Variable} {e : Extension} {o : Outcome}
    (he : e.Frames vs θ) (ho : o.Frames P e.substitution) (hvs : ∀ v ∈ vs, P v)
    (hfound : o.found = true) : o.Frames P θ where
  failed := by
    intro hfailed
    rw [hfound] at hfailed
    cases hfailed
  kept := fun v t hv => ho.kept v t (he.kept v t hv)
  bound := by
    intro v hv
    by_cases hold : θ.Binds v
    · exact Or.inl hold
    · rcases ho.bound v hv with hnew | hP
      · exact Or.inr (hvs v (he.added v ((he.mem_added_iff v).2 ⟨hold, hnew⟩)))
      · exact Or.inr hP

end Outcome

/-- By induction on the candidates: each one that fails leads back to `θ`. -/
theorem frames_tryCandidates (free : FreeVariables) {l : Literal} {rest : Substitution → Outcome}
    {P : Variable → Prop} (hrest : ∀ θ, (rest θ).Frames P θ)
    (hl : ∀ v ∈ l.arguments.filterMap free.freeVariable?, P v) (cs : List Literal)
    (θ : Substitution) : (tryCandidates free l rest cs θ).Frames P θ := by
  induction cs with
  | nil => exact frames_start P θ false
  | cons c cs ih =>
    have hextend := frames_extend free l.arguments c.arguments θ
    have hback := unbindAll_extend free l.arguments c.arguments θ
    rw [tryCandidates]
    generalize extend free l.arguments c.arguments θ = e at hextend hback ⊢
    -- A candidate fails at its terms or with the rest of the query. Both times its variables are
    -- taken back.
    cases hmatched : e.matched with
    | false => simpa [hback] using ih
    | true =>
      have hgoes := hrest e.substitution
      cases hfound : (rest e.substitution).found with
      | false => simpa [hfound, hgoes.failed hfound, hback] using ih
      | true => simpa [hfound] using Outcome.Frames.after hextend hgoes hl hfound

/-- The whole query binds only free variables that stand in it. -/
theorem frames_search (I : Instance) (free : FreeVariables) (query : List Literal)
    (θ : Substitution) :
    (search I free query θ).Frames
      (fun v => free.isFree v = true ∧ ∃ l ∈ query, v ∈ l.occurringVariables) θ := by
  -- By induction on the query, for every substitution, since each literal leaves another one.
  induction query generalizing θ with
  | nil => exact frames_start _ θ true
  | cons l ls ih =>
    refine frames_tryCandidates free (fun η => (ih η).mono fun v hv => ?_) (fun v hv => ?_) _ θ
    · obtain ⟨hfree, m, hm, hvm⟩ := hv
      exact ⟨hfree, m, List.mem_cons_of_mem _ hm, hvm⟩
    · obtain ⟨hfree, hvl⟩ := FreeVariables.mem_filterMap_freeVariable.1 hv
      exact ⟨hfree, l, List.mem_cons_self, hvl⟩

/-- Whatever the instance, the query, the free variables and the substitution at the start: a search
that fails ends with the substitution that it started from, and one that succeeds keeps what was
bound and binds only free variables of the query besides. To make a literal equal to another keeps
what was bound, whether it succeeds or not. It lists the variables that it has bound anew, each of
them once, and taking them back leads back to the start. -/
theorem search_frame (I : Instance) (query : List Literal) (free : FreeVariables)
    (θ : Substitution) :
    ((search I free query θ).found = false → (search I free query θ).substitution = θ) ∧
    ((search I free query θ).found = true →
      (∀ v t, θ.lookup v = some t → (search I free query θ).substitution.lookup v = some t) ∧
      ∀ v, ¬ θ.Binds v → (search I free query θ).substitution.Binds v →
        free.isFree v = true ∧ ∃ l ∈ query, v ∈ l.occurringVariables) ∧
    ∀ l c : Literal,
      let e := extend free l.arguments c.arguments θ
      (∀ v t, θ.lookup v = some t → e.substitution.lookup v = some t) ∧
      (∀ v, v ∈ e.added ↔ ¬ θ.Binds v ∧ e.substitution.Binds v) ∧
      e.added.Nodup ∧ e.substitution.unbindAll e.added = θ := by
  have hsearch := frames_search I free query θ
  refine ⟨hsearch.failed, fun _ => ⟨hsearch.kept, fun v hnew hv => ?_⟩, fun l c => ?_⟩
  · exact (hsearch.bound v hv).resolve_left hnew
  · have hextend := frames_extend free l.arguments c.arguments θ
    exact ⟨hextend.kept, hextend.mem_added_iff, hextend.nodup, unbindAll_extend free _ _ θ⟩

end Homomorphism

end ExistentialRules
