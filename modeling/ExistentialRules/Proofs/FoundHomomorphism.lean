import ExistentialRules.Proofs.InstanceHistory

/-!
# Homomorphisms that are found

If some assignment of the free variables sends a query into an instance, then the search returns a
substitution that does. This substitution binds the free variables of the query and no others: a
literal that finds its place binds its own free variables, and what failed branches have bound is
taken back.

## Main definitions

* `Substitution.Binds`: the variables that a substitution binds;
* `Homomorphism.FirstServing`: the candidate that a search settles on.

## Main statements

* `Homomorphism.exists_firstServing_of_search`: a success goes through the first candidate that
  serves;
* `Homomorphism.binds_extend`, `Homomorphism.binds_search`: what one literal binds, and the whole
  query;
* `Instance.findHomomorphism_exact`: the search is sound and complete, after every history.
-/

namespace ExistentialRules

/-! ## §1 Bound variables -/

namespace Substitution

/-- The substitution has a term for the variable. -/
def Binds (θ : Substitution) (v : Variable) : Prop :=
  ∃ t, θ.lookup v = some t

theorem not_binds_empty (v : Variable) : ¬ empty.Binds v := by
  intro h
  obtain ⟨t, ht⟩ := h
  cases ht

theorem binds_bind_iff {θ : Substitution} {v w : Variable} {t : Term} :
    (θ.bind v t).Binds w ↔ θ.Binds w ∨ w = v := by
  by_cases hwv : w = v
  · subst hwv
    exact iff_of_true ⟨t, lookup_bind_self θ w t⟩ (Or.inr rfl)
  · simp only [Binds, lookup_bind_of_ne θ hwv, hwv, or_false]

theorem applyVariable_of_not_binds {θ : Substitution} {v : Variable} (h : ¬ θ.Binds v) :
    θ.applyVariable v = .var v :=
  applyVariable_of_lookup_none (Option.eq_none_iff_forall_not_mem.2 fun t ht => h ⟨t, ht⟩)

end Substitution

namespace FreeVariables

/-- A substitution that binds free variables only is an assignment of the free variables. -/
theorem value_applyVariable {free : FreeVariables} {θ : Substitution}
    (h : ∀ v, θ.Binds v → free.isFree v = true) : free.value θ.applyVariable = θ.applyVariable := by
  funext v
  by_cases hfree : free.isFree v = true
  · exact if_pos hfree
  · rw [Substitution.applyVariable_of_not_binds fun hv => hfree (h v hv)]
    exact if_neg hfree

/-- The free variables of a literal can be read off its arguments. -/
theorem mem_filterMap_freeVariable {free : FreeVariables} {l : Literal} {v : Variable} :
    v ∈ l.arguments.filterMap free.freeVariable? ↔
      free.isFree v = true ∧ v ∈ l.occurringVariables := by
  simp only [freeVariable?, Option.filter_eq_some_iff, Literal.occurringVariables,
    List.mem_filterMap]
  refine ⟨fun h => ?_, fun h => ?_⟩
  · obtain ⟨q, hq, hvar, hfree⟩ := h
    exact ⟨hfree, q, hq, hvar⟩
  · obtain ⟨hfree, q, hq, hvar⟩ := h
    exact ⟨q, hq, hvar, hfree⟩

end FreeVariables

/-! ## §2 What a search binds -/

namespace Homomorphism

/-- Terms that are made equal to others have their free variables bound. -/
theorem binds_extend (free : FreeVariables) {qs ts : List Term} (hlength : qs.length = ts.length)
    (θ : Substitution) (hok : (extend free qs ts θ).matched = true) (v : Variable) :
    (extend free qs ts θ).substitution.Binds v ↔
      θ.Binds v ∨ v ∈ qs.filterMap free.freeVariable? := by
  -- By induction on the terms of the query, for the substitution reached so far.
  induction qs generalizing ts θ with
  | nil => simp [extend]
  | cons q qs ih =>
    cases ts with
    | nil => simp at hlength
    | cons t ts =>
      have hrest : qs.length = ts.length := by simpa using hlength
      rw [extend] at hok ⊢
      cases hq : free.freeVariable? q with
      | none =>
        simp only [hq, List.filterMap_cons_none] at hok ⊢
        split at hok
        · rename_i hqt
          rw [if_pos hqt]
          exact ih hrest θ hok
        · cases hok
      | some w =>
        simp only [hq, List.filterMap_cons_some hq, List.mem_cons] at hok ⊢
        cases hw : θ.lookup w with
        | none =>
          -- The variable is bound here and now.
          simp only [hw] at hok ⊢
          rw [ih hrest (θ.bind w t) hok, Substitution.binds_bind_iff, or_assoc]
        | some bound =>
          -- The variable was bound before.
          simp only [hw] at hok ⊢
          split at hok
          · rename_i hbt
            have hold : v = w → θ.Binds v := by
              intro hvw
              exact ⟨bound, hvw ▸ hw⟩
            rw [if_pos hbt, ih hrest θ hok, ← or_assoc, or_iff_left_of_imp hold]
          · cases hok

/-- The candidate `c` at position `i` matches the literal, and none of those before it serves an
assignment that meets the condition `P`. -/
structure FirstServing (free : FreeVariables) (l : Literal) (P : Assignment → Prop)
    (θ : Substitution) (cs : List Literal) (i : Nat) (c : Literal) : Prop where
  place : cs[i]? = some c
  signature : c.signature = l.signature
  matched : (extend free l.arguments c.arguments θ).matched = true
  before : ∀ j < i, ∀ f, θ.AgreesWith f → cs[j]? = some (l.under (free.value f)) → ¬ P f

/-- A candidate that serves no assignment can be put in front. -/
theorem FirstServing.later {free : FreeVariables} {l : Literal} {P : Assignment → Prop}
    {θ : Substitution} {cs : List Literal} {i : Nat} {c d : Literal}
    (h : FirstServing free l P θ cs i d)
    (hc : ∀ f, θ.AgreesWith f → l.under (free.value f) = c → ¬ P f) :
    FirstServing free l P θ (c :: cs) (i + 1) d where
  place := h.place
  signature := h.signature
  matched := h.matched
  before := by
    intro j hj f hf hplace
    cases j with
    | zero => exact hc f hf (Option.some.inj hplace).symm
    | succ j => exact h.before j (Nat.lt_of_succ_lt_succ hj) f hf hplace

/-- A search that succeeds has sent the literal to the first candidate that serves, with the
substitution that it started from, and has gone on from there. -/
theorem exists_firstServing_of_found {free : FreeVariables} {l : Literal}
    {rest : Substitution → Outcome} {P : Assignment → Prop} (hrest : ∀ θ, (rest θ).Meets θ P)
    {cs : List Literal} (hcs : ∀ c ∈ cs, c.signature = l.signature) {θ : Substitution}
    (hfound : (tryCandidates free l rest cs θ).found = true) :
    ∃ i c, FirstServing free l P θ cs i c ∧
      tryCandidates free l rest cs θ =
        rest (extend free l.arguments c.arguments θ).substitution := by
  induction cs with
  | nil => cases hfound
  | cons c cs ih =>
    have hsig := hcs c List.mem_cons_self
    have hextend := meets_extend free (congrArg Signature.arity hsig).symm θ
    -- Where the first candidate serves nothing, the search goes on as if it were not there.
    have hlater : tryCandidates free l rest (c :: cs) θ = tryCandidates free l rest cs θ →
        (∀ f, θ.AgreesWith f → l.under (free.value f) = c → ¬ P f) →
        ∃ i d, FirstServing free l P θ (c :: cs) i d ∧
          tryCandidates free l rest (c :: cs) θ =
            rest (extend free l.arguments d.arguments θ).substitution := by
      intro heq hnone
      rw [heq] at hfound ⊢
      obtain ⟨i, d, hd, hgoes⟩ := ih (fun d hd => hcs d (List.mem_cons_of_mem _ hd)) hfound
      exact ⟨i + 1, d, hd.later hnone, hgoes⟩
    cases hmatched : (extend free l.arguments c.arguments θ).matched with
    | false =>
      apply hlater
      · simp [tryCandidates, hmatched]
      · exact fun f hf heq => absurd ((under_eq_iff hsig _).1 heq) (hextend.clash hmatched f hf)
    | true =>
      cases hgoes : (rest (extend free l.arguments c.arguments θ).substitution).found with
      | false =>
        -- The first candidate matches, but the rest of the query fails and gives its bindings back.
        obtain ⟨hback, hnone⟩ := (hrest _).failed hgoes
        apply hlater
        · simp [tryCandidates, hmatched, hgoes, hback]
        · exact fun f hf heq =>
            hnone f ((hextend.matched hmatched f).2 ⟨hf, (under_eq_iff hsig _).1 heq⟩)
      | true =>
        -- The first candidate matches and the rest of the query succeeds from there.
        refine ⟨0, c, ⟨rfl, hsig, hmatched, fun j hj => absurd hj j.not_lt_zero⟩, ?_⟩
        simp [tryCandidates, hmatched, hgoes]

/-- A search that succeeds goes on from the first candidate from which the rest of the query can be
reached. -/
theorem exists_firstServing_of_search {I : Instance} (hI : I.Indexed) {free : FreeVariables}
    {l : Literal} {ls : List Literal} {θ : Substitution}
    (hfound : (search I free (l :: ls) θ).found = true) :
    ∃ i c, FirstServing free l (fun f => ∀ m ∈ ls, m.under (free.value f) ∈ I.literals) θ
        (I.candidates l.signature) i c ∧
      search I free (l :: ls) θ =
        search I free ls (extend free l.arguments c.arguments θ).substitution := by
  have hsig : ∀ c ∈ I.candidates l.signature, c.signature = l.signature :=
    fun c hc => ((hI.mem_candidates _ c).1 hc).2
  exact exists_firstServing_of_found (meets_search hI free ls) hsig hfound

/-- A search that succeeds binds the free variables of the query, and no others. -/
theorem binds_search {I : Instance} (hI : I.Indexed) (free : FreeVariables) (query : List Literal)
    (θ : Substitution) (hfound : (search I free query θ).found = true) (v : Variable) :
    (search I free query θ).substitution.Binds v ↔
      θ.Binds v ∨ free.isFree v = true ∧ ∃ l ∈ query, v ∈ l.occurringVariables := by
  induction query generalizing θ with
  | nil => simp [search]
  | cons l ls ih =>
    obtain ⟨i, c, hc, heq⟩ := exists_firstServing_of_search hI hfound
    have hlength : l.arguments.length = c.arguments.length :=
      (congrArg Signature.arity hc.signature).symm
    rw [heq] at hfound ⊢
    -- The first literal binds its own variables, the rest of the query those that are left.
    rw [ih _ hfound, binds_extend free hlength θ hc.matched,
      FreeVariables.mem_filterMap_freeVariable, or_assoc, ← and_or_left]
    simp only [List.mem_cons, exists_eq_or_imp]

end Homomorphism

/-! ## §3 The search is exact -/

namespace Instance

section Found

variable {I : Instance} {query : List Literal} {free : FreeVariables} {θ : Substitution}

/-- A homomorphism is returned exactly if the search succeeds, and it is the substitution of the
search. -/
theorem findHomomorphism_eq_some_iff :
    I.findHomomorphism query free = some θ ↔
      (Homomorphism.search I free query .empty).found = true ∧
        (Homomorphism.search I free query .empty).substitution = θ := by
  simp [findHomomorphism]

variable (hI : I.Indexed) (hθ : I.findHomomorphism query free = some θ)

include hI hθ

/-- The homomorphism binds the free variables of the query and no others. -/
theorem binds_of_findHomomorphism (v : Variable) :
    θ.Binds v ↔ free.isFree v = true ∧ ∃ l ∈ query, v ∈ l.occurringVariables := by
  obtain ⟨hfound, rfl⟩ := findHomomorphism_eq_some_iff.1 hθ
  rw [Homomorphism.binds_search hI free query .empty hfound v]
  exact or_iff_right (Substitution.not_binds_empty v)

/-- The homomorphism sends every literal of the query into the instance. -/
theorem applyLiteral_mem_of_findHomomorphism {l : Literal} (hl : l ∈ query) :
    θ.applyLiteral l ∈ I.literals := by
  have hfree := fun v hv => ((binds_of_findHomomorphism hI hθ v).1 hv).1
  obtain ⟨hfound, rfl⟩ := findHomomorphism_eq_some_iff.1 hθ
  -- The substitution agrees with itself as an assignment, and that is all the search asks for.
  have hsent := ((Homomorphism.meets_search hI free query .empty).found hfound _
    (Substitution.agreesWith_applyVariable _)).2 l hl
  rwa [FreeVariables.value_applyVariable hfree] at hsent

end Found

/-- After every history of insertions and removals, a homomorphism is found exactly if some
assignment of the free variables sends the query into the instance. The substitution found binds
the free variables of the query and no others, and sends every literal of the query into the
instance. -/
theorem findHomomorphism_exact (changes : List Change) (query : List Literal)
    (free : FreeVariables) :
    ((∃ θ, (ofHistory changes).findHomomorphism query free = some θ) ↔
      ∃ f : Assignment, ∀ l ∈ query,
        (ofHistory changes).contains (l.under (free.value f)) = true) ∧
      ∀ θ, (ofHistory changes).findHomomorphism query free = some θ →
        (∀ v, θ.Binds v ↔ free.isFree v = true ∧ ∃ l ∈ query, v ∈ l.occurringVariables) ∧
          ∀ l ∈ query, (ofHistory changes).contains (θ.applyLiteral l) = true := by
  have hI := indexed_ofHistory changes
  simp only [contains, List.contains_iff_mem]
  refine ⟨?_, fun θ hθ => ⟨binds_of_findHomomorphism hI hθ, fun l hl => ?_⟩⟩
  · rw [← entailsWith_iff hI query free, entailsWith, Option.isSome_iff_exists]
  · exact applyLiteral_mem_of_findHomomorphism hI hθ hl

end Instance

end ExistentialRules
