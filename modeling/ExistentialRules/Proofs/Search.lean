import ExistentialRules.Homomorphism
import ExistentialRules.Proofs.Assignment

/-!
# The search for homomorphisms is exact

A search succeeds exactly if some assignment of the free variables sends the query into the
instance. Each function of the search is described by the assignments that agree with its
substitution: matching one literal adds one condition, and a branch that fails gives back the
substitution it started from.

## Main statements

* `Instance.indexed_extend`: the buckets of an instance hold its literals;
* `Homomorphism.meets_extend`, `Homomorphism.meets_search`: one literal, and the whole query;
* `Instance.entailsWith_iff`: entailment is the existence of an assignment.
-/

namespace ExistentialRules

/-! ## §1 Buckets -/

namespace Instance

/-- The signatures of the buckets ascend, and a bucket holds the literals of its signature. -/
structure Indexed (I : Instance) : Prop where
  keys : Ascending.Strict (I.buckets.map Prod.fst)
  mem_candidates : ∀ s l, l ∈ I.candidates s ↔ l ∈ I.literals ∧ l.signature = s

theorem indexed_empty : empty.Indexed where
  keys := List.Pairwise.nil
  mem_candidates := by simp [empty, candidates]

/-- Inserting a literal adds it to the literals and changes no other, whether or not it was there.
-/
theorem mem_insert {I : Instance} {l m : Literal} :
    m ∈ (I.insert l).2.literals ↔ m = l ∨ m ∈ I.literals := by
  unfold insert
  split
  -- A literal that is there already adds nothing.
  · rename_i hl
    have hmem : l ∈ I.literals := by simpa [contains] using hl
    constructor
    · exact Or.inr
    · rintro (rfl | hm)
      · exact hmem
      · exact hm
  · simp

theorem insert_of_contains {I : Instance} {l : Literal} (hl : I.contains l = true) :
    I.insert l = (false, I) :=
  if_pos hl

section Insert

variable {I : Instance} (hkeys : Ascending.Strict (I.buckets.map Prod.fst)) {l : Literal}
  (hl : I.contains l = false)

include hkeys hl

/-- A new literal goes to the end of the bucket of its signature, and the other buckets stay. -/
theorem lookup_insert (s : Signature) :
    (I.insert l).2.buckets.lookup s =
      if s = l.signature then some (I.candidates s ++ [l]) else I.buckets.lookup s := by
  rw [insert, hl]
  simp only [Bool.false_eq_true, if_false]
  split
  · rename_i hs
    rw [hs, Ascending.lookup_alter_self _ _ hkeys, candidates]
  · rename_i hs
    rw [Ascending.lookup_alter_of_ne hs]

/-- Only the bucket of its signature grows by a new literal. -/
theorem candidates_insert (s : Signature) :
    (I.insert l).2.candidates s =
      if s = l.signature then I.candidates s ++ [l] else I.candidates s := by
  rw [candidates, lookup_insert hkeys hl]
  split
  · rfl
  · rfl

end Insert

/-- Inserting keeps the buckets in step with the literals. -/
theorem indexed_insert {I : Instance} (hI : I.Indexed) (l : Literal) :
    (I.insert l).2.Indexed := by
  cases hl : I.contains l with
  | true =>
    rw [insert_of_contains hl]
    exact hI
  | false =>
    refine ⟨?_, fun s m => ?_⟩
    · rw [insert, hl]
      simp only [Bool.false_eq_true, if_false]
      exact Ascending.strict_map_fst_alter _ _ hI.keys
    -- Only literals of its own signature share the bucket of the new one.
    · rw [candidates_insert hI.keys hl, mem_insert]
      have hold := hI.mem_candidates s m
      split
      · rw [List.mem_append, List.mem_singleton, hold]
        grind
      · rw [hold]
        grind

/-- The literals of an extended instance are the old ones and the given ones. -/
theorem mem_extend {I : Instance} {ls : List Literal} {m : Literal} :
    m ∈ (I.extend ls).literals ↔ m ∈ I.literals ∨ m ∈ ls := by
  induction ls generalizing I with
  | nil => simp [extend]
  | cons l ls ih =>
    have hstep : I.extend (l :: ls) = ((I.insert l).2).extend ls := rfl
    rw [hstep, ih, mem_insert, List.mem_cons]
    grind

theorem indexed_extend {I : Instance} (hI : I.Indexed) (ls : List Literal) :
    (I.extend ls).Indexed := by
  induction ls generalizing I with
  | nil => exact hI
  | cons l ls ih => exact ih (indexed_insert hI l)

theorem mem_ofList {ls : List Literal} {m : Literal} : m ∈ (ofList ls).literals ↔ m ∈ ls := by
  rw [ofList, mem_extend]
  simp [empty]

theorem indexed_ofList (ls : List Literal) : (ofList ls).Indexed :=
  indexed_extend indexed_empty ls

end Instance

/-! ## §2 Matching one literal -/

/-- The assignment gives every bound variable its term. -/
def Substitution.AgreesWith (θ : Substitution) (f : Assignment) : Prop :=
  ∀ v t, θ.lookup v = some t → f v = t

namespace Substitution

theorem agreesWith_applyVariable (θ : Substitution) : θ.AgreesWith θ.applyVariable :=
  fun _ _ h => applyVariable_of_lookup h

theorem agreesWith_empty (f : Assignment) : empty.AgreesWith f := by
  intro v t h
  cases h

/-- Binding a variable that was free adds one equation to what an assignment has to meet. -/
theorem agreesWith_bind_iff {θ : Substitution} {v : Variable} (hv : θ.lookup v = none) (t : Term)
    (f : Assignment) : (θ.bind v t).AgreesWith f ↔ θ.AgreesWith f ∧ f v = t := by
  constructor
  · intro h
    refine ⟨fun w s hw => h w s ?_, h v t (lookup_bind_self θ v t)⟩
    -- What was bound before is another variable, since `v` was not.
    have hne : w ≠ v := by
      rintro rfl
      rw [hv] at hw
      cases hw
    rw [lookup_bind_of_ne θ hne, hw]
  · rintro ⟨h, hft⟩ w s hw
    by_cases hwv : w = v
    · subst hwv
      rw [lookup_bind_self] at hw
      exact hft.trans (Option.some.inj hw)
    · exact h w s (by rwa [lookup_bind_of_ne θ hwv] at hw)

theorem unbind_comm (θ : Substitution) (v w : Variable) :
    (θ.unbind v).unbind w = (θ.unbind w).unbind v := by
  simp only [unbind, Ascending.erase, List.filter_filter, Substitution.mk.injEq]
  exact List.filter_congr fun entry _ => Bool.and_comm _ _

/-- The variables bound by a branch can be taken back in the reverse order, too. -/
theorem unbindAll_cons (θ : Substitution) (v : Variable) (vs : List Variable) :
    θ.unbindAll (v :: vs) = (θ.unbindAll vs).unbind v := by
  -- The first variable is unbound first, but the order does not matter.
  have hcomm : ∀ θ : Substitution, (θ.unbind v).unbindAll vs = (θ.unbindAll vs).unbind v := by
    induction vs with
    | nil => intro θ; rfl
    | cons w vs ih =>
      intro θ
      show ((θ.unbind v).unbind w).unbindAll vs = ((θ.unbind w).unbindAll vs).unbind v
      rw [unbind_comm, ih]
  exact hcomm θ

end Substitution

namespace FreeVariables

/-- The assignment on the free variables; the others stand for themselves. -/
def value (free : FreeVariables) (f : Assignment) : Assignment :=
  fun v => if free.isFree v then f v else .var v

/-- A free variable of the query is sent where the assignment sends it. -/
theorem mapVariable_of_freeVariable {free : FreeVariables} {q : Term} {v : Variable}
    (h : free.freeVariable? q = some v) (f : Assignment) :
    q.mapVariable (free.value f) = f v := by
  obtain ⟨hvar, hfree⟩ := Option.filter_eq_some_iff.1 h
  -- Only a variable can be free.
  cases q with
  | var w =>
    cases hvar
    simp [value, hfree]
  | constant name => cases hvar
  | null label => cases hvar

/-- All other terms of the query stand for themselves. -/
theorem mapVariable_of_not_freeVariable {free : FreeVariables} {q : Term}
    (h : free.freeVariable? q = none) (f : Assignment) : q.mapVariable (free.value f) = q := by
  cases q with
  | var w =>
    have hfree : free.isFree w = false := by
      simpa [freeVariable?, Term.toVariable?, Option.filter] using h
    simp [value, hfree]
  | constant name => rfl
  | null label => rfl

end FreeVariables

namespace Homomorphism

/-- Taking back the added variables leads back to the substitution at the start. -/
@[simp]
theorem unbindAll_extend (free : FreeVariables) (qs ts : List Term) (θ : Substitution) :
    (extend free qs ts θ).substitution.unbindAll (extend free qs ts θ).added = θ := by
  fun_induction extend free qs ts θ with
  | case1 q qs ts θ v hq bound hv ih => exact ih
  | case2 => rfl
  | case3 q qs t ts θ v hq hv e ih =>
    -- The variable bound last is taken back last.
    show e.substitution.unbindAll (v :: e.added) = θ
    rw [Substitution.unbindAll_cons, ih, Substitution.unbind_bind θ hv]
  | case4 qs t ts θ hq ih => exact ih
  | case5 => rfl
  | case6 => rfl

/-- The extension adds to the assignments that agree with `θ` exactly the condition that the terms
`qs` become `ts`. -/
structure Extension.Meets (free : FreeVariables) (qs ts : List Term) (θ : Substitution)
    (e : Extension) : Prop where
  matched : e.matched = true → ∀ f, e.substitution.AgreesWith f ↔
    θ.AgreesWith f ∧ qs.map (Term.mapVariable (free.value f)) = ts
  clash : e.matched = false → ∀ f, θ.AgreesWith f →
    qs.map (Term.mapVariable (free.value f)) ≠ ts

section

variable {free : FreeVariables} {q t : Term} {qs ts : List Term} {θ : Substitution}

/-- Where the first term of the query cannot become the wanted one, the extension is right to
fail. -/
theorem meets_clash (h : ∀ f, θ.AgreesWith f → q.mapVariable (free.value f) ≠ t) :
    Extension.Meets free (q :: qs) (t :: ts) θ ⟨false, θ, []⟩ where
  matched := fun hok => absurd hok (by simp)
  clash := by
    intro _ f hf heq
    exact h f hf (List.cons.inj heq).1

/-- Where the first term of the query becomes the wanted one anyway, only the others matter. -/
theorem Extension.Meets.cons {e : Extension} (he : e.Meets free qs ts θ)
    (h : ∀ f, θ.AgreesWith f → q.mapVariable (free.value f) = t) :
    e.Meets free (q :: qs) (t :: ts) θ where
  matched := by
    intro hok f
    rw [he.matched hok f, List.map_cons, List.cons.injEq]
    exact ⟨fun hf => ⟨hf.1, h f hf.1, hf.2⟩, fun hf => ⟨hf.1, hf.2.2⟩⟩
  clash := by
    intro hok f hf heq
    exact he.clash hok f hf (List.cons.inj heq).2

/-- A free variable without a value takes the wanted term as its value. -/
theorem Extension.Meets.bind {e : Extension} {v : Variable} (hv : θ.lookup v = none)
    (hq : free.freeVariable? q = some v) (he : e.Meets free qs ts (θ.bind v t)) :
    Extension.Meets free (q :: qs) (t :: ts) θ { e with added := v :: e.added } where
  matched := by
    intro hok f
    rw [he.matched hok f, Substitution.agreesWith_bind_iff hv, List.map_cons, List.cons.injEq,
      FreeVariables.mapVariable_of_freeVariable hq, and_assoc]
  clash := by
    intro hok f hf heq
    obtain ⟨hhead, hrest⟩ := List.cons.inj heq
    rw [FreeVariables.mapVariable_of_freeVariable hq] at hhead
    exact he.clash hok f ((Substitution.agreesWith_bind_iff hv t f).2 ⟨hf, hhead⟩) hrest

end

/-- Matching the terms of a query with given ones adds one condition: that they become equal. -/
theorem meets_extend (free : FreeVariables) {qs ts : List Term} (hlength : qs.length = ts.length)
    (θ : Substitution) : (extend free qs ts θ).Meets free qs ts θ := by
  -- By induction on the terms of the query, for every substitution reached so far.
  induction qs generalizing ts θ with
  | nil =>
    cases ts with
    | nil => exact ⟨fun _ f => by simp [extend], fun hok => absurd hok (by simp [extend])⟩
    | cons t ts => simp at hlength
  | cons q qs ih =>
    cases ts with
    | nil => simp at hlength
    | cons t ts =>
      have hrest : qs.length = ts.length := by simpa using hlength
      rw [extend]
      cases hq : free.freeVariable? q with
      | none =>
        -- A term that is not free has to be the wanted term already.
        have hvalue := FreeVariables.mapVariable_of_not_freeVariable hq
        dsimp only
        split
        · rename_i hqt
          exact (ih hrest θ).cons fun f _ => (hvalue f).trans hqt
        · rename_i hqt
          exact meets_clash fun f _ heq => hqt ((hvalue f).symm.trans heq)
      | some v =>
        -- A free variable is bound now, or its earlier value decides.
        have hvalue := FreeVariables.mapVariable_of_freeVariable hq
        dsimp only
        cases hv : θ.lookup v with
        | none => exact Extension.Meets.bind hv hq (ih hrest (θ.bind v t))
        | some bound =>
          dsimp only
          split
          · rename_i hbt
            exact (ih hrest θ).cons fun f hf => (hvalue f).trans ((hf v bound hv).trans hbt)
          · rename_i hbt
            exact meets_clash fun f hf heq =>
              hbt ((hf v bound hv).symm.trans ((hvalue f).symm.trans heq))

/-! ## §3 The search -/

/-- If the search succeeded, then all that agrees with its substitution meets the condition `P`; if
it failed, then nothing that agrees with `θ` does, and `θ` is given back. -/
structure Outcome.Meets (θ : Substitution) (P : Assignment → Prop) (o : Outcome) : Prop where
  found : o.found = true → ∀ f, o.substitution.AgreesWith f → θ.AgreesWith f ∧ P f
  failed : o.found = false → o.substitution = θ ∧ ∀ f, θ.AgreesWith f → ¬ P f

/-- For literals of one signature, only the arguments have to be compared. -/
theorem under_eq_iff {l c : Literal} (hsig : c.signature = l.signature) (h : Assignment) :
    l.under h = c ↔ l.arguments.map (Term.mapVariable h) = c.arguments := by
  have hpredicate : l.predicate = c.predicate := (congrArg Signature.predicate hsig).symm
  cases c
  simp_all [Literal.under, Literal.mapTerms]

/-- A candidate that serves no assignment can be passed over. -/
theorem Outcome.Meets.skip {θ : Substitution} {m : Assignment → Literal} {P : Assignment → Prop}
    {c : Literal} {cs : List Literal} {o : Outcome} (ho : o.Meets θ fun f => m f ∈ cs ∧ P f)
    (hc : ∀ f, θ.AgreesWith f → m f = c → ¬ P f) : o.Meets θ fun f => m f ∈ c :: cs ∧ P f where
  found := by
    intro hfound f hf
    obtain ⟨hθ, hmem, hP⟩ := ho.found hfound f hf
    exact ⟨hθ, List.mem_cons_of_mem _ hmem, hP⟩
  failed := by
    intro hfailed
    obtain ⟨hback, hnone⟩ := ho.failed hfailed
    refine ⟨hback, fun f hf hboth => ?_⟩
    rcases List.mem_cons.1 hboth.1 with heq | hmem
    · exact hc f hf heq hboth.2
    · exact hnone f hf ⟨hmem, hboth.2⟩

/-- By induction on the candidates: the first one serves, or `θ` comes back and the others are
tried. -/
theorem meets_tryCandidates (free : FreeVariables) {l : Literal} {rest : Substitution → Outcome}
    {P : Assignment → Prop} (hrest : ∀ θ, (rest θ).Meets θ P) {cs : List Literal}
    (hcs : ∀ c ∈ cs, c.signature = l.signature) (θ : Substitution) :
    (tryCandidates free l rest cs θ).Meets θ fun f => l.under (free.value f) ∈ cs ∧ P f := by
  induction cs generalizing θ with
  | nil =>
    exact ⟨fun hfound => absurd hfound (by simp [tryCandidates]), fun _ => ⟨rfl, by simp⟩⟩
  | cons c cs ih =>
    have hsig := hcs c List.mem_cons_self
    have hlater := ih fun d hd => hcs d (List.mem_cons_of_mem _ hd)
    have hlength : l.arguments.length = c.arguments.length :=
      (congrArg Signature.arity hsig).symm
    have hextend := meets_extend free hlength θ
    have hrestored := unbindAll_extend free l.arguments c.arguments θ
    rw [tryCandidates]
    generalize extend free l.arguments c.arguments θ = e at hextend hrestored ⊢
    cases hmatched : e.matched with
    | false =>
      -- The literal does not match the candidate.
      simp only [Bool.false_eq_true, if_false]
      rw [hrestored]
      refine (hlater θ).skip fun f hf heq => ?_
      exact absurd ((under_eq_iff hsig _).1 heq) (hextend.clash hmatched f hf)
    | true =>
      have hagrees := hextend.matched hmatched
      have hgoes := hrest e.substitution
      cases hfound : (rest e.substitution).found with
      | false =>
        -- The literal matches, but the rest of the query fails.
        obtain ⟨hback, hnone⟩ := hgoes.failed hfound
        simp only [hfound, hback, Bool.false_eq_true, if_false, if_true]
        rw [hrestored]
        refine (hlater θ).skip fun f hf heq => ?_
        exact hnone f ((hagrees f).2 ⟨hf, (under_eq_iff hsig _).1 heq⟩)
      | true =>
        -- The candidate serves, and the rest of the query has found its values.
        simp only [hfound, if_true]
        refine ⟨fun _ f hf => ?_, fun hok => absurd hok (by simp [hfound])⟩
        obtain ⟨he, hP⟩ := hgoes.found hfound f hf
        obtain ⟨hθ, heq⟩ := (hagrees f).1 he
        refine ⟨hθ, ?_, hP⟩
        rw [(under_eq_iff hsig _).2 heq]
        exact List.mem_cons_self

/-- The search as a whole: it succeeds exactly if some assignment that agrees with the substitution
sends the query into the instance. -/
theorem meets_search {I : Instance} (hI : I.Indexed) (free : FreeVariables) (query : List Literal)
    (θ : Substitution) :
    (search I free query θ).Meets θ fun f => ∀ l ∈ query, l.under (free.value f) ∈ I.literals := by
  -- By induction on the query: the rest of it is what a candidate has to leave possible.
  induction query generalizing θ with
  | nil => exact ⟨fun _ f hf => ⟨hf, by simp⟩, fun hok => absurd hok (by simp [search])⟩
  | cons l ls ih =>
    -- The candidates for a literal are all facts that it could become.
    have hsig : ∀ c ∈ I.candidates l.signature, c.signature = l.signature :=
      fun c hc => ((hI.mem_candidates _ c).1 hc).2
    have hmem : ∀ f, l.under (free.value f) ∈ I.candidates l.signature ↔
        l.under (free.value f) ∈ I.literals := by
      intro f
      simp [hI.mem_candidates]
    have htry := meets_tryCandidates free ih hsig θ
    simp only [hmem] at htry
    simp only [List.forall_mem_cons]
    exact htry

end Homomorphism

/-! ## §4 Entailment -/

/-- A query is entailed exactly if some assignment of its free variables sends it into the
instance. -/
theorem Instance.entailsWith_iff {I : Instance} (hI : I.Indexed) (query : List Literal)
    (free : FreeVariables) :
    I.entailsWith query free = true ↔
      ∃ f : Assignment, ∀ l ∈ query, l.under (free.value f) ∈ I.literals := by
  have hsearch := Homomorphism.meets_search hI free query .empty
  unfold entailsWith findHomomorphism
  cases hfound : (Homomorphism.search I free query .empty).found with
  | true =>
    -- The substitution that was found is itself such an assignment.
    have hf := hsearch.found hfound _ (Substitution.agreesWith_applyVariable _)
    exact ⟨fun _ => ⟨_, hf.2⟩, fun _ => by simp [hfound]⟩
  | false =>
    -- A search that fails rules out every assignment, for it starts from no binding at all.
    have hnone := (hsearch.failed hfound).2
    refine ⟨fun hsome => absurd hsome (by simp [hfound]), fun hexists => ?_⟩
    obtain ⟨f, hf⟩ := hexists
    exact absurd hf (hnone f (Substitution.agreesWith_empty f))

end ExistentialRules
