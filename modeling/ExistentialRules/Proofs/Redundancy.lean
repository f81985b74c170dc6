import ExistentialRules.Proofs.NegativeReliance

/-!
# Redundant applications

An application of a rule turns out to be redundant if its head holds for other values of the
existential variables and some fresh term is not needed then. This is about the applications that
make an earlier one redundant, and which of them are found.

The trigger of the restraining rule has to be there before the restrained rule is applied. Where it
uses what the latter adds, there must be a trigger like it, with other terms in place of the fresh
ones, that does not satisfy the match of the restrained rule.

## Main definitions

* `Rule.AppliesAfter`: two applications, one after the other;
* `Rule.MakesRedundant`: the second application gives other values to some of the fresh terms;
* `Rule.Anticipated`: its trigger could have been there before the first.

## Main statements

* `Rule.Anticipated.restrains`: a trigger that could have been there before is put there;
* `Rule.negativelyRelies_of_makesRedundant`: what is not missed.
-/

namespace ExistentialRules

namespace Rule

/-! ## §1 Two applications -/

/-- First `r₂` is applied at the match `h₂` with the fresh terms `n`, then `r₁` with the fresh terms
`m`, at a match `h₁` for which the facts added by `r₂` count too. -/
structure AppliesAfter (r₁ r₂ : Rule) (I : Finset Literal) (h₁ h₂ n m : Assignment) : Prop where
  earlier : r₂.Unsatisfied h₂ I
  freshEarlier : r₂.FreshValues [r₁, r₂] I n
  later : r₁.Unsatisfied h₁ (I ∪ r₂.result h₂ n)
  freshLater : r₁.FreshValues [r₁, r₂] (I ∪ r₂.result h₂ n) m

/-! ## §2 Terms in place of fresh terms -/

/-- The terms `n` of the existential variables are replaced by `n'`; other terms stay. -/
def renewed (r : Rule) (n n' : Assignment) (t : Term) : Term :=
  ((r.existentials.find? fun z => n z = t).map n').getD t

/-- The facts that a match of the rule uses. -/
def premises (r : Rule) (h : Assignment) : Finset Literal :=
  (r.body.map (Literal.under h)).toFinset

theorem mem_premises {r : Rule} {h : Assignment} {m : Literal} :
    m ∈ r.premises h ↔ ∃ l ∈ r.body, l.under h = m := by
  simp [premises]

/-- A term is the fresh value of an existential variable and replaced, or it is not and stays. -/
theorem renewed_cases (r : Rule) (n n' : Assignment) (t : Term) :
    (∃ z ∈ r.existentials, n z = t ∧ r.renewed n n' t = n' z) ∨
      (∀ z ∈ r.existentials, n z ≠ t) ∧ r.renewed n n' t = t := by
  unfold renewed
  cases hfind : r.existentials.find? fun z => n z = t with
  | some z =>
    exact Or.inl ⟨z, List.mem_of_find?_eq_some hfind, by simpa using List.find?_some hfind, rfl⟩
  | none => exact Or.inr ⟨by simpa using List.find?_eq_none.1 hfind, rfl⟩

section Renewed

variable {r : Rule} {n n' : Assignment}

theorem renewed_of_ne {t : Term} (ht : ∀ z ∈ r.existentials, n z ≠ t) : r.renewed n n' t = t := by
  rcases r.renewed_cases n n' t with ⟨z, hz, heq, -⟩ | ⟨-, heq⟩
  · exact absurd heq (ht z hz)
  · exact heq

section Fresh

variable {rules : List Rule} {J : Finset Literal} (hfresh : r.FreshValues rules J n)

include hfresh

/-- Fresh terms are different for different variables, so each is replaced by its own new term. -/
theorem renewed_of_mem {z : Variable} (hz : z ∈ r.existentials) : r.renewed n n' (n z) = n' z := by
  rcases r.renewed_cases n n' (n z) with ⟨z', hz', heq, hvalue⟩ | ⟨hnot, -⟩
  · rw [hvalue, hfresh.injective z' hz' z hz heq]
  · exact absurd rfl (hnot z hz)

/-- Terms that occur in the facts are not replaced. -/
theorem renewed_of_mem_arguments {l : Literal} (hl : l ∈ J) {t : Term} (ht : t ∈ l.arguments) :
    r.renewed n n' t = t := by
  apply renewed_of_ne
  intro z hz heq
  rw [← heq] at ht
  exact (hfresh.fresh z hz).notMem l hl ht

/-- Constants and nulls of the rules are not replaced. -/
theorem renewed_of_mentions {s : Rule} (hs : s ∈ rules) {t : Term} (hrigid : t.isRigid = true)
    (ht : s.Mentions t) : r.renewed n n' t = t := by
  apply renewed_of_ne
  intro z hz heq
  subst heq
  exact (hfresh.fresh z hz).not_mentions hrigid s hs ht

end Fresh

end Renewed

/-- A map of terms that leaves the constants and nulls of a literal alone. -/
theorem mapTerms_under {h : Assignment} {l : Literal} {φ : Term → Term}
    (hφ : ∀ t ∈ l.arguments, t.isRigid = true → φ t = t) :
    (l.under h).mapTerms φ = l.under fun v => φ (h v) := by
  simp only [Literal.under, Literal.mapTerms, List.map_map, Literal.mk.injEq, true_and]
  refine List.map_congr_left fun t ht => ?_
  cases t with
  | var v => rfl
  | constant name => exact hφ _ ht rfl
  | null label => exact hφ _ ht rfl

theorem mapTerms_of_fixed {l : Literal} {φ : Term → Term} (hφ : ∀ t ∈ l.arguments, φ t = t) :
    l.mapTerms φ = l := by
  have hargs : l.arguments.map φ = l.arguments :=
    (List.map_congr_left hφ).trans (List.map_id' l.arguments)
  rw [Literal.mapTerms, hargs]

/-- If the facts are sent into others by a map of terms that leaves the rule's constants and nulls
alone, then a satisfied match becomes a satisfied match there. -/
theorem Satisfied.mapTerms {r : Rule} {h : Assignment} {I J : Finset Literal}
    (hs : r.Satisfied h I) {φ : Term → Term}
    (hfixed : ∀ t, t.isRigid = true → r.Mentions t → φ t = t)
    (hφ : ∀ l ∈ I, l.mapTerms φ ∈ J) : r.Satisfied (fun v => φ (h v)) J := by
  obtain ⟨n, hn⟩ := hs
  refine ⟨fun v => φ (n v), fun l hl => ?_⟩
  -- The values of body variables and of existential ones are mapped alike.
  have hcomp : r.extended (fun v => φ (h v)) (fun v => φ (n v)) =
      fun v => φ (r.extended h n v) := by
    funext v
    exact (apply_ite φ _ _ _).symm
  rw [hcomp, ← mapTerms_under fun t ht hrigid =>
    hfixed t hrigid ⟨l, List.mem_append_right _ hl, ht⟩]
  exact hφ _ (hn l hl)

/-! ## §3 What is not missed -/

/-- After `r₂`, with the fresh terms `n`, the rule `r₁` is applied with the fresh terms `m`. If the
variables in `Z` take their values from `g` and not from `n`, then all that `r₂` asserted of them is
among what `r₁` asserts, and some fresh term is not needed. -/
structure MakesRedundant (r₁ r₂ : Rule) (I : Finset Literal) (h₁ h₂ n m g : Assignment)
    (Z : Set Variable) : Prop extends AppliesAfter r₁ r₂ I h₁ h₂ n m where
  nonempty : Z.Nonempty
  existential : ∀ z ∈ Z, z ∈ r₂.existentials
  unchanged : ∀ z ∈ r₂.existentials, z ∉ Z → g z = n z
  redirected : ∀ l ∈ r₂.head, (∃ z ∈ Z, z ∈ l.occurringVariables) →
    l.under (r₂.extended h₂ g) ∈ r₁.result h₁ m
  dispensable : ∃ z ∈ r₂.existentials, ∀ l ∈ r₂.head, n z ∉ (l.under (r₂.extended h₂ g)).arguments

/-- The head literals that mention some of the variables have no existential variable in common with
the other ones. -/
def Detaches (r : Rule) (Z : Set Variable) : Prop :=
  ∀ l ∈ r.head, (∃ z ∈ Z, z ∈ l.occurringVariables) → ∀ v ∈ r.existentials,
    v ∈ l.occurringVariables → ∀ l' ∈ r.head, v ∈ l'.occurringVariables →
      ∃ z ∈ Z, z ∈ l'.occurringVariables

/-- What the match `h₁` of `r₁` uses could have been there before `r₂` was applied: with new terms
`n'` in place of the fresh terms `n`, it does not satisfy the match `h₂` of `r₂`. -/
structure Anticipated (r₁ r₂ : Rule) (I : Finset Literal) (h₁ h₂ n m n' : Assignment) : Prop where
  fresh : r₂.FreshValues [r₁, r₂] (I ∪ r₂.result h₂ n ∪ r₁.result h₁ m) n'
  unsatisfied : ¬ r₂.Satisfied h₂ (I ∪ r₁.premises fun v => r₂.renewed n n' (h₁ v))

section Anticipated

variable {r₁ r₂ : Rule} {I : Finset Literal} {h₁ h₂ n m n' g : Assignment} {Z : Set Variable}
  (hr₁ : r₁.WellFormed) (hr₂ : r₂.WellFormed) (hafter : r₁.AppliesAfter r₂ I h₁ h₂ n m)
  (hanticipated : r₁.Anticipated r₂ I h₁ h₂ n m n')

include hanticipated

/-- The new terms are none of the fresh terms. -/
theorem Anticipated.renewed_ne (t : Term) {z : Variable} (hz : z ∈ r₂.existentials) :
    r₂.renewed n n' t ≠ n z := by
  -- A new term does not occur in what the earlier rule has added, and a term that stays is none of
  -- its fresh ones.
  rcases r₂.renewed_cases n n' t with ⟨z', hz', -, heq⟩ | ⟨hnot, heq⟩
  · rw [heq]
    intro hnew
    obtain ⟨l, hl, hmem⟩ := exists_mem_result h₂ n hz
    rw [← hnew] at hmem
    exact (hanticipated.fresh.fresh z' hz').notMem l
      (Finset.mem_union_left _ (Finset.mem_union_right _ hl)) hmem
  · rw [heq]
    exact fun hold => hnot z hz hold.symm

include hafter

/-- The fresh terms of the earlier rule are still fresh when the trigger is there, too. -/
theorem Anticipated.freshEarlier :
    r₂.FreshValues [r₁, r₂] (I ∪ r₁.premises fun v => r₂.renewed n n' (h₁ v)) n := by
  refine ⟨hafter.freshEarlier.injective, fun z hz => ⟨fun m hm hmem => ?_,
    (hafter.freshEarlier.fresh z hz).not_mentions⟩⟩
  rcases Finset.mem_union.1 hm with hm | hm
  · exact (hafter.freshEarlier.fresh z hz).notMem m hm hmem
  · obtain ⟨l, hl, rfl⟩ := mem_premises.1 hm
    rcases mem_arguments_body hl hmem with ⟨hrigid, hmentions⟩ | ⟨v, -, heq⟩
    · exact (hafter.freshEarlier.fresh z hz).not_mentions hrigid r₁ (by simp) hmentions
    · exact hanticipated.renewed_ne (h₁ v) hz heq

omit hanticipated in
/-- The values of the later match occur in the facts that it uses. -/
theorem AppliesAfter.exists_mem_arguments {v : Variable} (hv : v ∈ r₁.bodyVariables) :
    ∃ l ∈ I ∪ r₂.result h₂ n, h₁ v ∈ l.arguments := by
  obtain ⟨l, hl, hvl⟩ := mem_bodyVariables.1 hv
  exact ⟨_, hafter.later.1 l hl, Literal.mem_arguments_under_of_mem hvl⟩

/-- The same holds for the fresh terms of the later rule. -/
theorem Anticipated.freshLater :
    r₁.FreshValues [r₁, r₂]
      ((I ∪ r₁.premises fun v => r₂.renewed n n' (h₁ v)) ∪ r₂.result h₂ n) m := by
  refine ⟨hafter.freshLater.injective, fun e he => ⟨fun l' hl' hmem => ?_,
    (hafter.freshLater.fresh e he).not_mentions⟩⟩
  have hfresh := hafter.freshLater.fresh e he
  rcases Finset.mem_union.1 hl' with hl' | hl'
  · rcases Finset.mem_union.1 hl' with hl' | hl'
    · exact hfresh.notMem l' (Finset.mem_union_left _ hl') hmem
    · obtain ⟨l, hl, rfl⟩ := mem_premises.1 hl'
      rcases mem_arguments_body hl hmem with ⟨hrigid, hmentions⟩ | ⟨v, hv, heq⟩
      · exact hfresh.not_mentions hrigid r₁ (by simp) hmentions
      · rcases r₂.renewed_cases n n' (h₁ v) with ⟨z, hz, -, hnew⟩ | ⟨-, hold⟩
        -- The new terms are chosen last.
        · obtain ⟨l₁, hl₁, hmem₁⟩ := exists_mem_result h₁ m he
          rw [← heq, hnew] at hmem₁
          exact (hanticipated.fresh.fresh z hz).notMem l₁ (Finset.mem_union_right _ hl₁) hmem₁
        · obtain ⟨l₁, hl₁, hmem₁⟩ := hafter.exists_mem_arguments hv
          rw [← hold, heq] at hmem₁
          exact hfresh.notMem l₁ hl₁ hmem₁
  · exact hfresh.notMem l' (Finset.mem_union_right _ hl') hmem

/-- Replacing fresh terms by new ones and taking the new ones back changes no value of the match. -/
theorem Anticipated.renewed_renewed {v : Variable} (hv : v ∈ r₁.bodyVariables) :
    r₂.renewed n' n (r₂.renewed n n' (h₁ v)) = h₁ v := by
  rcases r₂.renewed_cases n n' (h₁ v) with ⟨z, hz, heq, hnew⟩ | ⟨-, hold⟩
  · rw [hnew, renewed_of_mem hanticipated.fresh hz, heq]
  · obtain ⟨l, hl, hmem⟩ := hafter.exists_mem_arguments hv
    rw [hold]
    exact renewed_of_mem_arguments hanticipated.fresh (Finset.mem_union_left _ hl) hmem

/-- Taking the new terms back gives the facts that were there. -/
theorem Anticipated.mapTerms_mem :
    ∀ l ∈ (I ∪ r₁.premises fun v => r₂.renewed n n' (h₁ v)) ∪ r₂.result h₂ n,
      l.mapTerms (r₂.renewed n' n) ∈ I ∪ r₂.result h₂ n := by
  -- What was there before has none of the new terms and stays.
  have hold : ∀ l ∈ I ∪ r₂.result h₂ n, l.mapTerms (r₂.renewed n' n) ∈ I ∪ r₂.result h₂ n := by
    intro l hl
    rwa [mapTerms_of_fixed fun t ht =>
      renewed_of_mem_arguments hanticipated.fresh (Finset.mem_union_left _ hl) ht]
  intro l' hl'
  rcases Finset.mem_union.1 hl' with hl' | hl'
  · rcases Finset.mem_union.1 hl' with hl' | hl'
    · exact hold l' (Finset.mem_union_left _ hl')
    · obtain ⟨l, hl, rfl⟩ := mem_premises.1 hl'
      have hback : (l.under fun v => r₂.renewed n n' (h₁ v)).mapTerms (r₂.renewed n' n) =
          l.under h₁ := by
        rw [mapTerms_under fun t ht hrigid =>
          renewed_of_mentions hanticipated.fresh (s := r₁) (by simp) hrigid
            ⟨l, List.mem_append_left _ hl, ht⟩]
        refine Literal.under_congr fun v hv => ?_
        exact hanticipated.renewed_renewed hafter (mem_bodyVariables.2 ⟨l, hl, hv⟩)
      rw [hback]
      exact hafter.later.1 l hl
  · exact hold l' (Finset.mem_union_right _ hl')

include hr₁ in
/-- The later rule still has something to add when its trigger has the new terms. -/
theorem Anticipated.not_satisfied :
    ¬ r₁.Satisfied (fun v => r₂.renewed n n' (h₁ v))
      ((I ∪ r₁.premises fun v => r₂.renewed n n' (h₁ v)) ∪ r₂.result h₂ n) := by
  intro hsatisfied
  -- Taken back to the old terms, the head would have been there at the given match.
  apply hafter.later.2
  have hfixed : ∀ t, t.isRigid = true → r₁.Mentions t → r₂.renewed n' n t = t :=
    fun t hrigid ht => renewed_of_mentions hanticipated.fresh (by simp) hrigid ht
  refine (hsatisfied.mapTerms hfixed (hanticipated.mapTerms_mem hafter)).congr hr₁ fun v hv => ?_
  exact hanticipated.renewed_renewed hafter hv

end Anticipated

section Redundant

variable {r₁ r₂ : Rule} {I : Finset Literal} {h₁ h₂ n m n' g : Assignment} {Z : Set Variable}
  (hr₁ : r₁.WellFormed) (hr₂ : r₂.WellFormed)
  (hredundant : r₁.MakesRedundant r₂ I h₁ h₂ n m g Z)

/-- The existential variables in the head literals that mention some of the given ones. -/
def affected (r : Rule) (Z : Set Variable) : Set Variable :=
  {v | v ∈ r.existentials ∧
    ∃ l ∈ r.head, (∃ z ∈ Z, z ∈ l.occurringVariables) ∧ v ∈ l.occurringVariables}

open Classical in
/-- Affected variables take the values `g`, with the terms `n'` in place of `n`; others keep the
values `n`. -/
noncomputable def renewedValues (r : Rule) (n n' g : Assignment) (Z : Set Variable) : Assignment :=
  fun v => if v ∈ r.affected Z then r.renewed n n' (g v) else n v

include hr₁ hr₂ hredundant

/-- What `r₂` asserted of the affected variables, with the new values, is among what `r₁` asserts
when its trigger has the new terms. -/
theorem MakesRedundant.under_renewedValues_mem {l : Literal} (hl : l ∈ r₂.head)
    (hZ : ∃ z ∈ Z, z ∈ l.occurringVariables) :
    l.under (r₂.extended h₂ (r₂.renewedValues n n' g Z)) ∈
      r₁.result (fun v => r₂.renewed n n' (h₁ v)) m := by
  have hfresh := hredundant.freshEarlier
  obtain ⟨l₁, hl₁, heq⟩ := mem_result.1 (hredundant.redirected l hl hZ)
  have hsource : (l₁.under (r₁.extended h₁ m)).mapTerms (r₂.renewed n n') =
      l₁.under (r₁.extended (fun v => r₂.renewed n n' (h₁ v)) m) := by
    rw [mapTerms_under fun t ht hrigid =>
      renewed_of_mentions hfresh (s := r₁) (by simp) hrigid ⟨l₁, List.mem_append_right _ hl₁, ht⟩]
    refine Literal.under_congr fun v hv => ?_
    rcases hr₁.mem_bodyVariables_or_existentials (mem_allVariables_of_head hl₁ hv) with hbody | hex
    · rw [hr₁.extended_of_mem_body _ m hbody, hr₁.extended_of_mem_body _ m hbody]
    -- The fresh terms of `r₁` are not among those of `r₂`.
    · rw [extended_of_mem _ m hex, extended_of_mem _ m hex]
      apply renewed_of_ne
      intro z hz hsame
      obtain ⟨l₂, hl₂, hmem⟩ := exists_mem_result h₂ n hz
      rw [hsame] at hmem
      exact (hredundant.freshLater.fresh v hex).notMem l₂ (Finset.mem_union_right _ hl₂) hmem
  -- The values of body variables are in the facts and stay; those of affected variables are
  -- replaced.
  have htarget : (l.under (r₂.extended h₂ g)).mapTerms (r₂.renewed n n') =
      l.under (r₂.extended h₂ (r₂.renewedValues n n' g Z)) := by
    rw [mapTerms_under fun t ht hrigid =>
      renewed_of_mentions hfresh (s := r₂) (by simp) hrigid ⟨l, List.mem_append_right _ hl, ht⟩]
    refine Literal.under_congr fun v hv => ?_
    rcases hr₂.mem_bodyVariables_or_existentials (mem_allVariables_of_head hl hv) with hbody | hex
    · rw [hr₂.extended_of_mem_body _ _ hbody, hr₂.extended_of_mem_body _ _ hbody]
      obtain ⟨l₂, hl₂, hvl₂⟩ := mem_bodyVariables.1 hbody
      exact renewed_of_mem_arguments hfresh (hredundant.earlier.1 l₂ hl₂)
        (Literal.mem_arguments_under_of_mem hvl₂)
    · rw [extended_of_mem _ _ hex, extended_of_mem _ _ hex]
      exact (if_pos ⟨hex, l, hl, hZ, hv⟩).symm
  rw [← htarget, ← heq, hsource]
  exact mem_result.2 ⟨l₁, hl₁, rfl⟩

/-- If the trigger of `r₁` could have been there before `r₂` was applied, then `r₁` restrains `r₂`
when it is put there. -/
theorem Anticipated.restrains (hanticipated : r₁.Anticipated r₂ I h₁ h₂ n m n')
    (hdetaches : r₂.Detaches Z) :
    r₁.Restrains r₂ (I ∪ r₁.premises fun v => r₂.renewed n n' (h₁ v))
      (fun v => r₂.renewed n n' (h₁ v)) h₂ n m (r₂.renewedValues n n' g Z) (r₂.affected Z) := by
  have hafter := hredundant.toAppliesAfter
  have htrigger : r₁.Matches (fun v => r₂.renewed n n' (h₁ v))
      (I ∪ r₁.premises fun v => r₂.renewed n n' (h₁ v)) :=
    fun l hl => Finset.mem_union_right _ (mem_premises.2 ⟨l, hl, rfl⟩)
  refine
    { trigger := htrigger
      restrained :=
        ⟨hafter.earlier.1.mono Finset.subset_union_left, hanticipated.unsatisfied⟩
      freshRestrained := hanticipated.freshEarlier hafter
      restraining :=
        ⟨htrigger.mono Finset.subset_union_left, hanticipated.not_satisfied hr₁ hafter⟩
      freshRestraining := hanticipated.freshLater hafter
      nonempty := ?_
      existential := fun z hz => hz.1
      unchanged := fun z _ hz => if_neg hz
      redirected := fun l hl hz => ?_ }
  -- A redirected variable is affected itself.
  · obtain ⟨z, hz⟩ := hredundant.nonempty
    have hex := hredundant.existential z hz
    obtain ⟨l, hl, hzl⟩ := mem_headVariables.1 (mem_existentials.1 hex).1
    exact ⟨z, hex, l, hl, ⟨z, hz, hzl⟩, hzl⟩
  -- A literal with an affected variable is a redirected one, as these share no existential variable
  -- with the others.
  · obtain ⟨z, ⟨hex, l₀, hl₀, hZ, hzl₀⟩, hzl⟩ := hz
    exact hredundant.under_renewedValues_mem hr₁ hr₂ hl (hdetaches l₀ hl₀ hZ z hex hzl₀ l hl hzl)

omit hr₁ hr₂ in
/-- If the trigger was there before, nothing has to be replaced. -/
theorem MakesRedundant.restrains (htrigger : r₁.Matches h₁ I) :
    r₁.Restrains r₂ I h₁ h₂ n m g Z :=
  ⟨htrigger, hredundant.earlier, hredundant.freshEarlier, hredundant.later,
    hredundant.freshLater, hredundant.nonempty, hredundant.existential, hredundant.unchanged,
    hredundant.redirected⟩

end Redundant

/-- An application of `r₁` that makes an earlier application of `r₂` redundant is not missed if its
trigger was there before `r₂` was applied. It is not missed either if a trigger like it could have
been there, with new terms in place of the fresh ones, without satisfying the match of `r₂`, and if
the redirected head literals have no existential variable in common with the others. -/
theorem negativelyRelies_of_makesRedundant {r₁ r₂ : Rule} (hr₁ : r₁.WellFormed)
    (hr₂ : r₂.WellFormed) (hhead : r₂.head.length ≤ 67) (config : Config) {I : Finset Literal}
    {h₁ h₂ n m g : Assignment} {Z : Set Variable}
    (hredundant : r₁.MakesRedundant r₂ I h₁ h₂ n m g Z)
    (htrigger : r₁.Matches h₁ I ∨
      r₂.Detaches Z ∧ ∃ n', r₁.Anticipated r₂ I h₁ h₂ n m n') :
    r₁.negativelyRelies r₂ config = true := by
  rcases htrigger with htrigger | ⟨hdetaches, n', hanticipated⟩
  · exact negativelyRelies_of_restrains hr₁ hr₂ hhead config (hredundant.restrains htrigger)
  · exact negativelyRelies_of_restrains hr₁ hr₂ hhead config
      (hanticipated.restrains hr₁ hr₂ hredundant hdetaches)

/-! ### Triggers that use what was just added -/

section Datalog

variable {r₁ r₂ : Rule} {I : Finset Literal} {h₁ h₂ n m g : Assignment}

/-- A rule whose head has a signature that is not known has something to add. -/
theorem not_satisfied_of_signature {r : Rule} {h : Assignment} {l : Literal} (hl : l ∈ r.head)
    (hI : ∀ m ∈ I, m.signature ≠ l.signature) : ¬ r.Satisfied h I := by
  intro hsatisfied
  obtain ⟨n, hn⟩ := hsatisfied
  exact hI _ (hn l hl) (Literal.signature_under _ l)

/-- A rule without existential variables is applied after one whose head is not known at all. -/
theorem appliesAfter_of_existentials_eq_nil (hr₁ : r₁.existentials = [])
    (hearlier : r₂.Matches h₂ I) (hnew : ∃ l ∈ r₂.head, ∀ m ∈ I, m.signature ≠ l.signature)
    (hfresh : r₂.FreshValues [r₁, r₂] I n) (hlater : r₁.Matches h₁ (I ∪ r₂.result h₂ n))
    (hadds : ∃ l ∈ r₁.head, l.under h₁ ∉ I ∪ r₂.result h₂ n) :
    r₁.AppliesAfter r₂ I h₁ h₂ n m := by
  have hnone : ∀ v, v ∉ r₁.existentials := by simp [hr₁]
  obtain ⟨l₂, hl₂, hnew⟩ := hnew
  refine ⟨⟨hearlier, not_satisfied_of_signature hl₂ hnew⟩, hfresh, ⟨hlater, fun hsatisfied => ?_⟩,
    ⟨fun v hv => absurd hv (hnone v), fun v hv => absurd hv (hnone v)⟩⟩
  obtain ⟨k, hk⟩ := hsatisfied
  obtain ⟨l, hl, hnot⟩ := hadds
  have hextended : r₁.extended h₁ k = h₁ := funext fun v => if_neg (hnone v)
  have hmem := hk l hl
  rw [hextended] at hmem
  exact hnot hmem

/-- One fresh term that is replaced is enough. -/
theorem makesRedundant_singleton (hafter : r₁.AppliesAfter r₂ I h₁ h₂ n m) {z : Variable}
    (hz : z ∈ r₂.existentials) (hunchanged : ∀ v ∈ r₂.existentials, v ≠ z → g v = n v)
    (hredirected : ∀ l ∈ r₂.head, z ∈ l.occurringVariables →
      l.under (r₂.extended h₂ g) ∈ r₁.result h₁ m)
    (hdispensable : ∀ l ∈ r₂.head, n z ∉ (l.under (r₂.extended h₂ g)).arguments) :
    r₁.MakesRedundant r₂ I h₁ h₂ n m g {z} where
  toAppliesAfter := hafter
  nonempty := Set.singleton_nonempty z
  existential := by simpa only [Set.mem_singleton_iff, forall_eq] using hz
  unchanged := hunchanged
  redirected := by simpa only [Set.mem_singleton_iff, exists_eq_left] using hredirected
  dispensable := ⟨z, hz, hdispensable⟩

end Datalog

/-- Every employee has a desk and reports to someone. -/
def employeeHasDesk : Rule :=
  ⟨[⟨"employee", [.universal "X"]⟩],
    [⟨"hasDesk", [.universal "X", .existential "Y"]⟩,
      ⟨"reportsTo", [.universal "X", .existential "Z"]⟩]⟩

/-- Whoever has a desk reports to themselves. -/
def deskOwnerReportsToSelf : Rule :=
  ⟨[⟨"hasDesk", [.universal "U", .universal "V"]⟩],
    [⟨"reportsTo", [.universal "U", .universal "U"]⟩]⟩

/-- One value for the variables of a name and another one for all others. -/
def twoValues (name : String) (value other : Term) : Assignment :=
  fun v => if v.name = name then value else other

/-- The trigger uses the desk that was just added, but a desk alone does not make anyone report to
someone. -/
theorem negativelyRelies_employeeHasDesk :
    (∃ I h₁ h₂ n m g Z, deskOwnerReportsToSelf.MakesRedundant employeeHasDesk I h₁ h₂ n m g Z ∧
      ¬ deskOwnerReportsToSelf.Matches h₁ I ∧ employeeHasDesk.Detaches Z ∧
      ∃ n', deskOwnerReportsToSelf.Anticipated employeeHasDesk I h₁ h₂ n m n') ∧
      deskOwnerReportsToSelf.negativelyRelies employeeHasDesk .default = true := by
  have hredundant : deskOwnerReportsToSelf.MakesRedundant employeeHasDesk
      {⟨"employee", [.constant "ann"]⟩} (twoValues "U" (.constant "ann") (.null "desk"))
      (fun _ => .constant "ann") (twoValues "Y" (.null "desk") (.null "superior")) Term.var
      (twoValues "Y" (.null "desk") (.constant "ann")) {⟨"Z", .existential⟩} :=
    makesRedundant_singleton (appliesAfter_of_existentials_eq_nil (by decide) (by decide)
      (by decide) (by decide) (by decide) (by decide)) (by decide) (by decide) (by decide)
      (by decide)
  have hdetaches : employeeHasDesk.Detaches {⟨"Z", .existential⟩} := by
    simp only [Detaches, Set.mem_singleton_iff, exists_eq_left]
    decide
  have hanticipated : deskOwnerReportsToSelf.Anticipated employeeHasDesk
      {⟨"employee", [.constant "ann"]⟩} (twoValues "U" (.constant "ann") (.null "desk"))
      (fun _ => .constant "ann") (twoValues "Y" (.null "desk") (.null "superior")) Term.var
      (twoValues "Y" (.null "desk2") (.null "superior2")) :=
    ⟨by decide, not_satisfied_of_signature (List.mem_of_getElem? (i := 1) rfl) (by decide)⟩
  refine ⟨⟨_, _, _, _, _, _, _, hredundant, by decide, hdetaches, _, hanticipated⟩, ?_⟩
  exact negativelyRelies_of_makesRedundant (by decide) (by decide) (by decide) .default hredundant
    (Or.inr ⟨hdetaches, _, hanticipated⟩)

/-- Every person knows somebody. -/
def personKnowsSomeone : Rule :=
  ⟨[⟨"person", [.universal "X"]⟩], [⟨"knows", [.universal "X", .existential "Y"]⟩]⟩

/-- Whoever knows somebody knows themselves. -/
def knowerKnowsSelf : Rule :=
  ⟨[⟨"knows", [.universal "U", .universal "V"]⟩], [⟨"knows", [.universal "U", .universal "U"]⟩]⟩

/-- Every employee reports to someone in some unit. -/
def employeeInUnit : Rule :=
  ⟨[⟨"employee", [.universal "X"]⟩],
    [⟨"reportsIn", [.universal "X", .existential "Y", .existential "W"]⟩,
      ⟨"unit", [.existential "W"]⟩]⟩

/-- Whoever reports to someone in a unit reports to themselves there. -/
def ownSuperiorInUnit : Rule :=
  ⟨[⟨"reportsIn", [.universal "U", .universal "V", .universal "W"]⟩],
    [⟨"reportsIn", [.universal "U", .universal "U", .universal "W"]⟩]⟩

/-- Acquaintance with oneself makes an unknown acquaintance redundant, but its trigger alone is an
acquaintance. Reporting to oneself makes an unknown superior redundant, but the unit is the same
unknown one as before. In both cases no restraint is found. -/
theorem makesRedundant_unnoticed :
    (knowerKnowsSelf.WellFormed ∧ personKnowsSomeone.WellFormed ∧
      (∃ I h₁ h₂ n m g Z, knowerKnowsSelf.MakesRedundant personKnowsSomeone I h₁ h₂ n m g Z ∧
        personKnowsSomeone.Detaches Z) ∧
      knowerKnowsSelf.negativelyRelies personKnowsSomeone .default = false) ∧
    ownSuperiorInUnit.WellFormed ∧ employeeInUnit.WellFormed ∧
      (∃ I h₁ h₂ n m g Z, ownSuperiorInUnit.MakesRedundant employeeInUnit I h₁ h₂ n m g Z ∧
        ∃ n', ownSuperiorInUnit.Anticipated employeeInUnit I h₁ h₂ n m n') ∧
      ownSuperiorInUnit.negativelyRelies employeeInUnit .default = false := by
  have hperson : knowerKnowsSelf.MakesRedundant personKnowsSomeone
      {⟨"person", [.constant "ann"]⟩} (twoValues "U" (.constant "ann") (.null "friend"))
      (fun _ => .constant "ann") (fun _ => .null "friend") Term.var (fun _ => .constant "ann")
      {⟨"Y", .existential⟩} :=
    makesRedundant_singleton (appliesAfter_of_existentials_eq_nil (by decide) (by decide)
      (by decide) (by decide) (by decide) (by decide)) (by decide) (by decide) (by decide)
      (by decide)
  have hdetaches : personKnowsSomeone.Detaches {⟨"Y", .existential⟩} := by
    simp only [Detaches, Set.mem_singleton_iff, exists_eq_left]
    decide
  have hemployee : ownSuperiorInUnit.MakesRedundant employeeInUnit
      {⟨"employee", [.constant "ann"]⟩}
      (fun v => if v.name = "U" then .constant "ann" else
        twoValues "V" (.null "superior") (.null "unit") v)
      (fun _ => .constant "ann") (twoValues "Y" (.null "superior") (.null "unit")) Term.var
      (twoValues "Y" (.constant "ann") (.null "unit")) {⟨"Y", .existential⟩} :=
    makesRedundant_singleton (appliesAfter_of_existentials_eq_nil (by decide) (by decide)
      (by decide) (by decide) (by decide) (by decide)) (by decide) (by decide) (by decide)
      (by decide)
  have hanticipated : ownSuperiorInUnit.Anticipated employeeInUnit
      {⟨"employee", [.constant "ann"]⟩}
      (fun v => if v.name = "U" then .constant "ann" else
        twoValues "V" (.null "superior") (.null "unit") v)
      (fun _ => .constant "ann") (twoValues "Y" (.null "superior") (.null "unit")) Term.var
      (twoValues "Y" (.null "superior2") (.null "unit2")) :=
    ⟨by decide, not_satisfied_of_signature (List.mem_of_getElem? (i := 1) rfl) (by decide)⟩
  exact ⟨⟨by decide, by decide, ⟨_, _, _, _, _, _, _, hperson, hdetaches⟩, by decide +kernel⟩,
    by decide, by decide, ⟨_, _, _, _, _, _, _, hemployee, _, hanticipated⟩, by decide +kernel⟩

end Rule

end ExistentialRules
