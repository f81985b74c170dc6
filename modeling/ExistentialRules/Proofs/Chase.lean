import Mathlib.Data.Finset.Union
import Mathlib.Logic.Relation
import ExistentialRules.Applicability
import ExistentialRules.Proofs.Search

/-!
# Matches and chase steps

What it means to apply a rule to a finite set of facts. A match of a rule sends its body into the
facts. It is satisfied if the head already holds there for some values of the existential variables;
otherwise the rule can be applied, which adds the head with fresh terms as these values.

All variables inside facts are frozen: they are terms like any others.

## Main definitions

* `Rule.Matches`, `Rule.Satisfied`, `Rule.Unsatisfied`: matches;
* `Term.FreshFor`, `Rule.FreshValues`: the terms that an application introduces;
* `ChaseStep`: one application of a rule.

## Main statements

* `Rule.Satisfied.map`: a satisfied match stays satisfied under a map of the facts;
* `Rule.entailsWith_iff_satisfied`: the entailment tests of the analysis are tests of satisfaction;
* `Rule.satisfied_of_not_isApplicable`: an inapplicable rule has satisfied matches only;
* `Rule.isApplicable_iff_exists_unsatisfied`: the frozen body decides for all facts and all matches.
-/

namespace ExistentialRules

/-! ## §1 Matches -/

namespace Rule

/-- The assignment `h`, with the values of the rule's existential variables taken from `n`. -/
def extended (r : Rule) (h n : Assignment) : Assignment :=
  fun v => if v ∈ r.existentials then n v else h v

/-- The body of the rule is sent into the facts. -/
def Matches (r : Rule) (h : Assignment) (I : Finset Literal) : Prop :=
  ∀ l ∈ r.body, l.under h ∈ I

/-- Some values of the existential variables send the head into the facts. -/
def Satisfied (r : Rule) (h : Assignment) (I : Finset Literal) : Prop :=
  ∃ n : Assignment, ∀ l ∈ r.head, l.under (r.extended h n) ∈ I

/-- A match at which the rule can be applied. -/
def Unsatisfied (r : Rule) (h : Assignment) (I : Finset Literal) : Prop :=
  r.Matches h I ∧ ¬ r.Satisfied h I

/-- The term stands somewhere in the rule. -/
def Mentions (r : Rule) (t : Term) : Prop :=
  ∃ l ∈ r.body ++ r.head, t ∈ l.arguments

/-- What an application of the rule adds. -/
def result (r : Rule) (h n : Assignment) : Finset Literal :=
  (r.head.map (Literal.under (r.extended h n))).toFinset

end Rule

/-! ## §2 Chase steps -/

/-- The term does not occur in the facts and is not a constant or null of the rules. -/
structure Term.FreshFor (I : Finset Literal) (rules : List Rule) (t : Term) : Prop where
  notMem : ∀ l ∈ I, t ∉ l.arguments
  not_mentions : t.isRigid = true → ∀ r ∈ rules, ¬ r.Mentions t

/-- The existential variables of the rule have fresh and pairwise distinct values. -/
structure Rule.FreshValues (r : Rule) (rules : List Rule) (I : Finset Literal) (n : Assignment) :
    Prop where
  injective : ∀ v ∈ r.existentials, ∀ w ∈ r.existentials, n v = n w → v = w
  fresh : ∀ v ∈ r.existentials, (n v).FreshFor I rules

instance (r : Rule) (h : Assignment) (I : Finset Literal) : Decidable (r.Matches h I) :=
  inferInstanceAs (Decidable (∀ l ∈ r.body, l.under h ∈ I))

instance (r : Rule) (t : Term) : Decidable (r.Mentions t) :=
  inferInstanceAs (Decidable (∃ l ∈ r.body ++ r.head, t ∈ l.arguments))

instance (I : Finset Literal) (rules : List Rule) (t : Term) : Decidable (t.FreshFor I rules) :=
  decidable_of_iff ((∀ l ∈ I, t ∉ l.arguments) ∧
      (t.isRigid = true → ∀ r ∈ rules, ¬ r.Mentions t))
    ⟨fun h => ⟨h.1, h.2⟩, fun h => ⟨h.notMem, h.not_mentions⟩⟩

instance (r : Rule) (rules : List Rule) (I : Finset Literal) (n : Assignment) :
    Decidable (r.FreshValues rules I n) :=
  decidable_of_iff ((∀ v ∈ r.existentials, ∀ w ∈ r.existentials, n v = n w → v = w) ∧
      ∀ v ∈ r.existentials, (n v).FreshFor I rules)
    ⟨fun h => ⟨h.1, h.2⟩, fun h => ⟨h.injective, h.fresh⟩⟩

/-- An application of the rule at an unsatisfied match, with terms that are fresh for the facts and
for a list of rules. -/
inductive ChaseStep (rules : List Rule) (r : Rule) : Finset Literal → Finset Literal → Prop where
  | apply {I : Finset Literal} {h n : Assignment} (hmatch : r.Unsatisfied h I)
      (hfresh : r.FreshValues rules I n) : ChaseStep rules r I (I ∪ r.result h n)

/-! ## §3 The variables of a well-formed rule -/

namespace Rule

instance (r : Rule) : Decidable r.WellFormed :=
  decidable_of_iff (r.fault? = none) r.fault?_eq_none_iff

theorem mem_bodyVariables {r : Rule} {v : Variable} :
    v ∈ r.bodyVariables ↔ ∃ l ∈ r.body, v ∈ l.occurringVariables :=
  List.mem_flatMap

theorem mem_headVariables {r : Rule} {v : Variable} :
    v ∈ r.headVariables ↔ ∃ l ∈ r.head, v ∈ l.occurringVariables :=
  List.mem_flatMap

theorem mem_allVariables {r : Rule} {v : Variable} :
    v ∈ r.allVariables ↔ v ∈ r.bodyVariables ∨ v ∈ r.headVariables := by
  simp [allVariables]

theorem mem_existentials {r : Rule} {v : Variable} :
    v ∈ r.existentials ↔ v ∈ r.headVariables ∧ v.quantifier = .existential := by
  simp [existentials, Variable.isExistential]

theorem notMem_existentials_of_universal {r : Rule} {v : Variable}
    (hv : v.quantifier = .universal) : v ∉ r.existentials := by
  intro hex
  rw [(mem_existentials.1 hex).2] at hv
  cases hv

theorem mem_allVariables_of_mem_existentials {r : Rule} {v : Variable} (hv : v ∈ r.existentials) :
    v ∈ r.allVariables :=
  mem_allVariables.2 (Or.inr (mem_existentials.1 hv).1)

theorem mem_allVariables_of_body {r : Rule} {l : Literal} (hl : l ∈ r.body) {v : Variable}
    (hv : v ∈ l.occurringVariables) : v ∈ r.allVariables :=
  mem_allVariables.2 (Or.inl (mem_bodyVariables.2 ⟨l, hl, hv⟩))

theorem mem_allVariables_of_head {r : Rule} {l : Literal} (hl : l ∈ r.head) {v : Variable}
    (hv : v ∈ l.occurringVariables) : v ∈ r.allVariables :=
  mem_allVariables.2 (Or.inr (mem_headVariables.2 ⟨l, hl, hv⟩))

section

variable {r : Rule} (hr : r.WellFormed)

include hr

theorem WellFormed.notMem_existentials {v : Variable} (hv : v ∈ r.bodyVariables) :
    v ∉ r.existentials :=
  notMem_existentials_of_universal (hr.body_universal v hv)

/-- A variable of a well-formed rule has its value from the match or is existential. -/
theorem WellFormed.mem_bodyVariables_or_existentials {v : Variable} (hv : v ∈ r.allVariables) :
    v ∈ r.bodyVariables ∨ v ∈ r.existentials := by
  rcases mem_allVariables.1 hv with hv | hv
  · exact Or.inl hv
  -- A universal variable of the head stands in the body, since the rule is safe.
  · cases hq : v.quantifier with
    | universal => exact Or.inl (hr.head_bound v hv hq)
    | existential => exact Or.inr (mem_existentials.2 ⟨hv, hq⟩)

theorem WellFormed.extended_of_mem_body (h n : Assignment) {v : Variable}
    (hv : v ∈ r.bodyVariables) : r.extended h n v = h v :=
  if_neg (hr.notMem_existentials hv)

/-- Values of existential variables make no difference to the body. -/
theorem WellFormed.under_extended_of_mem_body (h n : Assignment) {l : Literal} (hl : l ∈ r.body) :
    l.under (r.extended h n) = l.under h := by
  apply Literal.under_congr
  intro v hv
  exact hr.extended_of_mem_body h n (mem_bodyVariables.2 ⟨l, hl, hv⟩)

end

theorem extended_of_mem {r : Rule} (h n : Assignment) {v : Variable} (hv : v ∈ r.existentials) :
    r.extended h n v = n v :=
  if_pos hv

/-- An assignment that fixes the existential variables is extended by them. -/
theorem extended_var {r : Rule} {σ : Assignment} (hfixed : ∀ e ∈ r.existentials, σ e = .var e) :
    r.extended σ Term.var = σ := by
  funext v
  by_cases hv : v ∈ r.existentials
  · rw [extended_of_mem σ Term.var hv, hfixed v hv]
  · exact if_neg hv

/-- If no existential variable of the rule occurs in the facts, they are fresh values themselves. -/
theorem FreshValues.of_variables {r : Rule} {rules : List Rule} {I : Finset Literal}
    (h : ∀ e ∈ r.existentials, ∀ m ∈ I, Term.var e ∉ m.arguments) :
    r.FreshValues rules I Term.var := by
  refine ⟨fun v _ w _ heq => ?_, fun e he => ⟨h e he, fun hrigid => ?_⟩⟩
  · cases heq
    rfl
  · cases hrigid

theorem mem_result {r : Rule} {h n : Assignment} {m : Literal} :
    m ∈ r.result h n ↔ ∃ l ∈ r.head, l.under (r.extended h n) = m := by
  simp [result]

/-- The values of the existential variables occur in what is added. -/
theorem exists_mem_result {r : Rule} (h n : Assignment) {z : Variable} (hz : z ∈ r.existentials) :
    ∃ m ∈ r.result h n, n z ∈ m.arguments := by
  obtain ⟨l, hl, hzl⟩ := mem_headVariables.1 (mem_existentials.1 hz).1
  refine ⟨_, mem_result.2 ⟨l, hl, rfl⟩, ?_⟩
  rw [← extended_of_mem h n hz]
  exact Literal.mem_arguments_under_of_mem hzl

/-- What stands in the image of a body literal is mentioned by the rule or the value of a
variable. -/
theorem mem_arguments_body {r : Rule} {h : Assignment} {l : Literal} (hl : l ∈ r.body) {t : Term}
    (ht : t ∈ (l.under h).arguments) :
    (t.isRigid = true ∧ r.Mentions t) ∨ ∃ v ∈ r.bodyVariables, h v = t := by
  obtain ⟨s, hs, rfl⟩ := Literal.mem_arguments_under.1 ht
  -- A variable is replaced by its value, and any other argument stays what it is.
  by_cases hvar : ∃ v, s = .var v
  · obtain ⟨v, rfl⟩ := hvar
    exact Or.inr ⟨v, mem_bodyVariables.2 ⟨l, hl, Literal.mem_occurringVariables.2 hs⟩, rfl⟩
  · have hrigid := Term.isRigid_of_ne_var fun v hv => hvar ⟨v, hv⟩
    rw [Term.mapVariable_of_isRigid _ hrigid]
    exact Or.inl ⟨hrigid, l, List.mem_append_left _ hl, hs⟩

/-- What stands in the image of a head literal is mentioned by the rule, or the value of a variable
of the body or of an existential variable of the literal. -/
theorem WellFormed.mem_arguments_head {r : Rule} (hr : r.WellFormed) {h n : Assignment}
    {l : Literal} (hl : l ∈ r.head) {t : Term} (ht : t ∈ (l.under (r.extended h n)).arguments) :
    (t.isRigid = true ∧ r.Mentions t) ∨ (∃ v ∈ r.bodyVariables, h v = t) ∨
      ∃ e ∈ r.existentials, e ∈ l.occurringVariables ∧ n e = t := by
  obtain ⟨s, hs, rfl⟩ := Literal.mem_arguments_under.1 ht
  by_cases hvar : ∃ v, s = .var v
  · obtain ⟨v, rfl⟩ := hvar
    have hv := Literal.mem_occurringVariables.2 hs
    rw [Term.mapVariable_var]
    -- The value of a variable comes from the match or from the fresh terms.
    rcases hr.mem_bodyVariables_or_existentials (mem_allVariables_of_head hl hv) with hbody | hex
    · exact Or.inr (Or.inl ⟨v, hbody, (hr.extended_of_mem_body h n hbody).symm⟩)
    · exact Or.inr (Or.inr ⟨v, hex, hv, (extended_of_mem h n hex).symm⟩)
  · have hrigid := Term.isRigid_of_ne_var fun v hv => hvar ⟨v, hv⟩
    rw [Term.mapVariable_of_isRigid _ hrigid]
    exact Or.inl ⟨hrigid, l, List.mem_append_right _ hl, hs⟩

/-! ## §4 Matches under changes -/

theorem Matches.mono {r : Rule} {h : Assignment} {I J : Finset Literal} (hm : r.Matches h I)
    (hIJ : I ⊆ J) : r.Matches h J :=
  fun l hl => hIJ (hm l hl)

/-- A fresh term is not the value of a variable of the body. -/
theorem Matches.ne_of_freshFor {r : Rule} {h : Assignment} {I : Finset Literal} (hm : r.Matches h I)
    {rules : List Rule} {t : Term} (ht : t.FreshFor I rules) {v : Variable}
    (hv : v ∈ r.bodyVariables) : h v ≠ t := by
  intro heq
  -- The value of a variable of the body stands in a fact.
  obtain ⟨l, hl, hvl⟩ := mem_bodyVariables.1 hv
  apply ht.notMem _ (hm l hl)
  rw [← heq]
  exact Literal.mem_arguments_under_of_mem hvl

theorem Satisfied.mono {r : Rule} {h : Assignment} {I J : Finset Literal} (hs : r.Satisfied h I)
    (hIJ : I ⊆ J) : r.Satisfied h J := by
  obtain ⟨n, hn⟩ := hs
  exact ⟨n, fun l hl => hIJ (hn l hl)⟩

theorem Matches.congr {r : Rule} {h k : Assignment} {I : Finset Literal} (hm : r.Matches h I)
    (hhk : ∀ v ∈ r.bodyVariables, h v = k v) : r.Matches k I := by
  intro l hl
  rw [← Literal.under_congr fun v hv => hhk v (mem_bodyVariables.2 ⟨l, hl, hv⟩)]
  exact hm l hl

/-- Only the values of the body's variables matter. -/
theorem Satisfied.congr {r : Rule} (hr : r.WellFormed) {h k : Assignment} {I : Finset Literal}
    (hs : r.Satisfied h I) (hhk : ∀ v ∈ r.bodyVariables, h v = k v) : r.Satisfied k I := by
  obtain ⟨n, hn⟩ := hs
  refine ⟨n, fun l hl => ?_⟩
  have heq : l.under (r.extended k n) = l.under (r.extended h n) := by
    refine Literal.under_congr fun v hv => ?_
    have hall := mem_allVariables_of_head hl hv
    -- A variable of the head is one of the body or existential.
    rcases hr.mem_bodyVariables_or_existentials hall with hv | hv
    · rw [hr.extended_of_mem_body k n hv, hr.extended_of_mem_body h n hv, hhk v hv]
    · rw [extended_of_mem k n hv, extended_of_mem h n hv]
  rw [heq]
  exact hn l hl

/-- If the facts are sent into others, then a match becomes a match there. -/
theorem Matches.map {r : Rule} {h : Assignment} {I J : Finset Literal} (hm : r.Matches h I)
    {θ : Assignment} (hθ : ∀ l ∈ I, l.under θ ∈ J) :
    r.Matches (fun v => (h v).mapVariable θ) J := by
  intro l hl
  rw [← Literal.under_under]
  exact hθ _ (hm l hl)

/-- If the facts are sent into others, then a satisfied match becomes a satisfied match there. -/
theorem Satisfied.map {r : Rule} {h : Assignment} {I J : Finset Literal} (hs : r.Satisfied h I)
    {θ : Assignment} (hθ : ∀ l ∈ I, l.under θ ∈ J) :
    r.Satisfied (fun v => (h v).mapVariable θ) J := by
  obtain ⟨n, hn⟩ := hs
  refine ⟨fun v => (n v).mapVariable θ, fun l hl => ?_⟩
  -- The values of the existential variables are mapped as well.
  have hcomp : r.extended (fun v => (h v).mapVariable θ) (fun v => (n v).mapVariable θ) =
      fun v => (r.extended h n v).mapVariable θ := by
    funext v
    unfold extended
    split
    · rfl
    · rfl
  rw [hcomp, ← Literal.under_under]
  exact hθ _ (hn l hl)

end Rule

/-! ## §5 Tests of satisfaction -/

/-- The set of an instance's literals. -/
def Instance.facts (I : Instance) : Finset Literal :=
  I.literals.toFinset

theorem Instance.mem_facts {I : Instance} {l : Literal} : l ∈ I.facts ↔ l ∈ I.literals :=
  List.mem_toFinset

namespace Rule

/-- If an assignment fixes the existential variables of a rule and gives no variable of its body one
of them as value, then to test whether an instance entails the image of the head is to test whether
the match is satisfied. -/
theorem entailsWith_iff_satisfied {r : Rule} (hr : r.WellFormed) {I : Instance} (hI : I.Indexed)
    {σ : Assignment} (hbody : ∀ v ∈ r.bodyVariables, ∀ e ∈ r.existentials, σ v ≠ .var e)
    (hfixed : ∀ e ∈ r.existentials, σ e = .var e) :
    I.entailsWith (r.head.map (Literal.under σ)) (.only r.existentials) = true ↔
      r.Satisfied σ I.facts := by
  -- The variables left free by the test are the existential ones, so that both sides put the same
  -- literals to the instance.
  have hvalue : ∀ (f : Assignment), ∀ l ∈ r.head,
      (l.under σ).under (FreeVariables.value (.only r.existentials) f) =
        l.under (r.extended σ f) := by
    intro f l hl
    rw [Literal.under_under]
    refine Literal.under_congr fun v hv => ?_
    have hall := mem_allVariables_of_head hl hv
    rcases hr.mem_bodyVariables_or_existentials hall with hv | hv
    · rw [hr.extended_of_mem_body σ f hv]
      -- The value is rigid or a variable that is not free: it stays.
      cases ht : σ v with
      | var w =>
        have hw : w ∉ r.existentials := fun hw => hbody v hv w hw ht
        simp [FreeVariables.value, FreeVariables.isFree, hw]
      | constant name => rfl
      | null label => rfl
    · rw [extended_of_mem σ f hv, hfixed v hv]
      simp [FreeVariables.value, FreeVariables.isFree, hv]
  rw [Instance.entailsWith_iff hI]
  refine exists_congr fun f => ?_
  simp only [List.forall_mem_map, Instance.mem_facts]
  exact forall₂_congr fun l hl => by rw [hvalue f l hl]

/-- A rule is found to be inapplicable exactly if its own body, taken as facts, satisfies it. -/
theorem isApplicable_eq_false_iff {r : Rule} (hr : r.WellFormed) :
    r.isApplicable = false ↔ r.Satisfied Term.var (Instance.ofBody r).facts := by
  have hbody : ∀ v ∈ r.bodyVariables, ∀ e ∈ r.existentials, Term.var v ≠ .var e := by
    intro v hv e he heq
    cases heq
    exact hr.notMem_existentials hv he
  have htest := entailsWith_iff_satisfied hr (Instance.indexed_ofList r.body) hbody
    fun e _ => rfl
  -- The variables are their own values, so that the test puts the head itself to the body.
  have hid : r.head.map (Literal.under Term.var) = r.head :=
    List.map_id'' Literal.under_id r.head
  rw [hid] at htest
  rw [isApplicable, Bool.not_eq_false']
  exact htest

/-- Every match of an inapplicable rule is satisfied: the frozen body is sent into the facts. -/
theorem satisfied_of_not_isApplicable {r : Rule} (hr : r.WellFormed)
    (hidle : r.isApplicable = false) {h : Assignment} {I : Finset Literal}
    (hm : r.Matches h I) : r.Satisfied h I := by
  have hfrozen := (isApplicable_eq_false_iff hr).1 hidle
  refine hfrozen.map fun l hl => hm l ?_
  exact Instance.mem_ofList.1 (Instance.mem_facts.1 hl)

/-- The body with its variables frozen is matched by the variables themselves. -/
theorem matches_ofBody (r : Rule) : r.Matches Term.var (Instance.ofBody r).facts := by
  intro l hl
  rw [Literal.under_id, Instance.mem_facts]
  exact Instance.mem_ofList.2 hl

/-- A rule is applicable exactly if it has an unsatisfied match in some finite set of facts, and
inapplicable exactly if all its matches in all finite sets of facts are satisfied. -/
theorem isApplicable_iff_exists_unsatisfied {r : Rule} (hr : r.WellFormed) :
    (r.isApplicable = true ↔ ∃ I h, r.Unsatisfied h I) ∧
      (r.isApplicable = false ↔ ∀ I h, r.Matches h I → r.Satisfied h I) := by
  have hidle : r.isApplicable = false ↔ ∀ I h, r.Matches h I → r.Satisfied h I := by
    refine ⟨fun hidle I h hm => satisfied_of_not_isApplicable hr hidle hm, fun hall => ?_⟩
    -- Of all the matches, that of the frozen body in itself is the one that the test looks at.
    exact (isApplicable_eq_false_iff hr).2 (hall _ _ r.matches_ofBody)
  refine ⟨?_, hidle⟩
  rw [← Bool.not_eq_false, hidle]
  simp only [not_forall, Unsatisfied, exists_prop]

/-- Who knows someone knows someone. -/
def knowsSomeone : Rule :=
  ⟨[⟨"knows", [.universal "X", .universal "Y"]⟩], [⟨"knows", [.universal "X", .existential "Z"]⟩]⟩

/-- Who is known to someone knows someone. -/
def knownKnowsSomeone : Rule :=
  ⟨[⟨"knows", [.universal "X", .universal "Y"]⟩], [⟨"knows", [.universal "Y", .existential "Z"]⟩]⟩

/-- The first rule never has anything to add, the second one has. -/
theorem unsatisfied_knownKnowsSomeone :
    (∀ I h, knowsSomeone.Matches h I → knowsSomeone.Satisfied h I) ∧
      ∃ I h, knownKnowsSomeone.Unsatisfied h I := by
  have hknows : knowsSomeone.WellFormed := by decide
  have hknown : knownKnowsSomeone.WellFormed := by decide
  constructor
  · apply (isApplicable_iff_exists_unsatisfied hknows).2.1
    decide +kernel
  · apply (isApplicable_iff_exists_unsatisfied hknown).1.1
    decide +kernel

end Rule

end ExistentialRules
