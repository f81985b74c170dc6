import Mathlib.Data.List.Lex
import Mathlib.Order.Bounds.Basic
import ExistentialRules.Proofs.FoundHomomorphism
import ExistentialRules.Proofs.Renumbering

/-!
# The first homomorphism

A homomorphism sends every literal of a query to one of its candidates. Homomorphisms are compared
by the positions of these candidates, literal by literal from the left, and the search returns the
first one: for each literal it settles on the first candidate from which the rest of the query can
be reached, and a candidate that was given up leaves no binding behind.

## Main definitions

* `Instance.PlacedAt`: an assignment sends each literal to the candidate at a given position;
* `Substitution.ofAssignment`: an assignment restricted to finitely many variables.

## Main statements

* `Substitution.Ordered.eq_ofAssignment`: a substitution is what it says about its variables;
* `Homomorphism.isLeast_of_found`: a search ends at the least positions that are possible;
* `Instance.findHomomorphism_first`: the homomorphism that is returned.
-/

namespace ExistentialRules

/-! ## §1 Substitutions in order -/

namespace Substitution

/-- The bound variables are in ascending order. -/
def Ordered (θ : Substitution) : Prop :=
  Ascending.Strict (θ.bindings.map Prod.fst)

/-- The listed variables with their values. -/
def ofAssignment (f : Assignment) (vs : List Variable) : Substitution :=
  ⟨(Ascending.ofList vs).map fun v => (v, f v)⟩

theorem ordered_empty : empty.Ordered :=
  List.Pairwise.nil

theorem Ordered.bind {θ : Substitution} (hθ : θ.Ordered) (v : Variable) (t : Term) :
    (θ.bind v t).Ordered :=
  Ascending.strict_map_fst_alter v _ hθ

/-- In a substitution in order, what is listed is what is found. -/
theorem Ordered.mem_bindings_iff {θ : Substitution} (hθ : θ.Ordered) {v : Variable} {t : Term} :
    (v, t) ∈ θ.bindings ↔ θ.lookup v = some t := by
  refine ⟨fun h => Ascending.lookup_of_mem hθ h, fun h => ?_⟩
  obtain ⟨before, rest, heq, -⟩ := List.lookup_eq_some_iff.1 h
  simp [heq]

/-- A substitution that agrees with an assignment is the assignment, restricted to the variables
that it binds. -/
theorem Ordered.eq_ofAssignment {θ : Substitution} (hθ : θ.Ordered) {f : Assignment}
    (hf : θ.AgreesWith f) {vs : List Variable} (hvs : ∀ v, θ.Binds v ↔ v ∈ vs) :
    θ = ofAssignment f vs := by
  -- Both list the same variables in ascending order, and each has one value only.
  have hkeys : θ.bindings.map Prod.fst = Ascending.ofList vs := by
    apply hθ.ext (Ascending.strict_ofList vs)
    intro v
    rw [Ascending.mem_ofList, ← hvs, Binds, List.mem_map]
    simp only [← hθ.mem_bindings_iff, Prod.exists, exists_and_right, exists_eq_right]
  have hvalues : ∀ b ∈ θ.bindings, (b.1, f b.1) = b := by
    intro b hb
    rw [hf b.1 b.2 (hθ.mem_bindings_iff.1 hb)]
  have hbindings : (Ascending.ofList vs).map (fun v => (v, f v)) = θ.bindings := by
    rw [← hkeys, List.map_map]
    exact (List.map_congr_left hvalues).trans (List.map_id _)
  rw [ofAssignment, hbindings]

end Substitution

/-! ## §2 Positions -/

/-- The free variables of a query. -/
def FreeVariables.variablesOf (free : FreeVariables) (query : List Literal) : List Variable :=
  (query.flatMap Literal.occurringVariables).filter free.isFree

theorem FreeVariables.mem_variablesOf {free : FreeVariables} {query : List Literal}
    {v : Variable} :
    v ∈ free.variablesOf query ↔
      free.isFree v = true ∧ ∃ l ∈ query, v ∈ l.occurringVariables := by
  rw [variablesOf, List.mem_filter, List.mem_flatMap, and_comm]

namespace Instance

/-- Under the assignment of the free variables, every literal of the query is the candidate at its
position. -/
def PlacedAt (I : Instance) (free : FreeVariables) (f : Assignment) :
    List Literal → List Nat → Prop :=
  List.Forall₂ fun l i => (I.candidates l.signature)[i]? = some (l.under (free.value f))

/-- A query whose literals are all at some position is sent into the instance. -/
theorem PlacedAt.mem_literals {I : Instance} (hI : I.Indexed) {free : FreeVariables}
    {f : Assignment} {query : List Literal} {positions : List Nat}
    (h : I.PlacedAt free f query positions) :
    ∀ l ∈ query, l.under (free.value f) ∈ I.literals := by
  induction h with
  | nil => simp
  | cons hplace _ ih =>
    have hmem := (hI.mem_candidates _ _).1 (List.mem_of_getElem? hplace)
    exact List.forall_mem_cons.2 ⟨hmem.1, ih⟩

end Instance

/-! ## §3 The search -/

namespace Homomorphism

/-- Matching a literal keeps the bound variables in order. -/
theorem ordered_extend (free : FreeVariables) (qs ts : List Term) {θ : Substitution}
    (hθ : θ.Ordered) : (extend free qs ts θ).substitution.Ordered := by
  fun_induction extend free qs ts θ with
  | case1 q qs ts θ v hq bound hv ih => exact ih hθ
  | case2 => exact hθ
  | case3 q qs t ts θ v hq hv e ih => exact ih (hθ.bind v t)
  | case4 qs t ts θ hq ih => exact ih hθ
  | case5 => exact hθ
  | case6 => exact hθ

section Found

variable {I : Instance} (hI : I.Indexed) (free : FreeVariables)

include hI

/-- The substitution of a successful search is in order. -/
theorem ordered_of_found (query : List Literal) {θ : Substitution} (hθ : θ.Ordered)
    (hfound : (search I free query θ).found = true) :
    (search I free query θ).substitution.Ordered := by
  induction query generalizing θ with
  | nil => exact hθ
  | cons l ls ih =>
    -- The search goes on with the rest of the query from the first candidate that serves.
    obtain ⟨i, c, -, heq⟩ := exists_firstServing_of_search hI hfound
    rw [heq] at hfound ⊢
    exact ih (ordered_extend free _ _ hθ) hfound

/-- A search that succeeds ends at the least positions that an assignment can have which agrees with
the substitution at the start, and its substitution agrees with all assignments that have them. -/
theorem isLeast_of_found (query : List Literal) (θ : Substitution)
    (hfound : (search I free query θ).found = true) :
    ∃ positions, IsLeast {p | ∃ f, θ.AgreesWith f ∧ I.PlacedAt free f query p} positions ∧
      ∀ f, θ.AgreesWith f → I.PlacedAt free f query positions →
        (search I free query θ).substitution.AgreesWith f := by
  -- By induction on the query: the first literal takes the first candidate from which the rest can
  -- be reached.
  induction query generalizing θ with
  | nil =>
    refine ⟨[], ⟨⟨_, θ.agreesWith_applyVariable, .nil⟩, fun p hp => ?_⟩, fun f hf _ => hf⟩
    obtain ⟨f, -, hplaced⟩ := hp
    cases hplaced
    exact le_rfl
  | cons l ls ih =>
    obtain ⟨i, c, hc, heq⟩ := exists_firstServing_of_search hI hfound
    -- To agree with the extension is to agree with `θ` and to send the literal to the candidate.
    have hagrees : ∀ f, (extend free l.arguments c.arguments θ).substitution.AgreesWith f ↔
        θ.AgreesWith f ∧ l.under (free.value f) = c := by
      intro f
      rw [under_eq_iff hc.signature]
      exact (meets_extend free (congrArg Signature.arity hc.signature).symm θ).matched hc.matched f
    rw [heq] at hfound ⊢
    obtain ⟨positions, ⟨⟨f, hf, hplaced⟩, hleast⟩, hdetermined⟩ := ih _ hfound
    refine ⟨i :: positions, ⟨⟨f, ((hagrees f).1 hf).1, .cons ?_ hplaced⟩, fun p hp => ?_⟩,
      fun g hg hplaced' => ?_⟩
    · rw [((hagrees f).1 hf).2]
      exact hc.place
    · obtain ⟨g, hg, hplaced'⟩ := hp
      cases hplaced' with
      | @cons _ j _ p hplace hrest =>
        rcases Nat.lt_trichotomy j i with hlt | rfl | hgt
        -- From an earlier candidate the rest of the query cannot be reached.
        · exact absurd (Instance.PlacedAt.mem_literals hI hrest) (hc.before j hlt g hg hplace)
        -- At the same candidate, the positions of the rest decide.
        · have hgc : l.under (free.value g) = c := Option.some.inj (hplace.symm.trans hc.place)
          exact List.cons_le_cons _ (hleast ⟨g, (hagrees g).2 ⟨hg, hgc⟩, hrest⟩)
        · exact le_of_lt (List.Lex.rel hgt)
    · cases hplaced' with
      | cons hplace hrest =>
        have hgc : l.under (free.value g) = c := Option.some.inj (hplace.symm.trans hc.place)
        exact hdetermined g ((hagrees g).2 ⟨hg, hgc⟩) hrest

end Found

end Homomorphism

/-! ## §4 The homomorphism that is returned -/

namespace Instance

/-- If some assignment of the free variables sends the query into the instance, then the choices of
one candidate for each literal that an assignment can make have a least one, literal by literal from
the left. The search returns the values that an assignment with this choice has on the free
variables of the query. -/
theorem findHomomorphism_first (changes : List Change) (query : List Literal)
    (free : FreeVariables)
    (hexists : ∃ f : Assignment, ∀ l ∈ query,
      (ofHistory changes).contains (l.under (free.value f)) = true) :
    ∃ positions, IsLeast {p | ∃ f, (ofHistory changes).PlacedAt free f query p} positions ∧
      ∀ f, (ofHistory changes).PlacedAt free f query positions →
        (ofHistory changes).findHomomorphism query free =
          some (.ofAssignment f (free.variablesOf query)) := by
  have hI := indexed_ofHistory changes
  simp only [contains, List.contains_iff_mem] at hexists
  rw [← entailsWith_iff hI query free, entailsWith, Option.isSome_iff_exists] at hexists
  obtain ⟨θ, hθ⟩ := hexists
  have hbinds := binds_of_findHomomorphism hI hθ
  obtain ⟨hfound, hresult⟩ := findHomomorphism_eq_some_iff.1 hθ
  have hordered := Homomorphism.ordered_of_found hI free query Substitution.ordered_empty hfound
  obtain ⟨positions, hleast, hdetermined⟩ :=
    Homomorphism.isLeast_of_found hI free query .empty hfound
  simp only [Substitution.agreesWith_empty, true_and, true_implies] at hleast hdetermined
  rw [hresult] at hordered hdetermined
  refine ⟨positions, hleast, fun f hf => ?_⟩
  -- The substitution agrees with the assignment, and it binds the free variables of the query.
  rw [hθ, hordered.eq_ofAssignment (hdetermined f hf)]
  intro v
  rw [hbinds, FreeVariables.mem_variablesOf]

/-- Ann knows Bob, and Bob knows Ann and Cid, who is a student. -/
def acquaintances : List Change :=
  [.extend [⟨"knows", [.constant "ann", .constant "bob"]⟩,
    ⟨"knows", [.constant "bob", .constant "ann"]⟩, ⟨"knows", [.constant "bob", .constant "cid"]⟩,
    ⟨"student", [.constant "cid"]⟩]]

/-- Somebody who knows somebody who knows a student. -/
def knowsStudent : List Literal :=
  [⟨"knows", [.universal "X", .universal "Y"]⟩, ⟨"knows", [.universal "Y", .universal "Z"]⟩,
    ⟨"student", [.universal "Z"]⟩]

/-- The first acquaintance of Bob is given up for the second one, and Ann stays. -/
theorem findHomomorphism_first_knowsStudent :
    (∃ positions, IsLeast {p | ∃ f, (ofHistory acquaintances).PlacedAt .all f knowsStudent p}
        positions ∧
      ∀ f, (ofHistory acquaintances).PlacedAt .all f knowsStudent positions →
        (ofHistory acquaintances).findHomomorphism knowsStudent .all =
          some (.ofAssignment f (FreeVariables.all.variablesOf knowsStudent))) ∧
      (ofHistory acquaintances).findHomomorphism knowsStudent .all =
        some ⟨[(⟨"X", .universal⟩, .constant "ann"), (⟨"Y", .universal⟩, .constant "bob"),
          (⟨"Z", .universal⟩, .constant "cid")]⟩ := by
  have hexists : ∃ f : Assignment, ∀ l ∈ knowsStudent,
      (ofHistory acquaintances).contains (l.under (FreeVariables.all.value f)) = true := by
    refine ⟨fun v => if v.name = "X" then .constant "ann" else if v.name = "Y" then .constant "bob"
      else .constant "cid", ?_⟩
    decide +kernel
  exact ⟨findHomomorphism_first acquaintances knowsStudent .all hexists, by decide +kernel⟩

end Instance

end ExistentialRules
