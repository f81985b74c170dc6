import ExistentialRules.Substitution

/-!
# Assignments

A total map from variables to terms, and what it makes of a literal. Substitutions are finite maps
that leave other variables alone; an assignment is what a substitution, a match or a solution of
equations means.

## Main statements

* `Literal.under_under`: one assignment after the other is one assignment;
* `Literal.under_congr`: only the variables of a literal matter;
* `Substitution.applyLiteral_eq_under`: applying a substitution.
-/

namespace ExistentialRules

/-- A value for every variable. Where only the variables of certain literals matter, the other
values are arbitrary. -/
abbrev Assignment := Variable → Term

/-! ## §1 Terms -/

namespace Term

@[simp]
theorem mapVariable_var (h : Assignment) (v : Variable) : (Term.var v).mapVariable h = h v :=
  rfl

@[simp]
theorem mapVariable_id (t : Term) : t.mapVariable Term.var = t := by
  cases t <;> rfl

theorem mapVariable_of_isRigid (h : Assignment) {t : Term} (ht : t.isRigid = true) :
    t.mapVariable h = t := by
  cases t with
  | var v => simp [isRigid, toVariable?] at ht
  | constant name => rfl
  | null label => rfl

theorem isRigid_of_ne_var {t : Term} (ht : ∀ v, t ≠ .var v) : t.isRigid = true := by
  cases t with
  | var v => exact absurd rfl (ht v)
  | constant name => rfl
  | null label => rfl

@[simp]
theorem isRigid_var (v : Variable) : (Term.var v).isRigid = false :=
  rfl

theorem var_ne_of_isRigid {t : Term} (ht : t.isRigid = true) (v : Variable) : .var v ≠ t := by
  rintro rfl
  simp at ht

theorem mapVariable_mapVariable (h k : Assignment) (t : Term) :
    (t.mapVariable h).mapVariable k = t.mapVariable fun v => (h v).mapVariable k := by
  cases t <;> rfl

theorem mapVariable_congr {h k : Assignment} {t : Term} (hk : ∀ v, t = .var v → h v = k v) :
    t.mapVariable h = t.mapVariable k := by
  cases t with
  | var v => exact hk v rfl
  | constant name => rfl
  | null label => rfl

end Term

/-! ## §2 Literals -/

namespace Literal

/-- The literal with every variable replaced by its value. -/
def under (h : Assignment) (l : Literal) : Literal :=
  l.mapTerms (Term.mapVariable h)

/-- The variables of a literal are those among its arguments. -/
theorem mem_occurringVariables {l : Literal} {v : Variable} :
    v ∈ l.occurringVariables ↔ Term.var v ∈ l.arguments := by
  simp only [occurringVariables, List.mem_filterMap]
  constructor
  · rintro ⟨t, ht, htv⟩
    -- Only a variable is a variable of the literal.
    cases t with
    | var w =>
      cases htv
      exact ht
    | constant name => cases htv
    | null label => cases htv
  · intro hv
    exact ⟨.var v, hv, rfl⟩

theorem mem_arguments_under {h : Assignment} {l : Literal} {t : Term} :
    t ∈ (l.under h).arguments ↔ ∃ s ∈ l.arguments, s.mapVariable h = t := by
  simp [under, mapTerms]

/-- The value of a variable stands wherever the variable stood. -/
theorem mem_arguments_under_of_mem {h : Assignment} {l : Literal} {v : Variable}
    (hv : v ∈ l.occurringVariables) : h v ∈ (l.under h).arguments :=
  mem_arguments_under.2 ⟨.var v, mem_occurringVariables.1 hv, rfl⟩

/-- A variable among the arguments comes from a variable. -/
theorem exists_variable_of_mem_under {h : Assignment} {l : Literal} {w : Variable}
    (hw : Term.var w ∈ (l.under h).arguments) : ∃ v ∈ l.occurringVariables, h v = .var w := by
  obtain ⟨t, ht, htw⟩ := mem_arguments_under.1 hw
  cases t with
  | var v => exact ⟨v, mem_occurringVariables.2 ht, htw⟩
  | constant name => cases htw
  | null label => cases htw

@[simp]
theorem signature_under (h : Assignment) (l : Literal) : (l.under h).signature = l.signature :=
  signature_mapTerms _ l

@[simp]
theorem under_id (l : Literal) : l.under Term.var = l := by
  have hid : Term.mapVariable Term.var = id := funext Term.mapVariable_id
  simp [under, mapTerms, hid]

theorem under_under (h k : Assignment) (l : Literal) :
    (l.under h).under k = l.under fun v => (h v).mapVariable k := by
  simp only [under, mapTerms, List.map_map, Literal.mk.injEq, true_and]
  refine List.map_congr_left fun t _ => ?_
  exact Term.mapVariable_mapVariable h k t

theorem under_congr {h k : Assignment} {l : Literal} (hk : ∀ v ∈ l.occurringVariables, h v = k v) :
    l.under h = l.under k := by
  simp only [under, mapTerms, Literal.mk.injEq, true_and]
  refine List.map_congr_left fun t ht => Term.mapVariable_congr fun v htv => ?_
  exact hk v (mem_occurringVariables.2 (htv ▸ ht))

/-- Assignments that make the same of a literal agree on its variables. -/
theorem eq_of_under_eq {h k : Assignment} {l : Literal} (heq : l.under h = l.under k)
    {v : Variable} (hv : v ∈ l.occurringVariables) : h v = k v := by
  -- The arguments are equal place by place, at the place of the variable too.
  have hmaps : l.arguments.map (Term.mapVariable h) = l.arguments.map (Term.mapVariable k) :=
    congrArg Literal.arguments heq
  exact List.map_inj_left.1 hmaps (.var v) (mem_occurringVariables.1 hv)

/-- Two literals of one signature are equal if their arguments are, place by place. -/
theorem under_eq_under_iff {h : Assignment} {l m : Literal} (hsig : l.signature = m.signature) :
    l.under h = m.under h ↔
      ∀ pair ∈ l.arguments.zip m.arguments,
        pair.1.mapVariable h = pair.2.mapVariable h := by
  obtain ⟨p, ss⟩ := l
  obtain ⟨q, ts⟩ := m
  simp only [signature, arity, Signature.mk.injEq] at hsig
  obtain ⟨rfl, hlength⟩ := hsig
  simp only [under, mapTerms, Literal.mk.injEq, true_and]
  -- Both argument lists have one length, so they are taken apart together.
  induction ss generalizing ts with
  | nil =>
    cases ts with
    | nil => simp
    | cons t ts => simp at hlength
  | cons s ss ih =>
    cases ts with
    | nil => simp at hlength
    | cons t ts =>
      have hrest : ss.length = ts.length := by simpa using hlength
      simp [ih ts hrest]

end Literal

/-! ## §3 Substitutions as assignments -/

namespace Substitution

/-- A substitution acts on terms as the assignment that leaves the other variables alone. -/
theorem applyTerm_eq_mapVariable (θ : Substitution) (t : Term) :
    θ.applyTerm t = t.mapVariable θ.applyVariable :=
  rfl

theorem applyLiteral_eq_under (θ : Substitution) (l : Literal) :
    θ.applyLiteral l = l.under θ.applyVariable :=
  rfl

theorem mem_applyLiterals {θ : Substitution} {ls : List Literal} {m : Literal} :
    m ∈ θ.applyLiterals ls ↔ ∃ l ∈ ls, l.under θ.applyVariable = m := by
  simp [applyLiterals, applyLiteral_eq_under]

theorem applyVariable_of_lookup {θ : Substitution} {v : Variable} {t : Term}
    (h : θ.lookup v = some t) : θ.applyVariable v = t := by
  simp [applyVariable, h]

theorem applyVariable_of_lookup_none {θ : Substitution} {v : Variable}
    (h : θ.lookup v = none) : θ.applyVariable v = .var v := by
  simp [applyVariable, h]

end Substitution

end ExistentialRules
