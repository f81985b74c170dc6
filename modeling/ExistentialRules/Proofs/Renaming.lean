import ExistentialRules.Proofs.Chase
import ExistentialRules.Reliance.Positive

/-!
# Renaming the variables of a rule

A rule means the same whatever its variables are called. Renamed variables take their values from
other assignments, but matches, satisfaction, fresh values and results correspond to each other.

## Main statements

* `Rule.matches_renameBy`, `Rule.satisfied_renameBy`, `Rule.freshValues_renameBy`,
  `Rule.result_renameBy`: what a renamed rule does;
* `Rule.WellFormed.rename`: a suffix keeps a rule well formed;
* `Reliance.renamedApart`: the two parts of a reliance have no variable in common.
-/

namespace ExistentialRules

/-! ## §1 Renamings -/

/-- Quantifiers are kept, and different variables stay different. -/
structure Renaming (ρ : Variable → Variable) : Prop where
  quantifier : ∀ v, (ρ v).quantifier = v.quantifier
  injective : Function.Injective ρ

/-- Every assignment is one of the renamed variables. -/
theorem Renaming.exists_assignment {ρ : Variable → Variable} (hρ : Renaming ρ) (h : Assignment) :
    ∃ k : Assignment, (fun v => k (ρ v)) = h := by
  have : Nonempty Variable := ⟨⟨"", .universal⟩⟩
  refine ⟨fun w => h (Function.invFun ρ w), funext fun v => ?_⟩
  exact congrArg h (Function.leftInverse_invFun hρ.injective v)

namespace Rule

/-- Replace every variable of a rule by another one. -/
def renameBy (ρ : Variable → Variable) (r : Rule) : Rule where
  body := r.body.map (Literal.under fun v => .var (ρ v))
  head := r.head.map (Literal.under fun v => .var (ρ v))

theorem renameBy_head (ρ : Variable → Variable) (r : Rule) :
    (r.renameBy ρ).head = r.head.map (Literal.under fun v => .var (ρ v)) :=
  rfl

theorem renameBy_body (ρ : Variable → Variable) (r : Rule) :
    (r.renameBy ρ).body = r.body.map (Literal.under fun v => .var (ρ v)) :=
  rfl

theorem rename_eq_renameBy (suffix : String) (r : Rule) :
    r.rename suffix = r.renameBy (Variable.withSuffix suffix) :=
  rfl

theorem length_body_rename (suffix : String) (r : Rule) :
    (r.rename suffix).body.length = r.body.length :=
  List.length_map _

theorem length_head_rename (suffix : String) (r : Rule) :
    (r.rename suffix).head.length = r.head.length :=
  List.length_map _

end Rule

/-- The variables of a renamed literal are the renamed ones. -/
theorem Literal.mem_occurringVariables_renamed {ρ : Variable → Variable} {l : Literal}
    {w : Variable} :
    w ∈ (l.under fun v => .var (ρ v)).occurringVariables ↔
      ∃ v ∈ l.occurringVariables, ρ v = w := by
  rw [mem_occurringVariables, mem_arguments_under]
  constructor
  · rintro ⟨t, ht, htw⟩
    -- Only a variable becomes a variable.
    cases t with
    | var v =>
      cases htw
      exact ⟨v, mem_occurringVariables.2 ht, rfl⟩
    | constant name => cases htw
    | null label => cases htw
  · rintro ⟨v, hv, rfl⟩
    exact ⟨.var v, mem_occurringVariables.1 hv, rfl⟩

/-- A renamed literal mentions a renamed variable exactly if the literal mentions the variable. -/
theorem exists_mem_renamed {ρ : Variable → Variable} (hρ : Renaming ρ) {Z : Set Variable}
    {l : Literal} :
    (∃ z ∈ Set.image ρ Z, z ∈ (l.under fun v => .var (ρ v)).occurringVariables) ↔
      ∃ z ∈ Z, z ∈ l.occurringVariables := by
  simp only [Set.exists_mem_image, Literal.mem_occurringVariables_renamed, hρ.injective.eq_iff,
    exists_eq_right]

namespace Rule

section

variable {r : Rule} {ρ : Variable → Variable}

theorem mem_bodyVariables_renameBy {w : Variable} :
    w ∈ (r.renameBy ρ).bodyVariables ↔ ∃ v ∈ r.bodyVariables, ρ v = w := by
  simp only [mem_bodyVariables, renameBy, List.mem_map]
  constructor
  · rintro ⟨_, ⟨l, hl, rfl⟩, hw⟩
    obtain ⟨v, hv, hvw⟩ := Literal.mem_occurringVariables_renamed.1 hw
    exact ⟨v, ⟨l, hl, hv⟩, hvw⟩
  · rintro ⟨v, ⟨l, hl, hv⟩, hvw⟩
    exact ⟨_, ⟨l, hl, rfl⟩, Literal.mem_occurringVariables_renamed.2 ⟨v, hv, hvw⟩⟩

theorem mem_headVariables_renameBy {w : Variable} :
    w ∈ (r.renameBy ρ).headVariables ↔ ∃ v ∈ r.headVariables, ρ v = w := by
  simp only [mem_headVariables, renameBy, List.mem_map]
  constructor
  · rintro ⟨_, ⟨l, hl, rfl⟩, hw⟩
    obtain ⟨v, hv, hvw⟩ := Literal.mem_occurringVariables_renamed.1 hw
    exact ⟨v, ⟨l, hl, hv⟩, hvw⟩
  · rintro ⟨v, ⟨l, hl, hv⟩, hvw⟩
    exact ⟨_, ⟨l, hl, rfl⟩, Literal.mem_occurringVariables_renamed.2 ⟨v, hv, hvw⟩⟩

theorem mem_allVariables_renameBy {w : Variable} :
    w ∈ (r.renameBy ρ).allVariables ↔ ∃ v ∈ r.allVariables, ρ v = w := by
  simp only [mem_allVariables, mem_bodyVariables_renameBy, mem_headVariables_renameBy]
  constructor
  · rintro (⟨v, hv, hvw⟩ | ⟨v, hv, hvw⟩)
    · exact ⟨v, Or.inl hv, hvw⟩
    · exact ⟨v, Or.inr hv, hvw⟩
  · rintro ⟨v, hv | hv, hvw⟩
    · exact Or.inl ⟨v, hv, hvw⟩
    · exact Or.inr ⟨v, hv, hvw⟩

/-- Renamed variables are existential where the variables are, since quantifiers are kept. -/
theorem mem_existentials_renameBy (hρ : Renaming ρ) {w : Variable} :
    w ∈ (r.renameBy ρ).existentials ↔ ∃ v ∈ r.existentials, ρ v = w := by
  simp only [mem_existentials, mem_headVariables_renameBy]
  constructor
  · rintro ⟨⟨v, hv, rfl⟩, hq⟩
    exact ⟨v, ⟨hv, by rwa [hρ.quantifier] at hq⟩, rfl⟩
  · rintro ⟨v, ⟨hv, hq⟩, rfl⟩
    exact ⟨⟨v, hv, rfl⟩, by rwa [hρ.quantifier]⟩

theorem apply_mem_existentials_renameBy (hρ : Renaming ρ) {v : Variable} :
    ρ v ∈ (r.renameBy ρ).existentials ↔ v ∈ r.existentials := by
  rw [mem_existentials_renameBy hρ]
  constructor
  · intro h
    obtain ⟨w, hw, hwv⟩ := h
    rwa [← hρ.injective hwv]
  · intro hv
    exact ⟨v, hv, rfl⟩

/-! ## §2 What a renamed rule does -/

theorem matches_renameBy {h : Assignment} {I : Finset Literal} :
    (r.renameBy ρ).Matches h I ↔ r.Matches (fun v => h (ρ v)) I := by
  simp only [Matches, renameBy, List.forall_mem_map, Literal.under_under, Term.mapVariable_var]

theorem extended_renameBy (hρ : Renaming ρ) (h n : Assignment) (l : Literal) :
    (l.under fun v => .var (ρ v)).under ((r.renameBy ρ).extended h n) =
      l.under (r.extended (fun v => h (ρ v)) fun v => n (ρ v)) := by
  rw [Literal.under_under]
  refine Literal.under_congr fun v _ => ?_
  simp only [Term.mapVariable_var, extended, apply_mem_existentials_renameBy hρ]

/-- A match of a renamed rule is satisfied exactly if that of the rule is. -/
theorem satisfied_renameBy (hρ : Renaming ρ) {h : Assignment} {I : Finset Literal} :
    (r.renameBy ρ).Satisfied h I ↔ r.Satisfied (fun v => h (ρ v)) I := by
  constructor
  · rintro ⟨n, hn⟩
    refine ⟨fun v => n (ρ v), fun l hl => ?_⟩
    rw [← extended_renameBy hρ h n l]
    exact hn _ (List.mem_map_of_mem hl)
  · rintro ⟨n, hn⟩
    -- Values for the variables of the rule are values for the renamed ones.
    obtain ⟨k, rfl⟩ := hρ.exists_assignment n
    refine ⟨k, List.forall_mem_map.2 fun l hl => ?_⟩
    rw [extended_renameBy hρ h k l]
    exact hn l hl

theorem unsatisfied_renameBy (hρ : Renaming ρ) {h : Assignment} {I : Finset Literal} :
    (r.renameBy ρ).Unsatisfied h I ↔ r.Unsatisfied (fun v => h (ρ v)) I := by
  rw [Unsatisfied, Unsatisfied, matches_renameBy, satisfied_renameBy hρ]

/-- A renamed rule adds what the rule adds. -/
theorem result_renameBy (hρ : Renaming ρ) (h n : Assignment) :
    (r.renameBy ρ).result h n = r.result (fun v => h (ρ v)) fun v => n (ρ v) := by
  ext m
  simp only [mem_result, renameBy, List.mem_map]
  constructor
  · rintro ⟨_, ⟨l, hl, rfl⟩, rfl⟩
    exact ⟨l, hl, (extended_renameBy hρ h n l).symm⟩
  · rintro ⟨l, hl, rfl⟩
    exact ⟨_, ⟨l, hl, rfl⟩, extended_renameBy hρ h n l⟩

/-- Fresh values for a renamed rule are fresh values for the rule. -/
theorem freshValues_renameBy (hρ : Renaming ρ) {rules : List Rule} {I : Finset Literal}
    {n : Assignment} :
    (r.renameBy ρ).FreshValues rules I n ↔ r.FreshValues rules I fun v => n (ρ v) := by
  have hmem : ∀ v ∈ r.existentials, ρ v ∈ (r.renameBy ρ).existentials :=
    fun v hv => (apply_mem_existentials_renameBy hρ).2 hv
  constructor
  · intro h
    refine ⟨fun v hv w hw heq => ?_, fun v hv => h.fresh (ρ v) (hmem v hv)⟩
    exact hρ.injective (h.injective (ρ v) (hmem v hv) (ρ w) (hmem w hw) heq)
  · intro h
    refine ⟨fun v hv w hw heq => ?_, fun v hv => ?_⟩
    -- Every existential variable of the renamed rule is a renamed one.
    · obtain ⟨x, hx, rfl⟩ := (mem_existentials_renameBy hρ).1 hv
      obtain ⟨y, hy, rfl⟩ := (mem_existentials_renameBy hρ).1 hw
      rw [h.injective x hx y hy heq]
    · obtain ⟨x, hx, rfl⟩ := (mem_existentials_renameBy hρ).1 hv
      exact h.fresh x hx

/-- Constants and nulls are not renamed. -/
theorem mentions_renameBy {t : Term} (ht : t.isRigid = true) :
    (r.renameBy ρ).Mentions t ↔ r.Mentions t := by
  have hliteral : ∀ l : Literal,
      t ∈ (l.under fun v => .var (ρ v)).arguments ↔ t ∈ l.arguments := by
    intro l
    -- A rigid argument does not come from a variable.
    rw [Literal.mem_arguments_under]
    constructor
    · rintro ⟨s, hs, rfl⟩
      cases s with
      | var v => simp at ht
      | constant name => exact hs
      | null label => exact hs
    · intro hmem
      exact ⟨t, hmem, Term.mapVariable_of_isRigid _ ht⟩
  simp only [Mentions, renameBy, ← List.map_append, List.mem_map]
  constructor
  · rintro ⟨_, ⟨l, hl, rfl⟩, hmem⟩
    exact ⟨l, hl, (hliteral l).1 hmem⟩
  · rintro ⟨l, hl, hmem⟩
    exact ⟨_, ⟨l, hl, rfl⟩, (hliteral l).2 hmem⟩

end

end Rule

/-- Freshness does not depend on how the variables of the rules are called. -/
theorem Term.freshFor_renameBy {I : Finset Literal} {r₁ r₂ : Rule} {ρ₁ ρ₂ : Variable → Variable}
    {t : Term} :
    t.FreshFor I [r₁.renameBy ρ₁, r₂.renameBy ρ₂] ↔ t.FreshFor I [r₁, r₂] := by
  constructor
  · intro h
    refine ⟨h.notMem, fun ht r hr hmentions => ?_⟩
    rcases List.mem_pair.1 hr with rfl | rfl
    · exact h.not_mentions ht (r.renameBy ρ₁) (by simp) ((Rule.mentions_renameBy ht).2 hmentions)
    · exact h.not_mentions ht (r.renameBy ρ₂) (by simp) ((Rule.mentions_renameBy ht).2 hmentions)
  · intro h
    refine ⟨h.notMem, fun ht r hr hmentions => ?_⟩
    rcases List.mem_pair.1 hr with rfl | rfl
    · exact h.not_mentions ht r₁ (by simp) ((Rule.mentions_renameBy ht).1 hmentions)
    · exact h.not_mentions ht r₂ (by simp) ((Rule.mentions_renameBy ht).1 hmentions)

/-- For fresh values it does not matter how the variables of the two rules are called. -/
theorem Rule.freshValues_pair_renameBy {I : Finset Literal} {r r₁ r₂ : Rule}
    {ρ₁ ρ₂ : Variable → Variable} {n : Assignment} :
    r.FreshValues [r₁.renameBy ρ₁, r₂.renameBy ρ₂] I n ↔ r.FreshValues [r₁, r₂] I n := by
  constructor
  · intro h
    exact ⟨h.injective, fun v hv => Term.freshFor_renameBy.1 (h.fresh v hv)⟩
  · intro h
    exact ⟨h.injective, fun v hv => Term.freshFor_renameBy.2 (h.fresh v hv)⟩

/-! ## §3 Suffixes -/

/-- A suffix can be taken off again. -/
theorem Variable.withSuffix_injective {suffix : String} {v w : Variable}
    (h : v.withSuffix suffix = w.withSuffix suffix) : v = w := by
  obtain ⟨a, p⟩ := v
  obtain ⟨b, q⟩ := w
  simp only [withSuffix, Variable.mk.injEq] at h ⊢
  refine ⟨?_, h.2⟩
  have hchars := congrArg String.toList h.1
  rw [String.toList_append, String.toList_append] at hchars
  exact String.toList_inj.1 (List.append_cancel_right hchars)

theorem renaming_withSuffix (suffix : String) : Renaming (Variable.withSuffix suffix) where
  quantifier := fun _ => rfl
  injective := fun _ _ => Variable.withSuffix_injective

/-- A suffix keeps a rule well formed. -/
theorem Rule.WellFormed.rename {r : Rule} (hr : r.WellFormed) (suffix : String) :
    (r.rename suffix).WellFormed := by
  rw [Rule.rename_eq_renameBy]
  refine ⟨?_, fun w hw => ?_, fun w hw hex x hx huniv heq => ?_, fun w hw huniv => ?_⟩
  · simpa [Rule.renameBy] using hr.head_ne_nil
  · obtain ⟨v, hv, rfl⟩ := Rule.mem_bodyVariables_renameBy.1 hw
    exact hr.body_universal v hv
  · obtain ⟨v, hv, rfl⟩ := Rule.mem_headVariables_renameBy.1 hw
    have hx : x ∈ (r.renameBy (Variable.withSuffix suffix)).allVariables := by
      rw [Rule.mem_allVariables]
      exact List.mem_append.1 hx
    obtain ⟨y, hy, rfl⟩ := Rule.mem_allVariables_renameBy.1 hx
    -- Equal names stay equal when the suffix is taken off again.
    have hname : y.name = v.name := by
      have hchars := congrArg String.toList heq
      simp only [Variable.withSuffix] at hchars
      rw [String.toList_append, String.toList_append] at hchars
      exact String.toList_inj.1 (List.append_cancel_right hchars)
    exact hr.quantified_once v hv hex y (List.mem_append.2 (Rule.mem_allVariables.1 hy)) huniv hname
  · obtain ⟨v, hv, rfl⟩ := Rule.mem_headVariables_renameBy.1 hw
    exact Rule.mem_bodyVariables_renameBy.2 ⟨v, hr.head_bound v hv huniv, rfl⟩

/-- Names with different suffixes of one length differ in their last characters. -/
theorem Reliance.withSuffix_ne (v w : Variable) :
    v.withSuffix sourceSuffix ≠ w.withSuffix targetSuffix := by
  intro h
  have hsource : sourceSuffix.toList = ['_', '1'] := by simp [sourceSuffix]
  have htarget : targetSuffix.toList = ['_', '2'] := by simp [targetSuffix]
  have hchars := congrArg String.toList (congrArg Variable.name h)
  simp only [Variable.withSuffix] at hchars
  rw [String.toList_append, String.toList_append, hsource, htarget] at hchars
  -- The suffixes have one length, so the names would end alike.
  have hlast := (List.append_inj' hchars rfl).2
  simp at hlast

/-- Source and target have no variable in common, also if they are the same rule. -/
theorem Reliance.renamedApart (r₁ r₂ : Rule) {v : Variable}
    (hv : v ∈ (r₁.rename sourceSuffix).allVariables) :
    v ∉ (r₂.rename targetSuffix).allVariables := by
  intro hw
  obtain ⟨x, -, rfl⟩ := Rule.mem_allVariables_renameBy.1 hv
  obtain ⟨y, -, hxy⟩ := Rule.mem_allVariables_renameBy.1 hw
  exact withSuffix_ne x y hxy.symm

/-! ## §4 Assignments to two rules -/

namespace Rule

/-- The match `h` with the values `n` for the variables of a rule, and `k` for all others. -/
def joined (r : Rule) (h n k : Assignment) : Assignment :=
  fun v => if v ∈ r.allVariables then r.extended h n v else k v

section

variable {r : Rule} {h n k : Assignment}

theorem joined_of_mem_existentials {v : Variable} (hv : v ∈ r.existentials) :
    r.joined h n k v = n v := by
  rw [joined, if_pos (mem_allVariables_of_mem_existentials hv), extended_of_mem h n hv]

theorem joined_of_mem_bodyVariables (hr : r.WellFormed) {v : Variable}
    (hv : v ∈ r.bodyVariables) : r.joined h n k v = h v := by
  rw [joined, if_pos (mem_allVariables.2 (Or.inl hv)), hr.extended_of_mem_body h n hv]

theorem joined_of_notMem {v : Variable} (hv : v ∉ r.allVariables) : r.joined h n k v = k v :=
  if_neg hv

/-- In its body, a rule sees its own match only. -/
theorem under_joined_of_mem_body (hr : r.WellFormed) {l : Literal} (hl : l ∈ r.body) :
    l.under (r.joined h n k) = l.under h := by
  apply Literal.under_congr
  intro v hv
  exact joined_of_mem_bodyVariables hr (mem_bodyVariables.2 ⟨l, hl, hv⟩)

/-- In its head, a rule sees its own match and its own values for existential variables. -/
theorem under_joined_of_mem_head {l : Literal} (hl : l ∈ r.head) :
    l.under (r.joined h n k) = l.under (r.extended h n) := by
  apply Literal.under_congr
  intro v hv
  exact if_pos (mem_allVariables_of_head hl hv)

/-- Literals of another rule, without a variable in common, do not see the match. -/
theorem under_joined_of_apart {s : Rule} (hapart : ∀ v ∈ r.allVariables, v ∉ s.allVariables)
    {l : Literal} (hl : l ∈ s.body ++ s.head) : l.under (r.joined h n k) = l.under k := by
  apply Literal.under_congr
  intro v hv
  apply joined_of_notMem
  intro hvr
  rcases List.mem_append.1 hl with hl | hl
  · exact hapart v hvr (mem_allVariables_of_body hl hv)
  · exact hapart v hvr (mem_allVariables_of_head hl hv)

/-- Among the variables of the rule, a fresh value is that of one existential variable only. -/
theorem eq_of_joined_eq_fresh (hr : r.WellFormed) {rules : List Rule} {I : Finset Literal}
    (hm : r.Matches h I) (hfresh : r.FreshValues rules I n) {v e : Variable}
    (hv : v ∈ r.allVariables) (he : e ∈ r.existentials) (heq : r.joined h n k v = n e) : v = e := by
  -- The value of a body variable occurs in the facts, so it is not fresh.
  rcases hr.mem_bodyVariables_or_existentials hv with hbody | hex
  · rw [joined_of_mem_bodyVariables hr hbody] at heq
    exact absurd heq (hm.ne_of_freshFor (hfresh.fresh e he) hbody)
  · rw [joined_of_mem_existentials hex] at heq
    exact hfresh.injective v hex e he heq

end

end Rule

end ExistentialRules
