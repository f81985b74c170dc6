import Mathlib.Data.List.Forall2
import Mathlib.Data.List.Nodup
import Mathlib.Data.Prod.Basic
import Mathlib.Order.Interval.Set.Defs
import Mathlib.Order.Monotone.Basic
import ExistentialRules.Analysis

/-!
# Analyses read by origin

The rules of an analysis have numbers of their own. To compare analyses of different lists of rules,
or analyses that leave out different rules, these numbers are replaced by origins.

## Main definitions

* `Rule.numberAt`: the number of a rule in a list of rules that are known by any numbers;
* `RelianceNetwork.edgesAmong`: the reliances between such rules;
* `Analysis.origin`: the origin of an analyzed rule.

## Main statements

* `RelianceNetwork.mem_edges_ofRules_iff`: the reliances of a list of rules;
* `RelianceNetwork.edges_relabel_numberAt`: the reliances of a list of numbered rules;
* `Analysis.retain_eq_filter`, `Analysis.mem_dropped_ofRules_iff`: which rules are analyzed, and
  which are left out;
* `Analysis.edges_relabel_origin`: the reliances of an analysis read by origin.
-/

namespace ExistentialRules

/-- Whether a reliance of a certain polarity is found between two rules. Negative ones are only
found if they are looked for. -/
def Rule.relies (r₁ r₂ : Rule) (config : Config) : Polarity → Bool
  | .positive => r₁.positivelyRelies r₂ config
  | .negative => config.negative && r₁.negativelyRelies r₂ config

/-- The same reliance between rules of other numbers. -/
def RelianceEdge.relabel (f : Nat → Nat) (e : RelianceEdge) : RelianceEdge :=
  ⟨f e.source, f e.target, e.polarity⟩

/-- The same stratum with other numbers for its rules. -/
def Stratum.relabel (f : Nat → Nat) (s : Stratum) : Stratum :=
  ⟨s.rules.map f, s.recursive⟩

/-! ## §1 Reliances between numbered rules -/

/-- The rules with their numbers. -/
def Rule.numbered (rules : List Rule) : List (Nat × Rule) :=
  rules.zipIdx.map Prod.swap

theorem Rule.mem_numbered {rules : List Rule} {i : Nat} {r : Rule} :
    (i, r) ∈ numbered rules ↔ rules[i]? = some r := by
  have hswap := List.mem_map_of_injective Prod.swap_injective (a := (r, i)) (l := rules.zipIdx)
  exact hswap.trans List.mem_zipIdx_iff_getElem?

theorem Rule.lt_of_mem_numbered {rules : List Rule} {x : Nat × Rule} (hx : x ∈ numbered rules) :
    x.1 < rules.length :=
  (List.getElem?_eq_some_iff.1 (mem_numbered.1 hx)).1

/-- Rules that correspond to each other have the same number. -/
theorem Rule.forall₂_numbered {R : Rule → Rule → Prop} {rules rules' : List Rule}
    (h : List.Forall₂ R rules rules') :
    List.Forall₂ (fun x y => x.1 = y.1 ∧ R x.2 y.2) (numbered rules) (numbered rules') := by
  -- By induction on the rules, for numbers that begin anywhere.
  suffices ∀ k, List.Forall₂ (fun x y => x.1 = y.1 ∧ R x.2 y.2) ((rules.zipIdx k).map Prod.swap)
      ((rules'.zipIdx k).map Prod.swap) from this 0
  induction h with
  | nil => exact fun _ => .nil
  | cons hr _ ih => exact fun k => .cons ⟨rfl, hr⟩ (ih (k + 1))

theorem Rule.map_fst_numbered (rules : List Rule) :
    (numbered rules).map Prod.fst = List.range rules.length := by
  rw [numbered, List.map_map, List.range_eq_range']
  exact List.zipIdx_map_snd 0 rules

theorem Rule.nodup_numbered (rules : List Rule) : (numbered rules).Nodup := by
  apply List.Nodup.of_map Prod.fst
  rw [map_fst_numbered]
  exact List.nodup_range

theorem Rule.map_snd_numbered (rules : List Rule) : (numbered rules).map Prod.snd = rules := by
  rw [numbered, List.map_map]
  exact List.zipIdx_map_fst 0 rules

/-- The number of the rule at a certain place of a list of numbered rules. -/
def Rule.numberAt (xs : List (Nat × Rule)) (i : Nat) : Nat :=
  ((xs.map Prod.fst)[i]?).getD i

section NumberAt

variable {xs : List (Nat × Rule)}

/-- Numbering the rules anew and going back to the old numbers changes nothing. -/
theorem Rule.map_numberAt (xs : List (Nat × Rule)) :
    (numbered (xs.map Prod.snd)).map (Prod.map (numberAt xs) id) = xs := by
  apply List.ext_getElem?
  intro k
  cases hk : xs[k]? with
  | none => simpa [numbered] using hk
  | some x => simp [numbered, numberAt, hk]

/-- The rule at a place is found with its number. -/
theorem Rule.mem_of_getElem?_map_snd {i : Nat} {r : Rule} (hr : (xs.map Prod.snd)[i]? = some r) :
    (numberAt xs i, r) ∈ xs := by
  rw [List.getElem?_map, Option.map_eq_some_iff] at hr
  obtain ⟨x, hx, rfl⟩ := hr
  have hnumber : numberAt xs i = x.1 := by simp [numberAt, hx]
  rw [hnumber]
  exact List.mem_of_getElem? hx

/-- The numbers in use are those of the places. -/
theorem Rule.mem_map_fst_iff {k : Nat} :
    k ∈ xs.map Prod.fst ↔ ∃ i < xs.length, numberAt xs i = k := by
  have hlength : xs.length = (xs.map Prod.fst).length := (List.length_map Prod.fst).symm
  rw [List.mem_iff_getElem, hlength]
  refine exists_congr fun i => ⟨fun h => ?_, fun h => ?_⟩
  · obtain ⟨hi, rfl⟩ := h
    exact ⟨hi, by rw [numberAt, List.getElem?_eq_getElem hi, Option.getD_some]⟩
  · obtain ⟨hi, rfl⟩ := h
    exact ⟨hi, by rw [numberAt, List.getElem?_eq_getElem hi, Option.getD_some]⟩

/-- If the numbers ascend, then the order of places is that of the numbers. -/
theorem Rule.strictMonoOn_numberAt (hxs : (xs.map Prod.fst).Pairwise (· < ·)) :
    StrictMonoOn (numberAt xs) (Set.Iio xs.length) := by
  have hlength : xs.length = (xs.map Prod.fst).length := (List.length_map Prod.fst).symm
  rw [hlength]
  intro i hi j hj hij
  have horder := List.pairwise_iff_getElem.1 hxs i j hi hj hij
  rwa [numberAt, numberAt, List.getElem?_eq_getElem hi, List.getElem?_eq_getElem hj]

end NumberAt

namespace RelianceNetwork

variable (config : Config)

/-- The reliances from one numbered rule to another. -/
def edgesOf (x y : Nat × Rule) : List RelianceEdge :=
  ([Polarity.positive, Polarity.negative].filter (x.2.relies y.2 config)).map fun polarity =>
    ⟨x.1, y.1, polarity⟩

/-- The reliances from each numbered rule to each, in their order. -/
def edgesAmong (xs : List (Nat × Rule)) : List RelianceEdge :=
  xs.flatMap fun x => xs.flatMap (edgesOf config x)

variable {config}

/-- There is a reliance among numbered rules exactly if it is found between two of them. -/
theorem mem_edgesAmong {xs : List (Nat × Rule)} {e : RelianceEdge} :
    e ∈ edgesAmong config xs ↔
      ∃ r₁ r₂, (e.source, r₁) ∈ xs ∧ (e.target, r₂) ∈ xs ∧
        r₁.relies r₂ config e.polarity = true := by
  simp only [edgesAmong, edgesOf, List.mem_flatMap, List.mem_map, List.mem_filter]
  constructor
  · intro h
    obtain ⟨⟨i, r₁⟩, hr₁, ⟨j, r₂⟩, hr₂, polarity, ⟨-, hrelies⟩, rfl⟩ := h
    exact ⟨r₁, r₂, hr₁, hr₂, hrelies⟩
  · intro h
    obtain ⟨r₁, r₂, hr₁, hr₂, hrelies⟩ := h
    refine ⟨_, hr₁, _, hr₂, e.polarity, ⟨?_, hrelies⟩, rfl⟩
    cases e.polarity <;> simp

variable (config)

/-- The reliances of a list of rules are those among the numbered rules, in the same order. -/
theorem edges_ofRules_eq_edgesAmong (rules : List Rule) :
    (ofRules rules config).edges = edgesAmong config (Rule.numbered rules) := by
  -- For each pair of rules, a positive reliance comes before a negative one on both sides.
  have hbetween : ∀ (i j : Nat) (r₁ r₂ : Rule),
      (edgesBetween config i j (Reliance.sourceIndex r₁) (Reliance.targetIndex r₂)).value =
        edgesOf config (i, r₁) (j, r₂) := by
    intro i j r₁ r₂
    have hpositive : (Reliance.positiveLogged (Reliance.sourceIndex r₁) (Reliance.targetIndex r₂)
        config).value = r₁.relies r₂ config .positive := rfl
    have hnegative : (config.negative && (Reliance.negativeLogged (Reliance.sourceIndex r₁)
        (Reliance.targetIndex r₂) config).value) = r₁.relies r₂ config .negative := rfl
    rw [value_edgesBetween, hpositive, hnegative]
    cases hp : r₁.relies r₂ config .positive <;> cases hn : r₁.relies r₂ config .negative <;>
      simp [edgesOf, hp, hn]
  rw [edges_ofRules, edgesAmong, Rule.numbered, List.flatMap_map]
  simp only [List.flatMap_map, hbetween]
  rfl

variable {config}

/-- Reliances are found between the rules of the list. -/
theorem mem_edges_ofRules_iff {rules : List Rule} {e : RelianceEdge} :
    e ∈ (ofRules rules config).edges ↔
      ∃ r₁ r₂, rules[e.source]? = some r₁ ∧ rules[e.target]? = some r₂ ∧
        r₁.relies r₂ config e.polarity = true := by
  simp only [edges_ofRules_eq_edgesAmong, mem_edgesAmong, Rule.mem_numbered]

variable (config)

/-- Whether the rules get other numbers or their reliances do is the same. -/
theorem map_relabel_edgesAmong (f : Nat → Nat) (xs : List (Nat × Rule)) :
    (edgesAmong config xs).map (.relabel f) = edgesAmong config (xs.map (Prod.map f id)) := by
  simp only [edgesAmong, edgesOf, List.map_flatMap, List.flatMap_map, List.map_map]
  rfl

/-- The reliances of a list of numbered rules, read by their numbers. -/
theorem edges_relabel_numberAt (xs : List (Nat × Rule)) :
    (ofRules (xs.map Prod.snd) config).edges.map (.relabel (Rule.numberAt xs)) =
      edgesAmong config xs := by
  rw [edges_ofRules_eq_edgesAmong, map_relabel_edgesAmong, Rule.map_numberAt]

variable {config}

/-- Among some of the rules there are the reliances at both of whose ends is such a rule. -/
theorem edgesAmong_filter_eq (p : Nat × Rule → Bool) (xs : List (Nat × Rule)) :
    edgesAmong config (xs.filter p) =
      xs.flatMap fun x => xs.flatMap fun y => if p x && p y then edgesOf config x y else [] := by
  -- What is made of some members is made of all, with nothing made of the others.
  have hfilter : ∀ (ys : List (Nat × Rule)) (f : Nat × Rule → List RelianceEdge),
      (ys.filter p).flatMap f = ys.flatMap fun y => if p y then f y else [] := by
    intro ys f
    induction ys with
    | nil => rfl
    | cons y ys ih =>
      cases hy : p y with
      | true => simp [hy, ih]
      | false => simp [hy, ih]
  rw [edgesAmong, hfilter]
  apply List.flatMap_congr
  intro x _
  rw [hfilter]
  cases hx : p x with
  | true => simp
  | false => simp

/-- Rules without reliances can be left out. -/
theorem edgesAmong_filter {p : Nat × Rule → Bool} {xs : List (Nat × Rule)}
    (hp : ∀ x ∈ xs, ∀ y ∈ xs, ∀ polarity, x.2.relies y.2 config polarity = true →
      p x = true ∧ p y = true) :
    edgesAmong config (xs.filter p) = edgesAmong config xs := by
  rw [edgesAmong_filter_eq, edgesAmong]
  apply List.flatMap_congr
  intro x hx
  apply List.flatMap_congr
  intro y hy
  split
  · rfl
  -- Where one of two rules is left out, there was no reliance between them.
  · rename_i hidle
    symm
    rw [edgesOf, List.map_eq_nil_iff, List.filter_eq_nil_iff]
    intro polarity _ hrelies
    exact hidle (Bool.and_eq_true_iff.2 (hp x hx y hy polarity hrelies))

/-- Where the rules are chosen by their numbers, the reliances are chosen by their ends. -/
theorem edgesAmong_filter_number (p : Nat → Bool) (xs : List (Nat × Rule)) :
    edgesAmong config (xs.filter fun x => p x.1) =
      (edgesAmong config xs).filter fun e => p e.source && p e.target := by
  rw [edgesAmong_filter_eq, edgesAmong, List.filter_flatMap]
  apply List.flatMap_congr
  intro x _
  rw [List.filter_flatMap]
  apply List.flatMap_congr
  intro y _
  -- All reliances from one rule to another have the same ends.
  have hends : ∀ e ∈ edgesOf config x y, (p e.source && p e.target) = (p x.1 && p y.1) := by
    intro e he
    obtain ⟨polarity, -, rfl⟩ := List.mem_map.1 he
    rfl
  rw [List.filter_congr hends]
  split
  · rename_i hkept
    simp [hkept]
  · rename_i hleft
    simp [hleft]

end RelianceNetwork

namespace Analysis

/-! ## §2 The analyzed rules -/

/-- A rule is analyzed if it can add something or if rules that cannot are kept. -/
theorem retain_eq_filter (config : Config) (rules : List Rule) :
    retain config (Rule.applicability rules) rules =
      (Rule.numbered rules).filter fun x => x.2.isApplicable || !config.dropInapplicable := by
  -- By induction on the rules, for numbers that begin anywhere.
  suffices ∀ k, ((rules.zipIdx k).zip (Rule.applicability rules)).filterMap
      (fun x => if x.2 || !config.dropInapplicable then some (x.1.2, x.1.1) else none) =
      ((rules.zipIdx k).map Prod.swap).filter fun x =>
        x.2.isApplicable || !config.dropInapplicable from this 0
  induction rules with
  | nil => simp
  | cons r rules ih =>
    intro k
    have hrest := ih (k + 1)
    unfold Rule.applicability at hrest ⊢
    rw [List.zipIdx_cons, List.map_cons, List.zip_cons_cons, List.filterMap_cons, List.map_cons,
      List.filter_cons, hrest]
    cases hkept : r.isApplicable || !config.dropInapplicable <;> simp [hkept]

theorem mem_retain {config : Config} {rules : List Rule} {i : Nat} {r : Rule} :
    (i, r) ∈ retain config (Rule.applicability rules) rules ↔
      rules[i]? = some r ∧ (r.isApplicable || !config.dropInapplicable) = true := by
  rw [retain_eq_filter, List.mem_filter, Rule.mem_numbered]

/-- The origin of an analyzed rule. -/
def origin (a : Analysis) (rule : Nat) : Nat :=
  (a.origins[rule]?).getD rule

/-- The reliances of an analysis, read by origin, are those among the analyzed rules. -/
theorem edges_relabel_origin (rules : List Rule) (config : Config) :
    (ofRules rules config).reliances.edges.map (.relabel (ofRules rules config).origin) =
      RelianceNetwork.edgesAmong config (ofRules rules config).retained := by
  rw [reliances_ofRules]
  exact RelianceNetwork.edges_relabel_numberAt config (ofRules rules config).retained

theorem mem_retained_of_getElem? {a : Analysis} {i : Nat} {r : Rule} (hr : a.rules[i]? = some r) :
    (a.origin i, r) ∈ a.retained :=
  Rule.mem_of_getElem?_map_snd hr

theorem mem_origins_iff {a : Analysis} {k : Nat} :
    k ∈ a.origins ↔ ∃ i < a.rules.length, a.origin i = k := by
  rw [rules, List.length_map]
  exact Rule.mem_map_fst_iff

theorem lt_of_mem_origins {rules : List Rule} {config : Config} {k : Nat}
    (hk : k ∈ (ofRules rules config).origins) : k < rules.length := by
  obtain ⟨⟨k, r⟩, hr, rfl⟩ := List.mem_map.1 hk
  rw [retained_ofRules, mem_retain] at hr
  exact (List.getElem?_eq_some_iff.1 hr.1).1

/-- The rules that are left out are those that are not analyzed. -/
theorem mem_dropped_ofRules {rules : List Rule} {config : Config} {k : Nat} :
    k ∈ (ofRules rules config).dropped ↔
      k < rules.length ∧ k ∉ (ofRules rules config).origins := by
  rw [dropped, applicability_ofRules, Rule.applicability, List.length_map, List.mem_filter,
    List.mem_range]
  simp

theorem mem_origins_ofRules {rules : List Rule} {config : Config} {k : Nat} :
    k ∈ (ofRules rules config).origins ↔
      ∃ r, rules[k]? = some r ∧ (r.isApplicable || !config.dropInapplicable) = true := by
  simp [origins, mem_retain]

/-- A rule is left out exactly if it can never add anything and such rules are not wanted. -/
theorem mem_dropped_ofRules_iff {rules : List Rule} {config : Config} {k : Nat} :
    k ∈ (ofRules rules config).dropped ↔
      config.dropInapplicable = true ∧ ∃ r, rules[k]? = some r ∧ r.isApplicable = false := by
  rw [mem_dropped_ofRules, mem_origins_ofRules]
  -- A number that belongs to no rule is on neither side.
  cases hk : rules[k]? with
  | none =>
    have hlength : ¬ k < rules.length := (List.getElem?_eq_none_iff.1 hk).not_gt
    simp [hlength]
  | some r =>
    have hlength : k < rules.length := (List.getElem?_eq_some_iff.1 hk).1
    simp [hlength, and_comm]

section Ordered

variable (rules : List Rule) (config : Config)

/-- The analyzed rules are in the order in which they were given. -/
theorem pairwise_origins : (ofRules rules config).origins.Pairwise (· < ·) := by
  have hsublist : ((Rule.numbered rules).filter fun x =>
      x.2.isApplicable || !config.dropInapplicable).Sublist (Rule.numbered rules) :=
    List.filter_sublist
  rw [origins, retained_ofRules, retain_eq_filter]
  apply List.Pairwise.sublist (hsublist.map Prod.fst)
  rw [Rule.map_fst_numbered]
  exact List.pairwise_lt_range

theorem strictMonoOn_origin :
    StrictMonoOn (ofRules rules config).origin (Set.Iio (ofRules rules config).rules.length) := by
  rw [Analysis.rules, List.length_map]
  exact Rule.strictMonoOn_numberAt (pairwise_origins rules config)

end Ordered

/-! ## §3 What an analysis depends on -/

section Congruence

variable {R : Rule → Rule → Prop} (config : Config)
  (happlicable : ∀ r r', R r r' → r.isApplicable = r'.isApplicable)
  (hrelies : ∀ r₁ r₁' r₂ r₂', R r₁ r₁' → R r₂ r₂' → r₁.relies r₂ config = r₁'.relies r₂' config)

include hrelies in
/-- The reliances depend on the numbers and on the verdicts about rules only. -/
theorem edgesAmong_congr {xs ys : List (Nat × Rule)}
    (h : List.Forall₂ (fun x y => x.1 = y.1 ∧ R x.2 y.2) xs ys) :
    RelianceNetwork.edgesAmong config xs = RelianceNetwork.edgesAmong config ys := by
  rw [← List.forall₂_eq_eq_eq]
  refine List.rel_flatMap h fun x y hxy => List.rel_flatMap h fun x' y' hxy' => ?_
  rw [List.forall₂_eq_eq_eq, RelianceNetwork.edgesOf, RelianceNetwork.edgesOf, hxy.1, hxy'.1,
    hrelies _ _ _ _ hxy.2 hxy'.2]

include happlicable hrelies in
/-- If the rules of two lists correspond to each other in such a way that they get the same
verdicts, then their analyses have the same parts. -/
theorem ofRules_congr {rules rules' : List Rule} (h : List.Forall₂ R rules rules') :
    (ofRules rules config).applicability = (ofRules rules' config).applicability ∧
      (ofRules rules config).origins = (ofRules rules' config).origins ∧
      (ofRules rules config).reliances = (ofRules rules' config).reliances := by
  -- Corresponding rules get the same verdict, so they are kept together or left out together.
  have hretained : List.Forall₂ (fun x y => x.1 = y.1 ∧ R x.2 y.2) (ofRules rules config).retained
      (ofRules rules' config).retained := by
    rw [retained_ofRules, retained_ofRules, retain_eq_filter, retain_eq_filter]
    refine List.rel_filter (fun x y hxy => ?_) (Rule.forall₂_numbered h)
    show (x.2.isApplicable || _) = true ↔ (y.2.isApplicable || _) = true
    rw [happlicable _ _ hxy.2]
  have hrules : List.Forall₂ R (ofRules rules config).rules (ofRules rules' config).rules :=
    List.rel_map (fun _ _ hxy => hxy.2) hretained
  refine ⟨?_, ?_, ?_⟩
  · rw [applicability_ofRules, applicability_ofRules, ← List.forall₂_eq_eq_eq]
    exact List.rel_map happlicable h
  · rw [← List.forall₂_eq_eq_eq]
    exact List.rel_map (fun _ _ hxy => hxy.1) hretained
  · rw [reliances_ofRules, reliances_ofRules, RelianceNetwork.mk.injEq]
    rw [RelianceNetwork.ruleCount_ofRules, RelianceNetwork.ruleCount_ofRules, hrules.length_eq,
      RelianceNetwork.edges_ofRules_eq_edgesAmong, RelianceNetwork.edges_ofRules_eq_edgesAmong]
    exact ⟨rfl, edgesAmong_congr config hrelies (Rule.forall₂_numbered hrules)⟩

end Congruence

end Analysis

end ExistentialRules
