import ExistentialRules.Proofs.Dropping

/-!
# The analysis of a part of the rules

Some of the rules of a list can be analyzed without the others. Whether a rule relies on another is
a matter of these two alone, so the reliances between the rules of the part stay what they are. Its
strata are those of the whole list without the other rules, provided that the part is closed: it
contains every rule from which a positive reliance leads into it.

Components are another matter. Two rules of the part may be connected through a rule outside of it.

## Main definitions

* `Rule.part`: the rules of a list whose numbers have a certain property.

## Main statements

* `Rule.map_fst_part`: the numbers of the rules of a part;
* `Analysis.embeds_part`: the reliances of a part;
* `Analysis.ofRules_part`: the analysis of a closed part.
-/

namespace ExistentialRules

/-! ## §1 Parts of a list -/

namespace Rule

/-- The rules whose numbers have a certain property, with these numbers. -/
def part (p : Nat → Bool) (rules : List Rule) : List (Nat × Rule) :=
  (numbered rules).filter fun x => p x.1

variable {p : Nat → Bool} {rules : List Rule}

theorem mem_part {i : Nat} {r : Rule} :
    (i, r) ∈ part p rules ↔ rules[i]? = some r ∧ p i = true := by
  rw [part, List.mem_filter, mem_numbered]

/-- The rules of a part are in the order in which they were given. -/
theorem map_fst_part (p : Nat → Bool) (rules : List Rule) :
    (part p rules).map Prod.fst = (List.range rules.length).filter p := by
  rw [← map_fst_numbered, List.filter_map]
  rfl

end Rule

/-! ## §2 The analysis of a part -/

namespace Analysis

variable (p : Nat → Bool) (rules : List Rule) (config : Config)

/-- The rules of a part rely on each other as they do in the whole list. -/
theorem embeds_part :
    RelianceNetwork.Embeds (Rule.numberAt (Rule.part p rules))
      (.ofRules ((Rule.part p rules).map Prod.snd) config) (.ofRules rules config) := by
  apply RelianceNetwork.embeds_ofRules
  · rw [List.length_map]
    apply Rule.strictMonoOn_numberAt
    rw [Rule.map_fst_part]
    exact List.pairwise_lt_range.filter p
  -- A rule of the part stands in the list, at the place of its number.
  · intro i r hr
    exact (Rule.mem_part.1 (Rule.mem_of_getElem?_map_snd hr)).1
  · exact fun _ _ => rfl

variable {p rules config}

/-- The strata of a closed part. -/
theorem restrictAll_strata_part
    (hclosed : ∀ i j, (RelianceNetwork.ofRules rules config).Positive i j →
      p j = true → p i = true) :
    Stratum.restrictAll p (DependencyGraph.ofReliances (.ofRules rules config)).strata =
      (DependencyGraph.ofReliances
        (.ofRules ((Rule.part p rules).map Prod.snd) config)).strata.map
          (.relabel (Rule.numberAt (Rule.part p rules))) := by
  have hembeds := embeds_part p rules config
  have hcount : (RelianceNetwork.ofRules ((Rule.part p rules).map Prod.snd) config).ruleCount =
      (Rule.part p rules).length := by
    rw [RelianceNetwork.ruleCount_ofRules, List.length_map]
  -- The numbers with the property are those of the rules of the part.
  have hplaces : ∀ a < rules.length,
      p a = true ↔ ∃ i < (Rule.part p rules).length, Rule.numberAt (Rule.part p rules) i = a := by
    intro a ha
    rw [← Rule.mem_map_fst_iff, Rule.map_fst_part, List.mem_filter, List.mem_range]
    exact (and_iff_right ha).symm
  apply DependencyGraph.Embeds.restrictAll_strata
  -- What leads into the part belongs to it, by assumption.
  · apply hembeds.dependencies
    intro a j hj hpositive
    have hends := hembeds.closed _ hpositive
    rw [RelianceNetwork.ruleCount_ofRules] at hends
    rw [hcount] at hj ⊢
    rw [← hplaces a hends.1]
    apply hclosed a _ hpositive
    rw [hplaces _ hends.2]
    exact ⟨j, hj, rfl⟩
  · intro a ha
    rw [DependencyGraph.ruleCount_ofReliances, RelianceNetwork.ruleCount_ofRules] at ha
    rw [DependencyGraph.ruleCount_ofReliances, hcount]
    exact hplaces a ha

/-- If a part of the rules contains every rule from which a positive reliance leads into it, then it
can be analyzed by itself. Its rules, read by the places that they have in the whole list, have the
same reliances on each other, and its strata are those of the whole list, once the other rules and
the strata without any rule left are taken away. All lists are in the same order. -/
theorem ofRules_part (hkeep : config.dropInapplicable = false)
    (hclosed : ∀ i j, (ofRules rules config).reliances.Positive i j → p j = true → p i = true) :
    let a := ofRules rules config
    let b := ofRules ((Rule.part p rules).map Prod.snd) config
    let place := Rule.numberAt (Rule.part p rules)
    b.retained.map (Prod.map place id) = a.retained.filter (fun x => p x.1) ∧
      b.reliances.edges.map (.relabel place) =
        a.reliances.edges.filter (fun e => p e.source && p e.target) ∧
      b.strata.map (.relabel place) = Stratum.restrictAll p a.strata ∧
      b.recursiveStrata = (Stratum.restrictAll p a.strata).map (·.recursive) := by
  intro a b place
  -- Nothing is left out, so that the rules analyzed are the given ones on both sides.
  have hstrata : b.strata.map (.relabel place) = Stratum.restrictAll p a.strata := by
    rw [reliances_ofRules, rules_of_keep hkeep] at hclosed
    rw [strata_ofRules, strata_ofRules, dependencies_ofRules, dependencies_ofRules,
      reliances_ofRules, reliances_ofRules, rules_of_keep hkeep, rules_of_keep hkeep]
    exact (restrictAll_strata_part hclosed).symm
  refine ⟨?_, ?_, hstrata, ?_⟩
  · rw [retained_of_keep hkeep, retained_of_keep hkeep]
    exact Rule.map_numberAt (Rule.part p rules)
  · rw [reliances_ofRules, reliances_ofRules, rules_of_keep hkeep, rules_of_keep hkeep,
      RelianceNetwork.edges_relabel_numberAt, RelianceNetwork.edges_ofRules_eq_edgesAmong]
    exact RelianceNetwork.edgesAmong_filter_number p (Rule.numbered rules)
  · rw [← hstrata, List.map_map]
    rfl

/-- Students are enrolled and have advisors, and advisors are teachers. -/
def departmentRules : List Rule :=
  [⟨[⟨"student", [.universal "X"]⟩], [⟨"enrolled", [.universal "X"]⟩]⟩, .studentHasAdvisor,
    ⟨[⟨"advises", [.universal "X", .universal "Y"]⟩], [⟨"teacher", [.universal "X"]⟩]⟩]

/-- Without the first rule, its stratum loses one of two rules. -/
theorem strata_part_departmentRules :
    let config := { Config.default with dropInapplicable := false }
    let a := ofRules departmentRules config
    let b := ofRules ((Rule.part (0 < ·) departmentRules).map Prod.snd) config
    (∀ i j, a.reliances.Positive i j → 0 < j → 0 < i) ∧
      a.strata = [⟨[0, 1], false⟩, ⟨[2], false⟩] ∧
      b.strata.map (Stratum.relabel (Rule.numberAt (Rule.part (0 < ·) departmentRules))) =
        [⟨[1], false⟩, ⟨[2], false⟩] := by
  intro config a b
  have hvalue : a.reliances.edges = [⟨1, 2, .positive⟩] ∧
      a.strata = [⟨[0, 1], false⟩, ⟨[2], false⟩] := by
    decide +kernel
  have hclosed : ∀ i j, a.reliances.Positive i j → 0 < j → 0 < i := by
    intro i j hpositive _
    rw [RelianceNetwork.Positive, hvalue.1, List.mem_singleton, RelianceEdge.mk.injEq] at hpositive
    rw [hpositive.1]
    exact Nat.one_pos
  refine ⟨hclosed, hvalue.2, ?_⟩
  obtain ⟨-, -, hstrata, -⟩ := @ofRules_part (0 < ·) departmentRules config rfl
    (by simpa only [decide_eq_true_eq] using hclosed)
  rw [hstrata]
  show Stratum.restrictAll _ a.strata = _
  rw [hvalue.2]
  rfl

end Analysis

end ExistentialRules
