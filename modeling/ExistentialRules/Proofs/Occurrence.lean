import ExistentialRules.RuleIndex
import ExistentialRules.Proofs.Chase

/-!
# The index of a rule is exact

A rule is read once, and each place is entered under the variable that stands there. At any point of
the reading, what is entered under a variable are the places that were read and hold it, in the
order of the reading, and nothing that is entered later moves them. So the places that an index
gives for a variable are those at which the variable stands in the rule, and the numbers of literals
that it gives are those of the literals that mention the variable.

## Main definitions

* `Rule.termAt?`: the term at a place;
* `ArgumentPlace.Before`: the order of places.

## Main statements

* `Side.pairwise_places`, `Rule.strict_placesOf`: places are listed in their order;
* `OccurrenceTable.getD_lookup_record`: what entering one place does to the table;
* `OccurrenceTable.getD_lookup_foldl_record`: what reading several places does to it;
* `RuleIndex.occurrences_ofRule`: the table holds the places of every variable;
* `RuleIndex.mem_literalsWith`: the literals that mention a variable;
* `RuleIndex.occurrences_exact`: the index of a rule is exact;
* `RuleIndex.any_fingerprint_contains`: the quick comparison misses no common signature.
-/

namespace ExistentialRules

/-! ## §1 Places -/

/-- The literals on one side of a rule. -/
def Rule.literalsOn (r : Rule) : Side → List Literal
  | .body => r.body
  | .head => r.head

/-- The term at a place, if the rule has the place. -/
def Rule.termAt? (r : Rule) (p : ArgumentPlace) : Option Term :=
  (r.literalsOn p.literal.side)[p.literal.index]?.bind fun l => l.arguments[p.argument]?

/-- The places of one side, with what stands there. -/
theorem Side.mem_places {side : Side} {ls : List Literal} {p : ArgumentPlace} {t : Term} :
    (p, t) ∈ side.places ls ↔
      p.literal.side = side ∧
        ∃ l, ls[p.literal.index]? = some l ∧ l.arguments[p.argument]? = some t := by
  simp only [places, List.mem_flatMap, List.mem_map, Prod.exists, List.mem_zipIdx_iff_getElem?,
    Prod.mk.injEq]
  constructor
  · rintro ⟨l, i, hl, s, j, hs, rfl, rfl⟩
    exact ⟨rfl, l, hl, hs⟩
  · rintro ⟨rfl, l, hl, ht⟩
    exact ⟨l, p.literal.index, hl, t, p.argument, ht, rfl, rfl⟩

/-- The places of a variable are those at which it stands. -/
theorem Rule.mem_placesOf {r : Rule} {v : Variable} {p : ArgumentPlace} :
    p ∈ r.placesOf v ↔
      ∃ l, (r.literalsOn p.literal.side)[p.literal.index]? = some l ∧
        l.arguments[p.argument]? = some (.var v) := by
  -- The places of a variable are picked from the table of all places and terms.
  have hplaces : p ∈ r.placesOf v ↔ (p, Term.var v) ∈ r.places := by
    simp only [placesOf, List.mem_map, List.mem_filter, decide_eq_true_eq, Prod.exists]
    constructor
    · rintro ⟨q, t, ⟨hmem, rfl⟩, rfl⟩
      exact hmem
    · intro hmem
      exact ⟨p, .var v, ⟨hmem, rfl⟩, rfl⟩
  rw [hplaces, places, List.mem_append, Side.mem_places, Side.mem_places]
  cases hside : p.literal.side with
  | body => simp [literalsOn]
  | head => simp [literalsOn]

theorem Rule.mem_placesOf_iff_termAt? {r : Rule} {v : Variable} {p : ArgumentPlace} :
    p ∈ r.placesOf v ↔ r.termAt? p = some (.var v) := by
  rw [mem_placesOf, termAt?, Option.bind_eq_some_iff]

theorem Rule.mem_placesOf_iff_mem_places {r : Rule} {v : Variable} {p : ArgumentPlace}
    {side : Side} :
    p ∈ r.placesOf v ∧ p.literal.side = side ↔
      (p, Term.var v) ∈ side.places (r.literalsOn side) := by
  rw [mem_placesOf, Side.mem_places]
  constructor
  · rintro ⟨hplace, rfl⟩
    exact ⟨rfl, hplace⟩
  · rintro ⟨rfl, hplace⟩
    exact ⟨hplace, rfl⟩

/-- Some place on a side holds a variable exactly if a literal there mentions it. -/
theorem Rule.exists_place_iff {r : Rule} {v : Variable} {side : Side} {i : Nat} :
    (∃ j, (⟨⟨side, i⟩, j⟩ : ArgumentPlace) ∈ r.placesOf v) ↔
      ∃ l, (r.literalsOn side)[i]? = some l ∧ v ∈ l.occurringVariables := by
  simp only [mem_placesOf, Literal.mem_occurringVariables]
  constructor
  · rintro ⟨j, l, hl, hj⟩
    exact ⟨l, hl, List.mem_of_getElem? hj⟩
  · rintro ⟨l, hl, hv⟩
    obtain ⟨j, hj⟩ := List.getElem?_of_mem hv
    exact ⟨j, l, hl, hj⟩

/-- A variable has no place exactly if it is none of the rule's. -/
theorem Rule.placesOf_eq_nil_iff {r : Rule} {v : Variable} :
    r.placesOf v = [] ↔ v ∉ r.allVariables := by
  -- A literal that mentions the variable has a place for it, whichever its side.
  have hside : ∀ side, (∃ l ∈ r.literalsOn side, v ∈ l.occurringVariables) →
      r.placesOf v ≠ [] := by
    rintro side ⟨l, hl, hv⟩
    obtain ⟨i, hi⟩ := List.getElem?_of_mem hl
    obtain ⟨j, hj⟩ := exists_place_iff.2 ⟨l, hi, hv⟩
    exact List.ne_nil_of_mem hj
  constructor
  · intro hnil hv
    rcases mem_allVariables.1 hv with hv | hv
    · exact hside .body (mem_bodyVariables.1 hv) hnil
    · exact hside .head (mem_headVariables.1 hv) hnil
  · intro hv
    refine List.eq_nil_iff_forall_not_mem.2 fun p hp => hv ?_
    obtain ⟨⟨side, i⟩, j⟩ := p
    obtain ⟨l, hl, hlv⟩ := exists_place_iff.1 ⟨j, hp⟩
    cases side with
    | body => exact mem_allVariables_of_body (List.mem_of_getElem? hl) hlv
    | head => exact mem_allVariables_of_head (List.mem_of_getElem? hl) hlv

theorem LiteralPlace.compare_eq_lt_iff {p q : LiteralPlace} :
    compare p q = .lt ↔ compare p.side q.side = .lt ∨ p.side = q.side ∧ p.index < q.index := by
  show (compare p.side q.side).then (compare p.index q.index) = .lt ↔ _
  rw [Ordering.then_eq_lt, Std.LawfulEqOrd.compare_eq_iff_eq, Nat.compare_eq_lt]

theorem ArgumentPlace.compare_eq_lt_iff {p q : ArgumentPlace} :
    compare p q = .lt ↔
      compare p.literal q.literal = .lt ∨ p.literal = q.literal ∧ p.argument < q.argument := by
  show (compare p.literal q.literal).then (compare p.argument q.argument) = .lt ↔ _
  rw [Ordering.then_eq_lt, Std.LawfulEqOrd.compare_eq_iff_eq, Nat.compare_eq_lt]

/-- The order in which a rule is read: the body before the head, on one side by the number of the
literal, and in one literal by the number of the argument. -/
def ArgumentPlace.Before (p q : ArgumentPlace) : Prop :=
  p.literal.side = .body ∧ q.literal.side = .head ∨
    p.literal.side = q.literal.side ∧
      (p.literal.index < q.literal.index ∨
        p.literal.index = q.literal.index ∧ p.argument < q.argument)

theorem Side.compare_eq_lt_iff {s t : Side} : compare s t = .lt ↔ s = .body ∧ t = .head := by
  cases s <;> cases t <;> decide

/-- The order of places is the order in which a rule is read. -/
theorem ArgumentPlace.compare_eq_lt_iff_before {p q : ArgumentPlace} :
    compare p q = .lt ↔ p.Before q := by
  obtain ⟨⟨s, i⟩, j⟩ := p
  obtain ⟨⟨t, k⟩, m⟩ := q
  rw [compare_eq_lt_iff, LiteralPlace.compare_eq_lt_iff, Side.compare_eq_lt_iff, Before]
  simp only [LiteralPlace.mk.injEq, or_assoc, and_assoc, and_or_left]

theorem pairwise_zipIdx {α : Type} (xs : List α) : xs.zipIdx.Pairwise fun x y => x.2 < y.2 := by
  have hnumbers : (xs.zipIdx.map Prod.snd).Pairwise (· < ·) := by
    rw [List.zipIdx_map_snd]
    exact List.pairwise_lt_range' 1
  exact List.pairwise_map.1 hnumbers

/-- The places of one side are listed in their order. -/
theorem Side.pairwise_places (side : Side) (ls : List Literal) :
    (side.places ls).Pairwise fun e e' => compare e.1 e'.1 = .lt := by
  refine List.pairwise_flatMap.2 ⟨fun x _ => ?_, ?_⟩
  -- Two arguments of one literal go by their own numbers, others by those of their literals.
  · refine List.pairwise_map.2 ((pairwise_zipIdx x.1.arguments).imp fun {s t} hst => ?_)
    exact ArgumentPlace.compare_eq_lt_iff.2 (Or.inr ⟨rfl, hst⟩)
  · refine (pairwise_zipIdx ls).imp fun {x y} hxy e he e' he' => ?_
    obtain ⟨s, -, rfl⟩ := List.mem_map.1 he
    obtain ⟨t, -, rfl⟩ := List.mem_map.1 he'
    exact ArgumentPlace.compare_eq_lt_iff.2
      (Or.inl (LiteralPlace.compare_eq_lt_iff.2 (Or.inr ⟨rfl, hxy⟩)))

/-- The terms at the places of one side are the arguments of its literals. -/
theorem Side.map_snd_places (side : Side) (ls : List Literal) :
    (side.places ls).map Prod.snd = ls.flatMap Literal.arguments := by
  have harguments : ∀ x : Literal × Nat, (x.1.arguments.zipIdx.map fun y : Term × Nat =>
      ((⟨⟨side, x.2⟩, y.2⟩ : ArgumentPlace), y.1)).map Prod.snd = x.1.arguments := by
    intro x
    rw [List.map_map]
    exact List.zipIdx_map_fst 0 x.1.arguments
  calc (side.places ls).map Prod.snd
      = ls.zipIdx.flatMap fun x => x.1.arguments := by
        rw [places, List.map_flatMap]
        exact congrArg ls.zipIdx.flatMap (funext harguments)
    _ = (ls.zipIdx.map Prod.fst).flatMap Literal.arguments := by rw [List.flatMap_map]
    _ = ls.flatMap Literal.arguments := by rw [List.zipIdx_map_fst]

/-- Places in the body come before places in the head. -/
theorem ArgumentPlace.compare_body_head {p q : ArgumentPlace} (hp : p.literal.side = .body)
    (hq : q.literal.side = .head) : compare p q = .lt :=
  compare_eq_lt_iff_before.2 (Or.inl ⟨hp, hq⟩)

/-- The places of a rule are listed in their order. -/
theorem Rule.pairwise_places (r : Rule) :
    r.places.Pairwise fun e e' => compare e.1 e'.1 = .lt := by
  refine List.pairwise_append.2
    ⟨Side.pairwise_places .body r.body, Side.pairwise_places .head r.head, ?_⟩
  -- Between the two sides, the body comes first.
  intro e he e' he'
  exact ArgumentPlace.compare_body_head (Side.mem_places.1 he).1 (Side.mem_places.1 he').1

theorem Rule.strict_placesOf (r : Rule) (v : Variable) : Ascending.Strict (r.placesOf v) :=
  List.pairwise_map.2 (r.pairwise_places.filter _)

/-! ## §2 The table -/

namespace OccurrenceTable

/-- The variables in the table ascend, also after one more place. -/
theorem strict_record {table : OccurrenceTable} (h : Ascending.Strict (table.map Prod.fst))
    (entry : ArgumentPlace × Term) :
    Ascending.Strict ((table.record entry).map Prod.fst) := by
  unfold record
  split
  · exact Ascending.strict_map_fst_alter _ _ h
  · exact h

/-- A place is entered after those that its variable has; the other variables keep theirs. -/
theorem getD_lookup_record {table : OccurrenceTable} (h : Ascending.Strict (table.map Prod.fst))
    (entry : ArgumentPlace × Term) (v : Variable) :
    ((table.record entry).lookup v).getD [] =
      (table.lookup v).getD [] ++ if entry.2 = .var v then [entry.1] else [] := by
  obtain ⟨p, t⟩ := entry
  cases t with
  | constant name => simp [record, Term.toVariable?]
  | null label => simp [record, Term.toVariable?]
  | var w =>
    by_cases hvw : v = w
    · subst hvw
      simp [record, Term.toVariable?, Ascending.lookup_alter_self v _ h]
    · simp [record, Term.toVariable?, Ascending.lookup_alter_of_ne hvw, Ne.symm hvw]

/-- By induction along the places that are read; the variables in the table stay ascending. -/
theorem getD_lookup_foldl_record (entries : List (ArgumentPlace × Term)) {table : OccurrenceTable}
    (h : Ascending.Strict (table.map Prod.fst)) (v : Variable) :
    ((entries.foldl record table).lookup v).getD [] =
      (table.lookup v).getD [] ++ (entries.filter fun e => e.2 = .var v).map Prod.fst := by
  induction entries generalizing table with
  | nil => simp
  | cons entry rest ih =>
    rw [List.foldl_cons, ih (strict_record h entry), getD_lookup_record h, List.append_assoc,
      List.filter_cons]
    by_cases hentry : entry.2 = .var v <;> simp [hentry]

end OccurrenceTable

/-! ## §3 The index -/

namespace RuleIndex

theorem occurrences_ofRule (r : Rule) (v : Variable) :
    (ofRule r).occurrences v = r.placesOf v := by
  have hempty : Ascending.Strict (([] : OccurrenceTable).map Prod.fst) := List.Pairwise.nil
  exact OccurrenceTable.getD_lookup_foldl_record r.places hempty v

theorem occurrences_isEmpty_iff {r : Rule} {v : Variable} :
    ((ofRule r).occurrences v).isEmpty = true ↔ v ∉ r.allVariables := by
  rw [occurrences_ofRule, List.isEmpty_iff, Rule.placesOf_eq_nil_iff]

/-- A literal is listed for a variable exactly if it mentions it. -/
theorem mem_literalsWith {r : Rule} {side : Side} {v : Variable} {i : Nat} :
    i ∈ (ofRule r).literalsWith side v ↔
      ∃ l, (r.literalsOn side)[i]? = some l ∧ v ∈ l.occurringVariables := by
  rw [← Rule.exists_place_iff]
  simp only [literalsWith, occurrences_ofRule, Ascending.mem_ofList, List.mem_map, List.mem_filter,
    decide_eq_true_eq]
  constructor
  · rintro ⟨⟨⟨s, k⟩, j⟩, ⟨hp, rfl⟩, rfl⟩
    exact ⟨j, hp⟩
  · rintro ⟨j, hp⟩
    exact ⟨_, ⟨hp, rfl⟩, rfl⟩

theorem mem_headLiteralsWith {r : Rule} {v : Variable} {i : Nat} :
    i ∈ (ofRule r).headLiteralsWith v ↔
      ∃ l, r.head[i]? = some l ∧ v ∈ l.occurringVariables :=
  mem_literalsWith

theorem strict_literalsWith (x : RuleIndex) (side : Side) (v : Variable) :
    Ascending.Strict (x.literalsWith side v) :=
  Ascending.strict_ofList _

/-- For every rule, accepted or not, and every variable: the places that the index gives for the
variable ascend, and they are exactly the places at which the rule has it. The numbers of body and
of head literals that it gives are those of the literals that mention the variable, each once and in
ascending order. And it gives some place exactly if the variable is one of the rule's. -/
theorem occurrences_exact (r : Rule) (v : Variable) :
    ((ofRule r).occurrences v).Pairwise ArgumentPlace.Before ∧
    (∀ p, p ∈ (ofRule r).occurrences v ↔ r.termAt? p = some (.var v)) ∧
    (Ascending.Strict ((ofRule r).bodyLiteralsWith v) ∧
      ∀ i, i ∈ (ofRule r).bodyLiteralsWith v ↔ ∃ l, r.body[i]? = some l ∧ .var v ∈ l.arguments) ∧
    (Ascending.Strict ((ofRule r).headLiteralsWith v) ∧
      ∀ i, i ∈ (ofRule r).headLiteralsWith v ↔ ∃ l, r.head[i]? = some l ∧ .var v ∈ l.arguments) ∧
    ((ofRule r).occurrences v ≠ [] ↔ v ∈ r.allVariables) := by
  have hliterals : ∀ side i, i ∈ (ofRule r).literalsWith side v ↔
      ∃ l, (r.literalsOn side)[i]? = some l ∧ .var v ∈ l.arguments := by
    intro side i
    simp only [mem_literalsWith, Literal.mem_occurringVariables]
  refine ⟨?_, fun p => ?_, ⟨strict_literalsWith _ .body v, hliterals .body⟩,
    ⟨strict_literalsWith _ .head v, hliterals .head⟩, ?_⟩
  · rw [occurrences_ofRule]
    exact (r.strict_placesOf v).imp ArgumentPlace.compare_eq_lt_iff_before.1
  · rw [occurrences_ofRule, Rule.mem_placesOf_iff_termAt?]
  · rw [occurrences_ofRule, ne_eq, Rule.placesOf_eq_nil_iff, not_not]

/-- A variable that stands twice in one literal has both places, and a constant has none. -/
example :
    let r : Rule :=
      { body := [⟨"p", [.universal "X", .constant "X", .universal "X"]⟩, ⟨"s", [.universal "Z"]⟩]
        head := [⟨"q", [.universal "X", .existential "Y"]⟩, ⟨"r", [.existential "Y"]⟩] }
    (ofRule r).occurrences ⟨"X", .universal⟩ =
      [⟨⟨.body, 0⟩, 0⟩, ⟨⟨.body, 0⟩, 2⟩, ⟨⟨.head, 0⟩, 0⟩] ∧
    (ofRule r).headLiteralsWith ⟨"Y", .existential⟩ = [0, 1] ∧
    (ofRule r).occurrences ⟨"X", .existential⟩ = [] := by
  decide

/-! ## §4 The quick comparison -/

/-- Literals of one signature have a fingerprint in common, whatever the fingerprint is. -/
theorem any_fingerprint_contains (print : Signature → Fingerprint) {ls ms : List Literal}
    {l m : Literal} (hl : l ∈ ls) (hm : m ∈ ms) (hsignature : l.signature = m.signature) :
    (ls.map fun l => print l.signature).any (ms.map fun m => print m.signature).contains =
      true := by
  apply List.any_eq_true.2
  refine ⟨print l.signature, List.mem_map.2 ⟨l, hl, rfl⟩, ?_⟩
  apply List.contains_iff_mem.2
  exact List.mem_map.2 ⟨m, hm, by rw [hsignature]⟩

end RuleIndex

end ExistentialRules
