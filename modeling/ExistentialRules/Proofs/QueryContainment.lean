import ExistentialRules.Proofs.InstanceHistory

/-!
# Containment of queries

A query is contained in another one if the other one holds in every instance in which the first
holds. There is one instance that decides this: the first query itself with its variables frozen.
What the other query becomes there, the instances of the first query have as well, since an
assignment replaces frozen variables like any others and leaves constants and nulls alone.

A variable may be frozen in the instance and free in the query at the same time.

## Main definitions

* `Sends`: an assignment that makes a query part of a list of literals.

## Main statements

* `Sends.comp`: one assignment after the other;
* `Instance.entails_iff_exists_sends`: entailment is the existence of an assignment;
* `Instance.entails_of_entails_ofList`: what the frozen query entails holds wherever the query does;
* `Instance.entails_ofList_iff_contained`: the frozen query decides containment.
-/

namespace ExistentialRules

/-! ## §1 Sending a query into literals -/

/-- The assignment makes every literal of the query one of the given literals. -/
def Sends (f : Assignment) (query ls : List Literal) : Prop :=
  ∀ l ∈ query, l.under f ∈ ls

theorem sends_var (query : List Literal) : Sends Term.var query query := by
  intro l hl
  rwa [Literal.under_id]

/-- What is sent into a query is sent on with it. -/
theorem Sends.comp {f g : Assignment} {query query' ls : List Literal}
    (hf : Sends f query' query) (hg : Sends g query ls) :
    Sends (fun v => (f v).mapVariable g) query' ls := by
  intro l hl
  rw [← Literal.under_under]
  exact hg (l.under f) (hf l hl)

/-! ## §2 Entailment -/

namespace Instance

/-- A query holds in an instance exactly if some assignment of all its variables sends it there. -/
theorem entails_iff_exists_sends {I : Instance} (hI : I.Indexed) (query : List Literal) :
    I.entails query = true ↔ ∃ f, Sends f query I.literals :=
  entailsWith_iff hI query .all

theorem entails_ofList_iff_exists_sends (query query' : List Literal) :
    (ofList query).entails query' = true ↔ ∃ f, Sends f query' query := by
  rw [entails_iff_exists_sends (indexed_ofList query)]
  simp only [Sends, mem_ofList]

/-- A frozen query entails the query, by leaving every variable as it is. -/
theorem entails_ofList_self (query : List Literal) : (ofList query).entails query = true :=
  (entails_ofList_iff_exists_sends query query).2 ⟨Term.var, sends_var query⟩

/-- An instance that entails a query entails all that the frozen query entails. -/
theorem entails_of_entails_ofList {I : Instance} (hI : I.Indexed) {query query' : List Literal}
    (hcontained : (ofList query).entails query' = true) (hquery : I.entails query = true) :
    I.entails query' = true := by
  -- The other query goes into the first one, and the first one into the instance.
  obtain ⟨f, hf⟩ := (entails_ofList_iff_exists_sends query query').1 hcontained
  obtain ⟨g, hg⟩ := (entails_iff_exists_sends hI query).1 hquery
  exact (entails_iff_exists_sends hI query').2 ⟨_, hf.comp hg⟩

/-- A query with its variables frozen entails another one exactly if some assignment sends the other
one into it, and exactly if, after every history of insertions and removals, an instance that
entails the first query entails the other one too. -/
theorem entails_ofList_iff_contained (query query' : List Literal) :
    ((ofList query).entails query' = true ↔ ∃ f, Sends f query' query) ∧
      ((ofList query).entails query' = true ↔
        ∀ changes, (ofHistory changes).entails query = true →
          (ofHistory changes).entails query' = true) := by
  refine ⟨entails_ofList_iff_exists_sends query query', fun hcontained changes hquery => ?_,
    fun hall => ?_⟩
  · exact entails_of_entails_ofList (indexed_ofHistory changes) hcontained hquery
  · -- The frozen query is one of the instances, and it entails itself.
    exact hall [.extend query] (entails_ofList_self query)

/-- Here `X` and `Y` are frozen in the instance and free in the query. -/
example :
    let path : List Literal :=
      [⟨"knows", [.universal "X", .universal "Y"]⟩, ⟨"knows", [.universal "Y", .universal "Z"]⟩]
    (ofList path).entails [⟨"knows", [.universal "Y", .universal "X"]⟩] = true ∧
      (ofList path).entails [⟨"knows", [.universal "X", .universal "X"]⟩] = false := by
  decide +kernel

end Instance

end ExistentialRules
