import ExistentialRules.Proofs.InstanceIndex

/-!
# What entailment depends on

Whether a query holds in an instance depends on three sets only: the literals of the instance, those
of the query and the free variables. More literals in the instance, fewer in the query and more free
variables can only help. The order of the query, repetitions in it and the history of the instance
change the course of the search but not its verdict.

## Main definitions

* `Instance.Within`, `FreeVariables.Within`: instances and free variables by inclusion.

## Main statements

* `Instance.within_insertAll`, `Instance.within_removeAll`: several insertions, several removals;
* `Instance.entailsWith_mono`: all three sets at once;
* `Instance.entailsWith_monotone`: what changes of a history, of a query and of the free variables
  do to the verdict.
-/

namespace ExistentialRules

/-! ## §1 Inclusion -/

/-- Every variable that is free for the first is free for the second. -/
def FreeVariables.Within (free free' : FreeVariables) : Prop :=
  ∀ v, free.isFree v = true → free'.isFree v = true

theorem FreeVariables.within_all (free : FreeVariables) : free.Within .all :=
  fun _ _ => rfl

/-- What some variables are assigned can be assigned if more are free: the others are sent to
themselves. -/
theorem FreeVariables.Within.value_value {free free' : FreeVariables} (h : free.Within free')
    (f : Assignment) : free'.value (free.value f) = free.value f := by
  funext v
  unfold value
  -- A variable that is free now, but was not, had itself as its value.
  by_cases hv : free.isFree v = true
  · rw [if_pos (h v hv)]
  · simp [hv]

namespace Instance

/-- Every literal of the first instance is one of the second. -/
def Within (I J : Instance) : Prop :=
  ∀ l, I.contains l = true → J.contains l = true

theorem Within.trans {I J K : Instance} (hIJ : I.Within J) (hJK : J.Within K) : I.Within K :=
  fun l hl => hJK l (hIJ l hl)

theorem within_insert (I : Instance) (l : Literal) : I.Within (I.insert l).2 := by
  intro m hm
  rw [contains_iff_mem] at hm ⊢
  exact mem_insert.2 (Or.inr hm)

theorem within_remove (I : Instance) (l : Literal) : (I.remove l).2.Within I := by
  intro m hm
  rw [contains_iff_mem] at hm ⊢
  exact (mem_remove.1 hm).1

theorem ofHistory_append (changes later : List Change) :
    ofHistory (changes ++ later) = later.foldl after (ofHistory changes) :=
  List.foldl_append

/-- Insertions keep all literals that are there. -/
theorem within_insertAll (ls : List Literal) (I : Instance) :
    I.Within ((ls.map Change.insert).foldl after I) := by
  -- By induction on the insertions, for the instance that each of them finds.
  induction ls generalizing I with
  | nil => exact fun _ hl => hl
  | cons l ls ih => exact (within_insert I l).trans (ih (I.insert l).2)

/-- Removals bring no literal. -/
theorem within_removeAll (ls : List Literal) (I : Instance) :
    ((ls.map Change.remove).foldl after I).Within I := by
  induction ls generalizing I with
  | nil => exact fun _ hl => hl
  | cons l ls ih => exact (ih (I.remove l).2).trans (within_remove I l)

/-! ## §2 Entailment -/

/-- A query stays entailed if the instance grows, the query shrinks and more variables become
free. -/
theorem entailsWith_mono {I J : Instance} (hI : I.Indexed) (hJ : J.Indexed) (hIJ : I.Within J)
    {query query' : List Literal} (hquery : ∀ l ∈ query', l ∈ query) {free free' : FreeVariables}
    (hfree : free.Within free') (h : I.entailsWith query free = true) :
    J.entailsWith query' free' = true := by
  obtain ⟨f, hf⟩ := (entailsWith_iff hI query free).1 h
  -- The same assignment serves, with the variables fixed that were not free.
  refine (entailsWith_iff hJ query' free').2 ⟨free.value f, fun l hl => ?_⟩
  rw [hfree.value_value]
  exact contains_iff_mem.1 (hIJ _ (contains_iff_mem.2 (hf l (hquery l hl))))

/-- The verdict is the same for two instances with the same literals and two queries with the same
literals. -/
theorem entailsWith_congr {I J : Instance} (hI : I.Indexed) (hJ : J.Indexed)
    (hIJ : ∀ l, I.contains l = true ↔ J.contains l = true) {query query' : List Literal}
    (hquery : ∀ l, l ∈ query ↔ l ∈ query') (free : FreeVariables) :
    I.entailsWith query free = J.entailsWith query' free := by
  rw [Bool.eq_iff_iff]
  exact ⟨entailsWith_mono hI hJ (fun l => (hIJ l).1) (fun l => (hquery l).2) fun _ hv => hv,
    entailsWith_mono hJ hI (fun l => (hIJ l).2) (fun l => (hquery l).1) fun _ hv => hv⟩

/-- After every history of changes and for every query and every choice of free variables, the
verdict says whether some assignment sends the query into the instance. Removals never turn it from
false to true, and insertions never from true to false; more free variables, up to all of them, and
a query with some of its literals deleted never turn it from true to false; and it is the same for
every query with the same literals, in whatever order and however often, and for every other history
that makes an equal instance. -/
theorem entailsWith_monotone (changes : List Change) (query : List Literal)
    (free : FreeVariables) :
    let I := ofHistory changes
    (I.entailsWith query free = true ↔
      ∃ f : Assignment, ∀ l ∈ query, I.contains (l.under (free.value f)) = true) ∧
    (∀ removed : List Literal, I.entailsWith query free = false →
      (ofHistory (changes ++ removed.map .remove)).entailsWith query free = false) ∧
    (∀ inserted : List Literal, I.entailsWith query free = true →
      (ofHistory (changes ++ inserted.map .insert)).entailsWith query free = true) ∧
    (∀ free', free.Within free' → I.entailsWith query free = true →
      I.entailsWith query free' = true) ∧
    (I.entailsWith query free = true → I.entailsWith query .all = true) ∧
    (∀ query', query'.Sublist query → I.entailsWith query free = true →
      I.entailsWith query' free = true) ∧
    (∀ query', (∀ l, l ∈ query ↔ l ∈ query') →
      I.entailsWith query free = I.entailsWith query' free) ∧
    ∀ changes', I.sameLiterals (ofHistory changes') = true →
      I.entailsWith query free = (ofHistory changes').entailsWith query free := by
  have hI := indexed_ofHistory changes
  have hsame : (ofHistory changes).Within (ofHistory changes) := fun _ hl => hl
  have hfree : free.Within free := fun _ hv => hv
  dsimp only
  refine ⟨?_, fun removed h => ?_, fun inserted h => ?_, fun free' hfree' h => ?_, fun h => ?_,
    fun query' hquery h => ?_, fun query' hquery => ?_, fun changes' heq => ?_⟩
  · simp only [contains_iff_mem]
    exact entailsWith_iff hI query free
  · -- What holds after the removals held before.
    rw [← Bool.not_eq_true] at h ⊢
    intro hafter
    apply h
    refine entailsWith_mono (indexed_ofHistory _) hI ?_ (fun l hl => hl) hfree hafter
    rw [ofHistory_append]
    exact within_removeAll removed _
  · refine entailsWith_mono hI (indexed_ofHistory _) ?_ (fun l hl => hl) hfree h
    rw [ofHistory_append]
    exact within_insertAll inserted _
  · exact entailsWith_mono hI hI hsame (fun l hl => hl) hfree' h
  · exact entailsWith_mono hI hI hsame (fun l hl => hl) free.within_all h
  · exact entailsWith_mono hI hI hsame (fun l hl => hquery.subset hl) hfree h
  · exact entailsWith_congr hI hI (fun _ => Iff.rfl) hquery free
  · -- Equal instances contain the same literals.
    have hliterals : (ofHistory changes).literals = (ofHistory changes').literals := by
      simpa [sameLiterals] using heq
    refine entailsWith_congr hI (indexed_ofHistory changes') (fun l => ?_) (fun _ => Iff.rfl) free
    rw [contains, contains, hliterals]

end Instance

end ExistentialRules
