import ExistentialRules.Proofs.Search

/-!
# Histories of instances

Every instance comes from the empty one by insertions and removals. Whatever the history, the index
by signature holds the literals of the instance and no others.

## Main definitions

* `Instance.Change`, `Instance.ofHistory`: one change, and the instance that a list of changes
  makes.

## Main statements

* `Instance.lookup_remove`, `Instance.candidates_remove`: a removal takes the literal out of its
  bucket;
* `Instance.indexed_after`, `Instance.indexed_ofHistory`: one change, and a whole history.
-/

namespace ExistentialRules

theorem Ascending.strict_map_fst_erase {α β : Type} [Ord α] [DecidableEq α] (key : α)
    {entries : List (α × β)} (h : Strict (entries.map Prod.fst)) :
    Strict ((erase key entries).map Prod.fst) :=
  List.Pairwise.sublist (List.Sublist.map Prod.fst List.filter_sublist) h

namespace Instance

/-! ## §1 Changes -/

/-- One change of an instance. -/
inductive Change where
  /-- Insert a literal. -/
  | insert (l : Literal)
  /-- Remove a literal. -/
  | remove (l : Literal)
  /-- Insert several literals, one after the other. -/
  | extend (ls : List Literal)
deriving DecidableEq

/-- The instance after a change. -/
def after (I : Instance) : Change → Instance
  | .insert l => (I.insert l).2
  | .remove l => (I.remove l).2
  | .extend ls => I.extend ls

/-- The instance that the changes make of the empty one, in order. -/
def ofHistory (changes : List Change) : Instance :=
  changes.foldl after empty

/-! ## §2 Removing -/

/-- Removing a literal removes it and no other. -/
theorem mem_remove {I : Instance} {l m : Literal} :
    m ∈ (I.remove l).2.literals ↔ m ∈ I.literals ∧ m ≠ l := by
  unfold remove
  split
  · simp
  · rename_i hl
    have hnot : l ∉ I.literals := by simpa [contains] using hl
    -- A literal that is not there is different from all that are.
    refine (and_iff_left_of_imp fun hm heq => hnot ?_).symm
    rwa [← heq]

theorem remove_of_not_contains {I : Instance} {l : Literal} (hl : I.contains l = false) :
    I.remove l = (false, I) := by
  rw [remove, hl]
  rfl

/-- A literal that is there is taken out of the bucket of its signature, which goes if nothing is
left of it, and the other buckets stay. -/
theorem lookup_remove {I : Instance} (hkeys : Ascending.Strict (I.buckets.map Prod.fst))
    {l : Literal} (hl : I.contains l = true) (s : Signature) :
    (I.remove l).2.buckets.lookup s =
      if s = l.signature then
        if ((I.candidates s).filter (· ≠ l)).isEmpty then none
        else some ((I.candidates s).filter (· ≠ l))
      else I.buckets.lookup s := by
  rw [remove, if_pos hl]
  dsimp only
  -- Only the bucket of the signature of the literal is touched.
  by_cases hs : s = l.signature
  · subst hs
    rw [if_pos rfl]
    split
    · rw [Ascending.lookup_erase_self]
    · rw [Ascending.lookup_alter_self _ _ hkeys]
  · rw [if_neg hs]
    split
    · rw [Ascending.lookup_erase_of_ne hs]
    · rw [Ascending.lookup_alter_of_ne hs]

/-- Removing a literal takes it out of the candidates of every signature, and changes nothing else
about them. -/
theorem candidates_remove {I : Instance} (hI : I.Indexed) (l : Literal) (s : Signature) :
    (I.remove l).2.candidates s = (I.candidates s).filter (· ≠ l) := by
  -- Where the literal is no candidate there is nothing to take out.
  have hkept : l ∉ I.candidates s → I.candidates s = (I.candidates s).filter (· ≠ l) := by
    intro hnot
    refine (List.filter_eq_self.2 fun m hm => ?_).symm
    simpa using fun heq : m = l => hnot (heq ▸ hm)
  cases hl : I.contains l with
  | true =>
    rw [candidates, lookup_remove hI.keys hl]
    by_cases hs : s = l.signature
    · rw [if_pos hs]
      split
      · rename_i hempty
        exact (List.isEmpty_iff.1 hempty).symm
      · rfl
    · rw [if_neg hs]
      exact hkept fun hmem => hs ((hI.mem_candidates s l).1 hmem).2.symm
  | false =>
    rw [remove_of_not_contains hl]
    have hnot : l ∉ I.literals := by simpa [contains] using hl
    exact hkept fun hmem => hnot ((hI.mem_candidates s l).1 hmem).1

/-- Removing keeps the buckets in step with the literals. -/
theorem indexed_remove {I : Instance} (hI : I.Indexed) (l : Literal) :
    (I.remove l).2.Indexed := by
  refine ⟨?_, fun s m => ?_⟩
  · unfold remove
    split
    · dsimp only
      split
      · exact Ascending.strict_map_fst_erase _ hI.keys
      · exact Ascending.strict_map_fst_alter _ _ hI.keys
    · exact hI.keys
  · rw [candidates_remove hI, mem_remove, List.mem_filter, hI.mem_candidates, decide_eq_true_eq]
    exact and_right_comm

/-! ## §3 Whole histories -/

/-- Every kind of change keeps the buckets in step with the literals. -/
theorem indexed_after {I : Instance} (hI : I.Indexed) (change : Change) :
    (I.after change).Indexed := by
  cases change with
  | insert l => exact indexed_insert hI l
  | remove l => exact indexed_remove hI l
  | extend ls => exact indexed_extend hI ls

/-- Instances are indexed after every history of changes. -/
theorem indexed_ofHistory (changes : List Change) : (ofHistory changes).Indexed := by
  -- The statement for any instance to start from is what the induction needs.
  have hrun : ∀ I : Instance, I.Indexed → (changes.foldl after I).Indexed := by
    induction changes with
    | nil => exact fun I hI => hI
    | cons change changes ih => exact fun I hI => ih (I.after change) (indexed_after hI change)
  exact hrun empty indexed_empty

end Instance

end ExistentialRules
