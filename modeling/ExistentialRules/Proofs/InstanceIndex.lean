import Mathlib.Data.Set.Card
import ExistentialRules.Proofs.InstanceHistory
import ExistentialRules.Proofs.Renumbering

/-!
# The index of an instance

An instance keeps its literals twice, as a set and by signature. Whatever the history, the two have
the same literals, and each bucket of the index is in the order of the latest successful insertions.

A history is read as a list of steps, each of which inserts or removes one literal, and the number
of a step is its time. The proofs take the last step off: what it does to the instance is said
first, then what it does to the times of insertion.

## Main definitions

* `Instance.Step`, `Instance.ofSteps`: single insertions and removals;
* `Instance.Exact`: set and index have the same literals, each of them once;
* `Instance.Standing`: the literals that a history leaves in the instance;
* `Instance.LastInserted`, `Instance.InsertedBefore`: the latest successful insertions.

## Main statements

* `Instance.Exact.afterStep`, `Instance.exact_ofSteps`: one step, and a whole history;
* `Instance.perm_buckets`: the buckets taken together are the set;
* `Instance.contains_ofSteps_iff`: which literals there are;
* `Instance.pairwise_candidates_ofSteps`: in which order they are tried;
* `Instance.index_ofHistory`: all that the index says about a history.
-/

namespace ExistentialRules

namespace Instance

/-! ## §1 Single steps -/

/-- The insertion or the removal of one literal. -/
inductive Step where
  /-- Insert the literal. -/
  | insert (l : Literal)
  /-- Remove the literal. -/
  | remove (l : Literal)
deriving DecidableEq

/-- The steps that a change consists of. -/
def Change.steps : Change → List Step
  | .insert l => [.insert l]
  | .remove l => [.remove l]
  | .extend ls => ls.map .insert

/-- The instance after a step. -/
def afterStep (I : Instance) : Step → Instance
  | .insert l => (I.insert l).2
  | .remove l => (I.remove l).2

/-- The instance that the steps make of the empty one, in order. -/
def ofSteps (steps : List Step) : Instance :=
  steps.foldl afterStep empty

theorem ofSteps_append_singleton (steps : List Step) (x : Step) :
    ofSteps (steps ++ [x]) = (ofSteps steps).afterStep x := by
  simp [ofSteps]

theorem foldl_steps (I : Instance) (change : Change) :
    change.steps.foldl afterStep I = I.after change := by
  cases change with
  | insert l => rfl
  | remove l => rfl
  | extend ls => exact List.foldl_map

/-- A history of changes is a run of single steps. -/
theorem ofSteps_flatMap_steps (changes : List Change) :
    ofSteps (changes.flatMap Change.steps) = ofHistory changes := by
  rw [ofSteps, List.foldl_flatMap]
  simp only [foldl_steps]
  rfl

theorem insert_fst {I : Instance} {l : Literal} : (I.insert l).1 = !I.contains l := by
  unfold insert
  cases I.contains l with
  | true => rfl
  | false => rfl

theorem remove_fst {I : Instance} {l : Literal} : (I.remove l).1 = I.contains l := by
  unfold remove
  cases I.contains l with
  | true => rfl
  | false => rfl

theorem contains_iff_mem {I : Instance} {l : Literal} : I.contains l = true ↔ l ∈ I.literals :=
  List.contains_iff_mem

/-- After a step the instance contains what the step inserts, and what it contained unless the step
removes it. -/
theorem contains_afterStep_iff {I : Instance} {x : Step} {l : Literal} :
    (I.afterStep x).contains l = true ↔
      x = .insert l ∨ I.contains l = true ∧ x ≠ .remove l := by
  simp only [contains_iff_mem]
  cases x with
  | insert m =>
    rw [afterStep, mem_insert]
    simp [eq_comm]
  | remove m =>
    rw [afterStep, mem_remove]
    simp [eq_comm]

/-! ## §2 Set and index -/

/-- The set is in ascending order, and the index has its literals, each of them once and in no empty
bucket. -/
structure Exact (I : Instance) : Prop extends I.Indexed where
  strict : Ascending.Strict I.literals
  nodup : ∀ s, (I.candidates s).Nodup
  nonempty : ∀ s, I.buckets.lookup s ≠ some []

theorem exact_empty : empty.Exact where
  toIndexed := indexed_empty
  strict := List.Pairwise.nil
  nodup := fun _ => List.nodup_nil
  nonempty := fun s h => by cases h

/-- An insertion keeps the index exact. -/
theorem Exact.insert {I : Instance} (hI : I.Exact) (l : Literal) : (I.insert l).2.Exact := by
  cases hl : I.contains l with
  | true =>
    rw [insert_of_contains hl]
    exact hI
  | false =>
    -- A literal that is not in the set is in no bucket.
    have hnew : ∀ s, l ∉ I.candidates s := by
      intro s hmem
      rw [contains_iff_mem.2 ((hI.mem_candidates s l).1 hmem).1] at hl
      cases hl
    refine ⟨indexed_insert hI.toIndexed l, ?_, fun s => ?_, fun s => ?_⟩
    · rw [Instance.insert, hl]
      exact Ascending.strict_insert l hI.strict
    · rw [candidates_insert hI.keys hl]
      split
      -- The literal is not in its bucket yet.
      · refine List.nodup_append.2 ⟨hI.nodup s, List.nodup_singleton l, fun m hm k hk heq => ?_⟩
        rw [heq, List.mem_singleton.1 hk] at hm
        exact hnew s hm
      · exact hI.nodup s
    · rw [lookup_insert hI.keys hl]
      split
      · simp
      · exact hI.nonempty s

/-- A removal keeps the index exact; a bucket that would become empty goes. -/
theorem Exact.remove {I : Instance} (hI : I.Exact) (l : Literal) : (I.remove l).2.Exact := by
  cases hl : I.contains l with
  | false =>
    rw [remove_of_not_contains hl]
    exact hI
  | true =>
    refine ⟨indexed_remove hI.toIndexed l, ?_, fun s => ?_, fun s => ?_⟩
    · rw [Instance.remove, if_pos hl]
      exact List.Pairwise.filter _ hI.strict
    · rw [candidates_remove hI.toIndexed]
      exact (hI.nodup s).filter _
    · rw [lookup_remove hI.keys hl]
      split
      -- The bucket that has changed is kept only if something is left of it.
      · split
        · simp
        · rename_i hsome
          rwa [List.isEmpty_iff, ← Option.some.injEq] at hsome
      · exact hI.nonempty s

theorem Exact.afterStep {I : Instance} (hI : I.Exact) (x : Step) : (I.afterStep x).Exact := by
  cases x with
  | insert l => exact hI.insert l
  | remove l => exact hI.remove l

/-- The index is exact after every run of steps. -/
theorem exact_ofSteps (steps : List Step) : (ofSteps steps).Exact := by
  -- By induction on the steps, the last one at the end.
  induction steps using List.reverseRecOn with
  | nil => exact exact_empty
  | append_singleton steps x ih =>
    rw [ofSteps_append_singleton]
    exact ih.afterStep x

section Exact

variable {I : Instance} (hI : I.Exact)

include hI

/-- Without empty buckets, a signature is known exactly if it has candidates. -/
theorem hasSignature_iff {s : Signature} : I.hasSignature s = true ↔ I.candidates s ≠ [] := by
  have hne := hI.nonempty s
  unfold hasSignature candidates
  cases hlookup : I.buckets.lookup s with
  | none => simp
  | some bucket =>
    rw [hlookup] at hne
    simpa using hne

theorem candidates_of_mem_buckets {b : Signature × List Literal} (hb : b ∈ I.buckets) :
    I.candidates b.1 = b.2 := by
  rw [candidates, Ascending.lookup_of_mem hI.keys hb, Option.getD_some]

theorem mem_of_mem_bucket {b : Signature × List Literal} (hb : b ∈ I.buckets) {l : Literal}
    (hl : l ∈ b.2) : l ∈ I.literals ∧ l.signature = b.1 := by
  rw [← candidates_of_mem_buckets hI hb] at hl
  exact (hI.mem_candidates b.1 l).1 hl

omit hI in
theorem mem_buckets_of_mem_candidates {s : Signature} {l : Literal} (hl : l ∈ I.candidates s) :
    (s, I.candidates s) ∈ I.buckets := by
  unfold candidates at hl ⊢
  cases hlookup : I.buckets.lookup s with
  | none => simp [hlookup] at hl
  | some bucket =>
    obtain ⟨before, rest, heq, -⟩ := List.lookup_eq_some_iff.1 hlookup
    simp [heq]

/-- No literal is in two buckets, or twice in one. -/
theorem nodup_buckets : (I.buckets.flatMap Prod.snd).Nodup := by
  refine List.nodup_flatMap.2 ⟨fun b hb => ?_, ?_⟩
  · rw [← candidates_of_mem_buckets hI hb]
    exact hI.nodup b.1
  · -- Different buckets have different signatures, and so have their literals.
    have hkeys := List.pairwise_map.1 hI.keys.nodup
    refine hkeys.imp_of_mem fun {b c} hb hc hne l hlb hlc => hne ?_
    rw [← (mem_of_mem_bucket hI hb hlb).2, (mem_of_mem_bucket hI hc hlc).2]

/-- The buckets hold the literals of the set, in another order. -/
theorem perm_buckets : (I.buckets.flatMap Prod.snd).Perm I.literals := by
  -- Both lists are without repetitions, so it is enough to compare their members.
  refine (List.perm_ext_iff_of_nodup (nodup_buckets hI) hI.strict.nodup).2 fun l => ?_
  rw [List.mem_flatMap]
  refine ⟨fun h => ?_, fun hl => ?_⟩
  · obtain ⟨b, hb, hlb⟩ := h
    exact (mem_of_mem_bucket hI hb hlb).1
  · have hcandidate := (hI.mem_candidates l.signature l).2 ⟨hl, rfl⟩
    exact ⟨_, mem_buckets_of_mem_candidates hcandidate, hcandidate⟩

theorem sum_buckets : (I.buckets.map fun b => b.2.length).sum = I.size := by
  rw [← List.length_flatMap]
  exact (perm_buckets hI).length_eq

theorem encard_contains : {l | I.contains l = true}.encard = I.size := by
  have hset : {l | I.contains l = true} = (I.literals.toFinset : Set Literal) := by
    ext l
    simp [contains]
  rw [hset, Set.encard_coe_eq_coe_finsetCard, List.toFinset_card_of_nodup hI.strict.nodup, size]

/-- Instances are equal exactly if they contain the same literals. -/
theorem sameLiterals_iff {J : Instance} (hJ : J.Exact) :
    I.sameLiterals J = true ↔ ∀ l, I.contains l = true ↔ J.contains l = true := by
  simp only [sameLiterals, decide_eq_true_eq, contains_iff_mem]
  refine ⟨fun heq l => by rw [heq], fun h => ?_⟩
  exact hI.strict.ext hJ.strict h

end Exact

/-! ## §3 Times -/

/-- The literal is inserted by some step and removed by none of the later ones. -/
def Standing (steps : List Step) (l : Literal) : Prop :=
  ∃ t : Nat, steps[t]? = some (.insert l) ∧ ∀ u : Nat, t < u → steps[u]? ≠ some (.remove l)

/-- The step at the time `t` inserts the literal, which is not there by then. -/
def InsertedAt (steps : List Step) (l : Literal) (t : Nat) : Prop :=
  steps[t]? = some (.insert l) ∧ ((ofSteps (steps.take t)).insert l).1 = true

/-- The time `t` is that of the latest successful insertion of the literal. -/
def LastInserted (steps : List Step) (l : Literal) (t : Nat) : Prop :=
  IsGreatest {t | InsertedAt steps l t} t

/-- The latest successful insertion of one literal is before that of the other. -/
def InsertedBefore (steps : List Step) (l m : Literal) : Prop :=
  ∃ t u, LastInserted steps l t ∧ LastInserted steps m u ∧ t < u

section Times

variable {steps : List Step} {x y : Step} {l m : Literal} {t : Nat}

/-- A step of the longer run is one of the earlier steps or the last one. -/
theorem getElem?_append_singleton_eq_some_iff :
    (steps ++ [x])[t]? = some y ↔ steps[t]? = some y ∨ t = steps.length ∧ x = y := by
  rcases Nat.lt_trichotomy t steps.length with hlt | heq | hgt
  · rw [List.getElem?_append_left hlt]
    simp [hlt.ne]
  · subst heq
    simp
  · have hrest : steps[t]? = none := List.getElem?_eq_none hgt.le
    have hall : (steps ++ [x])[t]? = none := List.getElem?_eq_none (by simpa using hgt)
    simp [hrest, hall, hgt.ne']

theorem lt_length_of_getElem? (h : steps[t]? = some y) : t < steps.length :=
  (List.getElem?_eq_some_iff.1 h).1

/-- Standing, step by step: the last step has the last word. -/
theorem standing_append_singleton_iff :
    Standing (steps ++ [x]) l ↔ x = .insert l ∨ Standing steps l ∧ x ≠ .remove l := by
  simp only [Standing, ne_eq, getElem?_append_singleton_eq_some_iff]
  refine ⟨fun h => ?_, fun h => ?_⟩
  -- The insertion that counts is an earlier step or the last one.
  · obtain ⟨t, ht | ⟨-, hx⟩, hlater⟩ := h
    · refine Or.inr ⟨⟨t, ht, fun u hu hremove => hlater u hu (Or.inl hremove)⟩, fun hx => ?_⟩
      exact hlater steps.length (lt_length_of_getElem? ht) (Or.inr ⟨rfl, hx⟩)
    · exact Or.inl hx
  · rcases h with hx | ⟨⟨t, ht, hlater⟩, hx⟩
    · refine ⟨steps.length, Or.inr ⟨rfl, hx⟩, fun u hu hremove => ?_⟩
      rcases hremove with hremove | ⟨heq, -⟩
      · exact absurd (lt_length_of_getElem? hremove) hu.not_gt
      · exact absurd heq hu.ne'
    · refine ⟨t, Or.inl ht, fun u hu hremove => ?_⟩
      rcases hremove with hremove | ⟨-, heq⟩
      · exact hlater u hu hremove
      · exact hx heq

/-- A literal is there exactly if it was inserted and not removed since. -/
theorem contains_ofSteps_iff (steps : List Step) (l : Literal) :
    (ofSteps steps).contains l = true ↔ Standing steps l := by
  -- Both sides follow the same recursion from the last step backwards.
  induction steps using List.reverseRecOn with
  | nil => simp [ofSteps, empty, contains, Standing]
  | append_singleton steps x ih =>
    rw [ofSteps_append_singleton, contains_afterStep_iff, standing_append_singleton_iff, ih]

/-- A later step changes nothing about the insertions before it, and may be one itself. -/
theorem insertedAt_append_singleton_iff :
    InsertedAt (steps ++ [x]) l t ↔
      InsertedAt steps l t ∨
        t = steps.length ∧ x = .insert l ∧ (ofSteps steps).contains l = false := by
  simp only [InsertedAt, getElem?_append_singleton_eq_some_iff, insert_fst, Bool.not_eq_true',
    or_and_right]
  refine or_congr (and_congr_right fun ht => ?_) (and_assoc.trans (and_congr_right fun heq => ?_))
  -- An earlier step has the same steps before it, and the last one has all the others.
  · rw [List.take_append_of_le_length (lt_length_of_getElem? ht).le]
  · rw [heq, List.take_left]

/-- A step that does not insert the literal anew leaves its latest insertion as it is. -/
theorem lastInserted_append_singleton_iff
    (h : x = .insert l → (ofSteps steps).contains l = true) :
    LastInserted (steps ++ [x]) l t ↔ LastInserted steps l t := by
  have hsame : ∀ u, InsertedAt (steps ++ [x]) l u ↔ InsertedAt steps l u := by
    intro u
    rw [insertedAt_append_singleton_iff]
    refine or_iff_left fun hnew => ?_
    rw [h hnew.2.1] at hnew
    cases hnew.2.2
  simp only [LastInserted, hsame]

/-- If the last step inserts a literal that is not there, then its time is that of the latest
insertion. -/
theorem lastInserted_append_insert (h : (ofSteps steps).contains l = false) :
    LastInserted (steps ++ [.insert l]) l steps.length := by
  refine ⟨insertedAt_append_singleton_iff.2 (Or.inr ⟨rfl, rfl, h⟩), fun u hu => ?_⟩
  rcases insertedAt_append_singleton_iff.1 hu with hold | ⟨heq, -⟩
  · exact (lt_length_of_getElem? hold.1).le
  · exact heq.le

theorem LastInserted.lt_length (h : LastInserted steps l t) : t < steps.length :=
  lt_length_of_getElem? h.1.1

/-- Every literal of the instance has a latest insertion. -/
theorem exists_lastInserted (h : (ofSteps steps).contains l = true) :
    ∃ t, LastInserted steps l t := by
  induction steps using List.reverseRecOn with
  | nil => cases h
  | append_singleton steps x ih =>
    rw [ofSteps_append_singleton, contains_afterStep_iff] at h
    -- If the literal was there before, then its latest insertion stays; if not, it is inserted now.
    cases hold : (ofSteps steps).contains l with
    | true =>
      obtain ⟨t, ht⟩ := ih hold
      exact ⟨t, (lastInserted_append_singleton_iff fun _ => hold).2 ht⟩
    | false =>
      rcases h with rfl | ⟨hthere, -⟩
      · exact ⟨steps.length, lastInserted_append_insert hold⟩
      · rw [hold] at hthere
        cases hthere

/-- The order of two literals changes only if one of them is inserted anew. -/
theorem InsertedBefore.append_singleton (h : InsertedBefore steps l m)
    (hl : x = .insert l → (ofSteps steps).contains l = true)
    (hm : x = .insert m → (ofSteps steps).contains m = true) :
    InsertedBefore (steps ++ [x]) l m := by
  obtain ⟨t, u, ht, hu, htu⟩ := h
  exact ⟨t, u, (lastInserted_append_singleton_iff hl).2 ht,
    (lastInserted_append_singleton_iff hm).2 hu, htu⟩

/-- A literal that is inserted anew comes after all that are there. -/
theorem insertedBefore_append_insert (hl : (ofSteps steps).contains l = true)
    (hm : (ofSteps steps).contains m = false) :
    InsertedBefore (steps ++ [.insert m]) l m := by
  obtain ⟨t, ht⟩ := exists_lastInserted hl
  exact ⟨t, steps.length, (lastInserted_append_singleton_iff fun _ => hl).2 ht,
    lastInserted_append_insert hm, ht.lt_length⟩

end Times

/-- The candidates of a signature are in the order of their latest successful insertions. -/
theorem pairwise_candidates_ofSteps (steps : List Step) (s : Signature) :
    ((ofSteps steps).candidates s).Pairwise (InsertedBefore steps) := by
  induction steps using List.reverseRecOn with
  | nil => exact List.Pairwise.nil
  | append_singleton steps x ih =>
    have hI := exact_ofSteps steps
    have hthere : ∀ l ∈ (ofSteps steps).candidates s, (ofSteps steps).contains l = true :=
      fun l hl => contains_iff_mem.2 ((hI.mem_candidates s l).1 hl).1
    -- The literals that are there keep their order, whatever the last step is.
    have hkept : ((ofSteps steps).candidates s).Pairwise (InsertedBefore (steps ++ [x])) :=
      ih.imp_of_mem fun {l m} hl hm h =>
        h.append_singleton (fun _ => hthere l hl) fun _ => hthere m hm
    rw [ofSteps_append_singleton]
    cases x with
    | insert l =>
      rw [afterStep]
      cases hl : (ofSteps steps).contains l with
      | true =>
        rw [insert_of_contains hl]
        exact hkept
      | false =>
        rw [candidates_insert hI.keys hl]
        split
        · refine List.pairwise_append.2 ⟨hkept, List.pairwise_singleton _ l, fun m hm k hk => ?_⟩
          rw [List.mem_singleton.1 hk]
          exact insertedBefore_append_insert (hthere m hm) hl
        · exact hkept
    | remove l =>
      rw [afterStep, candidates_remove hI.toIndexed]
      exact hkept.filter _

/-! ## §4 The index after a history -/

/-- After every history of changes, the instance contains the literals that were inserted and not
removed since. The candidates of a signature are the contained literals of this signature, each
once, in the order of their latest successful insertions, and the signature is known exactly if it
has candidates. The size is the number of the contained literals and the total length of all
buckets. An insertion succeeds exactly if the literal is absent, and a removal if it is present.
Two histories make equal instances exactly if these contain the same literals. -/
theorem index_ofHistory (changes : List Change) :
    let I := ofHistory changes
    let steps := changes.flatMap Change.steps
    (∀ l, I.contains l = true ↔ Standing steps l) ∧
      (∀ s, (∀ l, l ∈ I.candidates s ↔ I.contains l = true ∧ l.signature = s) ∧
        (I.candidates s).Nodup ∧ (I.candidates s).Pairwise (InsertedBefore steps) ∧
        (I.hasSignature s = true ↔ I.candidates s ≠ [])) ∧
      {l | I.contains l = true}.encard = I.size ∧
      (I.buckets.map fun b => b.2.length).sum = I.size ∧
      (∀ l, ((I.insert l).1 = true ↔ I.contains l = false) ∧
        ((I.remove l).1 = true ↔ I.contains l = true)) ∧
      ∀ changes', I.sameLiterals (ofHistory changes') = true ↔
        ∀ l, I.contains l = true ↔ (ofHistory changes').contains l = true := by
  simp only [← ofSteps_flatMap_steps]
  generalize changes.flatMap Change.steps = steps
  have hI := exact_ofSteps steps
  refine ⟨contains_ofSteps_iff steps, fun s => ⟨fun l => ?_, hI.nodup s,
    pairwise_candidates_ofSteps steps s, hasSignature_iff hI⟩, encard_contains hI, sum_buckets hI,
    fun l => ⟨?_, ?_⟩, fun changes' => sameLiterals_iff hI (exact_ofSteps _)⟩
  · rw [hI.mem_candidates, contains_iff_mem]
  · rw [insert_fst, Bool.not_eq_true']
  · rw [remove_fst]

/-- A literal that was removed and inserted again is the last one of its bucket. -/
example :
    let fact (name : String) : Literal := ⟨"person", [.constant name]⟩
    (ofHistory [.extend [fact "ann", fact "bob"], .insert (fact "ann"), .remove (fact "ann"),
      .insert (fact "ann")]).candidates ⟨"person", 1⟩ = [fact "bob", fact "ann"] := by
  decide +kernel

end Instance

end ExistentialRules
