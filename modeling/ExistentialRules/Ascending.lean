/-!
# Ascending lists

Finite sets and finite maps kept as lists in strictly ascending order.

A set written this way has one representation only, so that comparing two sets is comparing two
lists, and printing a set in order is printing the list.

## Main definitions

* `Ascending.insert`, `Ascending.ofList`: sets;
* `Ascending.alter`, `Ascending.erase`: maps, as lists of key and value;
* `Ascending.Strict`: the order that all of them keep.

## Main statements

* `Ascending.mem_insert`, `Ascending.mem_ofList`: which elements a set has;
* `Ascending.strict_insert`, `Ascending.strict_ofList`: sets stay ascending;
* `Ascending.map_fst_alter`, `Ascending.strict_map_fst_alter`: which keys a map has, and that they
  stay ascending;
* `Ascending.lookup_of_mem`, `Ascending.lookup_alter_self`, `Ascending.lookup_alter_of_ne`,
  `Ascending.lookup_erase_self`, `Ascending.lookup_erase_of_ne`: which value a key has.
-/

namespace ExistentialRules.Ascending

open Std

universe u v

variable {α : Type u} {β : Type v}

/-! ## §1 Sets -/

/-- Every element is smaller than all that follow it. -/
def Strict [Ord α] (xs : List α) : Prop :=
  xs.Pairwise fun a b => compare a b = .lt

/-- Add an element at its place; an element already listed is not listed again. -/
def insert [Ord α] (a : α) : List α → List α
  | [] => [a]
  | b :: bs =>
    match compare a b with
    | .lt => a :: b :: bs
    | .eq => b :: bs
    | .gt => b :: insert a bs

/-- The elements of a list, each once, in ascending order. -/
def ofList [Ord α] (xs : List α) : List α :=
  xs.foldr insert []

/-- The elements of two sets together. -/
def union [Ord α] (xs ys : List α) : List α :=
  xs.foldr insert ys

@[simp]
theorem mem_insert [Ord α] [LawfulEqOrd α] (a x : α) (xs : List α) :
    x ∈ insert a xs ↔ x = a ∨ x ∈ xs := by
  induction xs with
  | nil => simp [insert]
  | cons b bs ih =>
    simp only [insert]
    split
    · simp
    · rename_i h
      have hab : a = b := LawfulEqOrd.eq_of_compare h
      simp [hab]
    · simp only [List.mem_cons, ih]
      grind

@[simp]
theorem mem_union [Ord α] [LawfulEqOrd α] (x : α) (xs ys : List α) :
    x ∈ union xs ys ↔ x ∈ xs ∨ x ∈ ys := by
  induction xs with
  | nil => simp [union]
  | cons b bs ih =>
    have hstep : union (b :: bs) ys = insert b (union bs ys) := rfl
    rw [hstep, mem_insert, ih, List.mem_cons, or_assoc]

@[simp]
theorem mem_ofList [Ord α] [LawfulEqOrd α] (x : α) (xs : List α) :
    x ∈ ofList xs ↔ x ∈ xs := by
  have hunion : ofList xs = union xs [] := rfl
  simp [hunion]

theorem strict_insert [Ord α] [TransOrd α] [LawfulEqOrd α] (a : α) {xs : List α}
    (hxs : Strict xs) : Strict (insert a xs) := by
  induction xs with
  | nil => simp [insert, Strict]
  | cons b bs ih =>
    have hcons := List.pairwise_cons.1 hxs
    simp only [insert]
    split
    · rename_i h
      refine List.pairwise_cons.2 ⟨fun x hx => ?_, hxs⟩
      rcases List.mem_cons.1 hx with rfl | hx
      · exact h
      · exact TransCmp.lt_trans h (hcons.1 x hx)
    · exact hxs
    · rename_i h
      refine List.pairwise_cons.2 ⟨fun x hx => ?_, ih hcons.2⟩
      rcases (mem_insert a x bs).1 hx with rfl | hx
      · exact OrientedCmp.lt_of_gt h
      · exact hcons.1 x hx

theorem strict_union [Ord α] [TransOrd α] [LawfulEqOrd α] (xs : List α) {ys : List α}
    (hys : Strict ys) : Strict (union xs ys) := by
  induction xs with
  | nil => exact hys
  | cons b bs ih => exact strict_insert b ih

theorem strict_ofList [Ord α] [TransOrd α] [LawfulEqOrd α] (xs : List α) : Strict (ofList xs) :=
  strict_union xs List.Pairwise.nil

/-! ## §2 Maps -/

/-- Give a key the value that a function makes of its present one, if it has one. -/
def alter [Ord α] (key : α) (f : Option β → β) : List (α × β) → List (α × β)
  | [] => [(key, f none)]
  | (a, b) :: rest =>
    match compare key a with
    | .lt => (key, f none) :: (a, b) :: rest
    | .eq => (a, f (some b)) :: rest
    | .gt => (a, b) :: alter key f rest

/-- Take a key out of the map. -/
def erase [DecidableEq α] (key : α) (entries : List (α × β)) : List (α × β) :=
  entries.filter fun entry => entry.1 ≠ key

/-- The altered key is added to the keys. -/
theorem map_fst_alter [Ord α] (key : α) (f : Option β → β) (entries : List (α × β)) :
    (alter key f entries).map Prod.fst = insert key (entries.map Prod.fst) := by
  induction entries with
  | nil => rfl
  | cons entry rest ih =>
    obtain ⟨a, b⟩ := entry
    simp only [alter, insert, List.map_cons]
    split
    · rfl
    · rfl
    · rw [List.map_cons, ih]

theorem strict_map_fst_alter [Ord α] [TransOrd α] [LawfulEqOrd α] (key : α) (f : Option β → β)
    {entries : List (α × β)} (h : Strict (entries.map Prod.fst)) :
    Strict ((alter key f entries).map Prod.fst) := by
  rw [map_fst_alter]
  exact strict_insert key h

/-- In a map with ascending keys, a listed value is the value of its key. -/
theorem lookup_of_mem [Ord α] [LawfulEqOrd α] [DecidableEq α] {entries : List (α × β)}
    (h : Strict (entries.map Prod.fst)) {key : α} {b : β} (hmem : (key, b) ∈ entries) :
    entries.lookup key = some b := by
  obtain ⟨before, rest, rfl⟩ := List.append_of_mem hmem
  refine List.lookup_eq_some_iff.2 ⟨before, rest, rfl, fun entry hentry => ?_⟩
  rw [List.map_append, List.map_cons] at h
  have hlt : compare entry.1 key = .lt :=
    (List.pairwise_append.1 h).2.2 entry.1 (List.mem_map_of_mem hentry) key List.mem_cons_self
  simp only [bne_iff_ne, ne_eq]
  intro heq
  rw [heq, compare_self] at hlt
  cases hlt

/-- In a map with ascending keys, the altered key has what the function makes of its value. -/
theorem lookup_alter_self [Ord α] [TransOrd α] [LawfulEqOrd α] [DecidableEq α] (key : α)
    (f : Option β → β) {entries : List (α × β)} (h : Strict (entries.map Prod.fst)) :
    (alter key f entries).lookup key = some (f (entries.lookup key)) := by
  induction entries with
  | nil => simp [alter]
  | cons entry rest ih =>
    obtain ⟨a, b⟩ := entry
    have hcons := List.pairwise_cons.1 h
    have habsent : ∀ c ∈ rest.map Prod.fst, compare key a = .lt → key ≠ c := by
      intro c hc hlt heq
      have hac : compare a key = .lt := heq ▸ hcons.1 c hc
      rw [OrientedCmp.gt_of_lt hac] at hlt
      cases hlt
    simp only [alter]
    split
    · rename_i hlt
      have hne : (key == a) = false := by
        simp only [beq_eq_false_iff_ne, ne_eq]
        intro heq
        subst heq
        simp at hlt
      have hrest : rest.lookup key = none := by
        refine List.lookup_eq_none_iff.2 fun p hp => ?_
        have := habsent p.1 (List.mem_map_of_mem hp) hlt
        simpa using this
      simp [List.lookup_cons, hne, hrest]
    · rename_i heq
      have hka : key = a := LawfulEqOrd.eq_of_compare heq
      subst hka
      simp
    · rename_i hgt
      have hne : (key == a) = false := by
        simp only [beq_eq_false_iff_ne, ne_eq]
        intro heq
        subst heq
        simp at hgt
      simp only [List.lookup_cons, hne]
      exact ih hcons.2

/-- The other keys keep their values. -/
theorem lookup_alter_of_ne [Ord α] [LawfulEqOrd α] [DecidableEq α] {key other : α}
    (h : other ≠ key) (f : Option β → β) (entries : List (α × β)) :
    (alter key f entries).lookup other = entries.lookup other := by
  induction entries with
  | nil =>
    have hne : (other == key) = false := by simp [h]
    simp [alter, List.lookup_cons, hne]
  | cons entry rest ih =>
    obtain ⟨a, b⟩ := entry
    have hne : (other == key) = false := by simp [h]
    simp only [alter]
    split
    · simp [List.lookup_cons, hne]
    · rename_i hcmp
      have hka : key = a := LawfulEqOrd.eq_of_compare hcmp
      subst hka
      simp [List.lookup_cons, hne]
    · simp only [List.lookup_cons, ih]

@[simp]
theorem lookup_erase_self [DecidableEq α] (key : α) (entries : List (α × β)) :
    (erase key entries).lookup key = none := by
  induction entries with
  | nil => rfl
  | cons entry rest ih =>
    obtain ⟨a, b⟩ := entry
    by_cases h : a = key
    · simpa [erase, h] using ih
    · have hne : (key == a) = false := by simp [Ne.symm h]
      simpa [erase, h, List.lookup_cons, hne] using ih

theorem lookup_erase_of_ne [DecidableEq α] {key other : α} (h : other ≠ key)
    (entries : List (α × β)) : (erase key entries).lookup other = entries.lookup other := by
  induction entries with
  | nil => rfl
  | cons entry rest ih =>
    obtain ⟨a, b⟩ := entry
    by_cases hak : a = key
    · subst hak
      have hne : (other == a) = false := by simp [h]
      simpa [erase, List.lookup_cons, hne] using ih
    · by_cases hoa : other = a
      · subst hoa
        simp [erase, h]
      · have hne : (other == a) = false := by simp [hoa]
        simpa [erase, hak, List.lookup_cons, hne] using ih

end ExistentialRules.Ascending
