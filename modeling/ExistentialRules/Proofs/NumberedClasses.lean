import ExistentialRules.Proofs.MostGeneral

/-!
# Classes under numbers

A unifier lists its classes, and the class of a variable is found by looking through them. The
classes can also be kept in numbered slots, with a record of the number of each variable's class. A
class that goes into another one leaves its slot empty, so that the numbers of the others stay as
they are; all its members are recorded anew. An operation that comes to an empty slot has nothing to
work on and gives no answer.

The records and the slots always agree, also after equations that fail: what is recorded is there,
and what is there is recorded. So no operation ever comes to an empty slot, and the table gives the
same answers and holds the same classes, in the same order, as the unifier.

## Main definitions

* `ClassTable`: classes in numbered slots, with the operations of unifiers;
* `ClassTable.Sound`: the records and the slots agree;
* `ClassTable.Follows`: an operation on a table does what a step of the unifier does;
* `Unifier.unifyEach`, `ClassTable.unifyEach`: equations one after the other, also after failures.

## Main statements

* `ClassTable.follows_bindRigid`, `ClassTable.follows_merge`: the operations on classes;
* `ClassTable.follows_unify`: one equation;
* `ClassTable.exists_unifyEach`: a run of equations;
* `ClassTable.unifyEach_sound`: what holds after every run.
-/

namespace ExistentialRules

/-! ## §1 Tables -/

/-- Classes in numbered slots. -/
structure ClassTable where
  /-- The number recorded for a variable, if the variable was met in an equation. -/
  numberOf : Variable → Option Nat
  /-- The classes by their numbers; nothing where a class has gone into another one. -/
  slots : List (Option VariableClass)

namespace ClassTable

/-- The table of no equations. -/
def empty : ClassTable :=
  ⟨fun _ => none, []⟩

/-- The class with a number, unless its slot is empty. -/
def class? (T : ClassTable) (i : Nat) : Option VariableClass :=
  T.slots[i]?.join

/-- The classes in the order of their numbers. -/
def toUnifier (T : ClassTable) : Unifier :=
  ⟨T.slots.filterMap id⟩

/-- What an operation does: whether the equation can be met, and the table after it. -/
structure Answer where
  /-- Whether the equation can be met together with those before it. -/
  ok : Bool
  /-- The table after the equation. -/
  table : ClassTable

/-- Fill or empty a slot. -/
def put (T : ClassTable) (i : Nat) (c : Option VariableClass) : ClassTable :=
  { T with slots := T.slots.set i c }

/-- Record a number for several variables. -/
def record (T : ClassTable) (vs : List Variable) (i : Nat) : ClassTable :=
  { T with numberOf := fun v => if v ∈ vs then some i else T.numberOf v }

/-- Open a class for a variable in a new slot. -/
def openClass (T : ClassTable) (v : Variable) : ClassTable :=
  { T.record [v] T.slots.length with slots := T.slots ++ [some (.singleton v)] }

/-- The number of the class of a variable, which is opened if the variable has none. -/
def enter (T : ClassTable) (v : Variable) : Nat × ClassTable :=
  match T.numberOf v with
  | some i => (i, T)
  | none => (T.slots.length, T.openClass v)

/-- Bind the class with a number to a rigid term. -/
def bindRigid (T : ClassTable) (i : Nat) (t : Term) : Option Answer := do
  let c ← T.class? i
  match c.rigid with
  | some existing => some ⟨existing = t, T⟩
  | none => some ⟨true, T.put i (some { c with rigid := some t })⟩

/-- The table after `gone`, the class with the number `j`, has gone into `kept`, the class with the
number `i`. -/
def moved (T : ClassTable) (i j : Nat) (kept gone : VariableClass) : ClassTable :=
  ((T.put j none).record gone.members i).put i (some (kept.absorb gone))

/-- Move the class with the second number into the one with the first. The former leaves its slot
before the latter takes in its members. -/
def moveInto (T : ClassTable) (i j : Nat) : Option Answer := do
  let gone ← T.class? j
  let kept ← (T.put j none).class? i
  some ⟨kept.compatible gone, T.moved i j kept gone⟩

/-- Join two classes: the larger one takes in the other, the second one if they are equally
large. -/
def merge (T : ClassTable) (i j : Nat) : Option Answer :=
  if i = j then
    some ⟨true, T⟩
  else do
    let c ← T.class? i
    let d ← T.class? j
    if d.members.length < c.members.length then T.moveInto i j else T.moveInto j i

/-- Make two terms equal. -/
def unifyTerms (T : ClassTable) : Term → Term → Option Answer
  | .var v, .var w =>
    let first := T.enter v
    let second := first.2.enter w
    second.2.merge first.1 second.1
  | .var v, t =>
    let entered := T.enter v
    entered.2.bindRigid entered.1 t
  | t, .var v =>
    let entered := T.enter v
    entered.2.bindRigid entered.1 t
  | s, t => some ⟨s = t, T⟩

/-- Make the terms of several pairs equal, from left to right up to the first failure. -/
def unifyPairs (T : ClassTable) : List (Term × Term) → Option Answer
  | [] => some ⟨true, T⟩
  | (s, t) :: rest => do
    let a ← T.unifyTerms s t
    if a.ok then a.table.unifyPairs rest else some a

/-- Make two literals equal, which only literals of one signature can be. -/
def unifyLiterals (T : ClassTable) (l m : Literal) : Option Answer :=
  if l.signature = m.signature then
    T.unifyPairs (l.arguments.zip m.arguments)
  else
    some ⟨false, T⟩

/-- Make the two sides of an equation equal. -/
def unify (T : ClassTable) : Equation → Option Answer
  | .terms s t => T.unifyTerms s t
  | .literals l m => T.unifyLiterals l m

/-- Take equations one after the other, also after one that fails, and list the answers. -/
def unifyEach (T : ClassTable) : List Equation → Option (List Bool × ClassTable)
  | [] => some ([], T)
  | e :: es => do
    let a ← T.unify e
    let later ← a.table.unifyEach es
    some (a.ok :: later.1, later.2)

end ClassTable

/-- Take equations one after the other, also after one that fails, and list the answers. -/
def Unifier.unifyEach (u : Unifier) : List Equation → List Bool × Unifier
  | [] => ([], u)
  | e :: es =>
    let later := (u.unify e).unifier.unifyEach es
    ((u.unify e).ok :: later.1, later.2)

namespace ClassTable

/-! ## §2 Records and slots -/

/-- What is recorded is in its slot, and what is in a slot is recorded. Classes have members, and
they are bound to rigid terms if to any. -/
structure Sound (T : ClassTable) : Prop where
  live : ∀ v i, T.numberOf v = some i → ∃ c, T.class? i = some c ∧ v ∈ c.members
  recorded : ∀ i c, T.class? i = some c → ∀ v ∈ c.members, T.numberOf v = some i
  nonempty : ∀ i c, T.class? i = some c → c.members ≠ []
  rigid : ∀ i c, T.class? i = some c → ∀ t, c.rigid = some t → t.isRigid = true

variable {T : ClassTable} {i j k : Nat} {c d : VariableClass} {v w : Variable}

theorem class?_eq_some_iff : T.class? i = some c ↔ T.slots[i]? = some (some c) := by
  simp [class?, Option.join_eq_some_iff]

theorem mem_toUnifier : c ∈ T.toUnifier.classes ↔ ∃ i, T.class? i = some c := by
  simp only [toUnifier, List.mem_filterMap, id_eq, exists_eq_right, class?_eq_some_iff]
  exact List.mem_iff_getElem?

theorem Sound.numberOf_eq_some_iff (hT : T.Sound) :
    T.numberOf v = some i ↔ ∃ c, T.class? i = some c ∧ v ∈ c.members := by
  refine ⟨hT.live v i, fun h => ?_⟩
  obtain ⟨c, hi, hv⟩ := h
  exact hT.recorded i c hi v hv

/-- Records and slots agree if each record leads to a class with the variable, and each class to a
record. -/
theorem Sound.of_numberOf_iff
    (hnumber : ∀ v i, T.numberOf v = some i ↔ ∃ c, T.class? i = some c ∧ v ∈ c.members)
    (hvalid : ∀ i c, T.class? i = some c → c.Valid fun _ => True) : T.Sound where
  live := fun v i => (hnumber v i).1
  recorded := fun i c hi v hv => (hnumber v i).2 ⟨c, hi, hv⟩
  nonempty := fun i c hi => (hvalid i c hi).nonempty
  rigid := fun i c hi t ht => ((hvalid i c hi).rigid t ht).1

theorem sound_empty : empty.Sound := by
  apply Sound.of_numberOf_iff
  · simp [empty, class?]
  · simp [empty, class?]

section Sound

variable (hT : T.Sound)

include hT

/-- Classes with a common member have the same number. -/
theorem Sound.number_eq (hi : T.class? i = some c) (hj : T.class? j = some d) (hc : v ∈ c.members)
    (hd : v ∈ d.members) : i = j := by
  have hnumber := hT.recorded i c hi v hc
  rw [hT.recorded j d hj v hd] at hnumber
  exact (Option.some.inj hnumber).symm

/-- No class is in two slots. -/
theorem Sound.class_ne (hi : T.class? i = some c) (hj : T.class? j = some d) (hij : i ≠ j) :
    c ≠ d := by
  intro hcd
  subst hcd
  obtain ⟨v, hv⟩ := List.exists_mem_of_ne_nil _ (hT.nonempty i c hi)
  exact hij (hT.number_eq hi hj hv hv)

theorem Sound.valid (hi : T.class? i = some c) : c.Valid fun _ => True where
  nonempty := hT.nonempty i c hi
  members := fun _ _ => trivial
  rigid := fun t ht => ⟨hT.rigid i c hi t ht, trivial⟩

/-- The classes of a table are those of a well-formed unifier. -/
theorem Sound.wellFormed : T.toUnifier.WellFormed fun _ => True where
  valid := by
    intro c hc
    obtain ⟨i, hi⟩ := mem_toUnifier.1 hc
    exact hT.valid hi
  disjoint := by
    -- Classes in different slots have no member in common, since a variable has one number.
    refine List.pairwise_filterMap.2 (List.pairwise_iff_getElem.2 ?_)
    intro i j hi hj hij c hc d hd v hvc hvd
    have hci : T.class? i = some c := class?_eq_some_iff.2 (List.getElem?_eq_some_iff.2 ⟨hi, hc⟩)
    have hdj : T.class? j = some d := class?_eq_some_iff.2 (List.getElem?_eq_some_iff.2 ⟨hj, hd⟩)
    exact Nat.ne_of_lt hij (hT.number_eq hci hdj hvc hvd)

/-- The recorded number leads to the class that is found by looking through all classes. -/
theorem Sound.class?_toUnifier (v : Variable) :
    (T.numberOf v).bind T.class? = T.toUnifier.class? v := by
  apply Option.ext
  intro c
  rw [Option.bind_eq_some_iff, hT.wellFormed.class?_eq_some_iff, mem_toUnifier]
  -- Both ways lead to the only class that has the variable.
  refine ⟨fun h => ?_, fun h => ?_⟩
  · obtain ⟨i, hnumber, hi⟩ := h
    obtain ⟨d, hd, hv⟩ := hT.live v i hnumber
    rw [hi] at hd
    cases hd
    exact ⟨⟨i, hi⟩, hv⟩
  · obtain ⟨⟨i, hi⟩, hv⟩ := h
    exact ⟨i, hT.recorded i c hi v hv, hi⟩

end Sound

/-! ### Filling and emptying slots -/

theorem class?_put (hi : T.class? i = some c) (x : Option VariableClass) (k : Nat) :
    (T.put i x).class? k = if k = i then x else T.class? k := by
  obtain ⟨hlt, -⟩ := List.getElem?_eq_some_iff.1 (class?_eq_some_iff.1 hi)
  by_cases hki : k = i
  · simp [put, class?, hki, hlt]
  · simp [put, class?, hki, List.getElem?_set_ne (Ne.symm hki)]

/-- To change the class of one slot is to change the classes of the unifier by a function that
leaves the classes of the other slots alone. -/
theorem toUnifier_put (hi : T.class? i = some c) {f : VariableClass → Option VariableClass}
    (hothers : ∀ k d, k ≠ i → T.class? k = some d → f d = some d) :
    (T.put i (f c)).toUnifier = ⟨T.toUnifier.classes.filterMap f⟩ := by
  -- To set the one slot is to apply the function in every slot.
  have hslots : T.slots.set i (f c) = T.slots.map fun x => x.bind f := by
    apply List.ext_getElem?
    intro k
    rw [List.getElem?_map]
    by_cases hki : k = i
    · subst hki
      obtain ⟨hlt, hslot⟩ := List.getElem?_eq_some_iff.1 (class?_eq_some_iff.1 hi)
      simp [hlt, hslot]
    · rw [List.getElem?_set_ne (Ne.symm hki)]
      cases hslot : T.slots[k]? with
      | none => rfl
      | some x =>
        cases x with
        | none => rfl
        | some d => simp [hothers k d hki (class?_eq_some_iff.2 hslot)]
  simp only [toUnifier, put, hslots, List.filterMap_map, List.filterMap_filterMap]
  rfl

/-! ## §3 Classes of variables -/

/-- A class is opened behind the last slot. -/
theorem class?_openClass (T : ClassTable) (v : Variable) (k : Nat) :
    (T.openClass v).class? k = if k = T.slots.length then some (.singleton v) else T.class? k := by
  show (T.slots ++ [some (VariableClass.singleton v)])[k]?.join = _
  by_cases hk : k = T.slots.length
  · simp [hk]
  · rw [if_neg hk, List.getElem?_append]
    split
    · rfl
    -- Behind the new slot there is nothing in either table.
    · rename_i hge
      have hbehind : [some (VariableClass.singleton v)].length ≤ k - T.slots.length := by
        simp only [List.length_singleton]
        omega
      rw [List.getElem?_eq_none hbehind, class?, List.getElem?_eq_none (Nat.le_of_not_lt hge)]

theorem numberOf_openClass (T : ClassTable) (v w : Variable) :
    (T.openClass v).numberOf w = if w = v then some T.slots.length else T.numberOf w := by
  simp [openClass, record]

/-- Behind the last slot there is no class. -/
theorem class?_length (T : ClassTable) : T.class? T.slots.length = none := by
  simp [class?]

section Enter

variable (hT : T.Sound)

include hT

/-- A new class is recorded for its one member, which had no record before. -/
theorem sound_openClass (hv : T.numberOf v = none) : (T.openClass v).Sound := by
  apply Sound.of_numberOf_iff
  · intro w k
    rw [numberOf_openClass, class?_openClass]
    by_cases hk : k = T.slots.length
    · -- The new number is recorded for the new variable only.
      have hnew : T.numberOf w ≠ some T.slots.length := by
        intro hw
        obtain ⟨c, hc, -⟩ := hT.live w _ hw
        rw [class?_length] at hc
        cases hc
      by_cases hwv : w = v
      · simp [hk, hwv, VariableClass.singleton]
      · simp [hk, hwv, hnew, VariableClass.singleton]
    · rw [if_neg hk, ← hT.numberOf_eq_some_iff]
      by_cases hwv : w = v
      · simp [hwv, hv, Ne.symm hk]
      · simp [hwv]
  · intro k c hc
    rw [class?_openClass] at hc
    split at hc
    · cases hc
      exact VariableClass.valid_singleton trivial
    · exact hT.valid hc

/-- To open a class is to register the variable. -/
theorem toUnifier_openClass (hv : T.numberOf v = none) :
    (T.openClass v).toUnifier = T.toUnifier.register v := by
  have hclass : T.toUnifier.class? v = none := by
    rw [← hT.class?_toUnifier, hv, Option.bind_none]
  rw [Unifier.register, hclass]
  simp [toUnifier, openClass]

theorem sound_enter (v : Variable) : (T.enter v).2.Sound := by
  unfold enter
  cases hv : T.numberOf v with
  | some i => exact hT
  | none => exact sound_openClass hT hv

/-- To enter a variable is to register it, whether or not it has a class already. -/
theorem toUnifier_enter (v : Variable) : (T.enter v).2.toUnifier = T.toUnifier.register v := by
  unfold enter
  cases hv : T.numberOf v with
  | some i =>
    obtain ⟨c, hc, -⟩ := hT.live v i hv
    have hclass : T.toUnifier.class? v = some c := by
      rw [← hT.class?_toUnifier, hv, Option.bind_some, hc]
    rw [Unifier.register, hclass]
  | none => exact toUnifier_openClass hT hv

omit hT in
/-- The variable is recorded with the number of its class. -/
theorem numberOf_enter_self (T : ClassTable) (v : Variable) :
    (T.enter v).2.numberOf v = some (T.enter v).1 := by
  unfold enter
  cases hv : T.numberOf v with
  | some i => exact hv
  | none => simp [numberOf_openClass]

omit hT in
/-- What was recorded before stays. -/
theorem numberOf_enter_of_eq_some (w : Variable) (hv : T.numberOf v = some i) :
    (T.enter w).2.numberOf v = some i := by
  unfold enter
  cases hw : T.numberOf w with
  | some j => exact hv
  | none =>
    have hvw : v ≠ w := by
      intro heq
      rw [heq, hw] at hv
      cases hv
    rw [numberOf_openClass, if_neg hvw, hv]

/-- The number of a variable leads to its class. -/
theorem Sound.exists_classOf (hv : T.numberOf v = some i) :
    ∃ c, T.class? i = some c ∧ T.toUnifier.classOf v = c := by
  obtain ⟨c, hc, -⟩ := hT.live v i hv
  refine ⟨c, hc, ?_⟩
  rw [Unifier.classOf, ← hT.class?_toUnifier, hv]
  simp [hc]

end Enter

/-! ## §4 The operations -/

/-- The operation gives an answer. It is the answer of the step, and it leaves a sound table with
the classes of the step. -/
def Follows (r : Option Answer) (s : Unifier.Step) : Prop :=
  ∃ a, r = some a ∧ a.ok = s.ok ∧ a.table.Sound ∧ a.table.toUnifier = s.unifier

theorem follows_some {a : Answer} {s : Unifier.Step} (hok : a.ok = s.ok) (hsound : a.table.Sound)
    (hunifier : a.table.toUnifier = s.unifier) : Follows (some a) s :=
  ⟨a, rfl, hok, hsound, hunifier⟩

section Operations

variable (hT : T.Sound)

include hT

/-! ### Binding -/

/-- Binding a class to a rigid term keeps records and slots in agreement. -/
theorem sound_bound (hi : T.class? i = some c) {t : Term} (ht : t.isRigid = true) :
    (T.put i (some { c with rigid := some t })).Sound := by
  apply Sound.of_numberOf_iff
  · intro v k
    -- The members of the class stay, so the records are still right.
    show T.numberOf v = some k ↔ _
    rw [hT.numberOf_eq_some_iff, class?_put hi]
    by_cases hk : k = i
    · simp [hk, hi]
    · simp [hk]
  · intro k d hd
    rw [class?_put hi] at hd
    split at hd
    · cases hd
      refine ⟨hT.nonempty i c hi, fun _ _ => trivial, fun s hs => ?_⟩
      cases hs
      exact ⟨ht, trivial⟩
    · exact hT.valid hd

/-- In the list of classes, the bound class takes the place of the class. -/
theorem toUnifier_bound (hi : T.class? i = some c) (t : Term) :
    (T.put i (some { c with rigid := some t })).toUnifier =
      ⟨T.toUnifier.classes.map fun d => if d = c then { c with rigid := some t } else d⟩ := by
  have hput := toUnifier_put hi
    (f := fun d => some (if d = c then { c with rigid := some t } else d)) ?_
  · simpa [List.filterMap_eq_map'] using hput
  -- The function tells the class by itself, which is enough since no class is in two slots.
  · intro k d hk hd
    simp [hT.class_ne hd hi hk]

/-- A class that is bound already stays as it is, and the answer is whether the terms are the
same. -/
theorem follows_bindRigid (hi : T.class? i = some c) {t : Term} (ht : t.isRigid = true) :
    Follows (T.bindRigid i t) (T.toUnifier.bindRigid c t) := by
  unfold bindRigid Unifier.bindRigid
  rw [hi]
  cases hrigid : c.rigid with
  | some existing => simpa [hrigid] using follows_some rfl hT rfl
  | none =>
    simp only [Option.bind_eq_bind, Option.bind_some, hrigid]
    exact follows_some rfl (sound_bound hT hi ht) (toUnifier_bound hT hi t)

/-! ### Merging -/

omit hT in
/-- The first class is still there when the slot of the second one is emptied. -/
theorem class?_emptied (hi : T.class? i = some c) (hj : T.class? j = some d) (hij : i ≠ j) :
    (T.put j none).class? i = some c := by
  rw [class?_put hj, if_neg hij, hi]

omit hT in
/-- After a move, one slot has both classes and the other one is empty. -/
theorem class?_moved (hi : T.class? i = some c) (hj : T.class? j = some d) (hij : i ≠ j) (k : Nat) :
    (T.moved i j c d).class? k =
      if k = i then some (c.absorb d) else if k = j then none else T.class? k := by
  have hkept : ((T.put j none).record d.members i).class? i = some c := class?_emptied hi hj hij
  rw [moved, class?_put hkept]
  congr 1
  exact class?_put hj none k

/-- The members of the class that has gone are recorded with the other number, and the rest stays.
-/
theorem sound_moved (hi : T.class? i = some c) (hj : T.class? j = some d) (hij : i ≠ j) :
    (T.moved i j c d).Sound := by
  apply Sound.of_numberOf_iff
  · intro v k
    rw [class?_moved hi hj hij]
    show (if v ∈ d.members then some i else T.numberOf v) = some k ↔ _
    -- The members of the class that has gone had the number `j`.
    have hgone : v ∈ d.members ↔ T.numberOf v = some j := by
      simp [hT.numberOf_eq_some_iff, hj]
    -- The three cases are the number that takes the members, the one that loses them, and the
    -- others.
    by_cases hki : k = i
    · have hkept : v ∈ c.members ↔ T.numberOf v = some i := by
        simp [hT.numberOf_eq_some_iff, hi]
      by_cases hv : v ∈ d.members
      · simp [hki, hv, VariableClass.mem_members_absorb]
      · simp [hki, hv, VariableClass.mem_members_absorb, hkept]
    · by_cases hkj : k = j
      · by_cases hv : v ∈ d.members
        · simp [hkj, hv, hij, Ne.symm hij]
        · simp [hkj, hv, ← hgone, Ne.symm hij]
      · rw [if_neg hki, if_neg hkj, ← hT.numberOf_eq_some_iff]
        by_cases hv : v ∈ d.members
        · simp [hv, hgone.1 hv, Ne.symm hki, Ne.symm hkj]
        · simp [hv]
  · intro k e he
    rw [class?_moved hi hj hij] at he
    split at he
    · cases he
      exact VariableClass.valid_absorb (hT.valid hi) (hT.valid hj)
    · split at he
      · cases he
      · exact hT.valid he

/-- To move a class into another one is to absorb it. -/
theorem toUnifier_moved (hi : T.class? i = some c) (hj : T.class? j = some d) (hij : i ≠ j) :
    (T.moved i j c d).toUnifier = T.toUnifier.absorb c d := by
  -- First one slot is emptied, then the class of the other one is enlarged.
  have hemptied : (T.put j none).toUnifier =
      ⟨T.toUnifier.classes.filterMap fun e => if e = d then none else some e⟩ := by
    have hput := toUnifier_put hj (f := fun e => if e = d then none else some e)
      fun k e hk he => if_neg (hT.class_ne he hj hk)
    rwa [if_pos rfl] at hput
  have henlarged : (T.moved i j c d).toUnifier =
      ⟨(T.put j none).toUnifier.classes.filterMap fun e =>
        if e = c then some (c.absorb d) else some e⟩ := by
    have hput := toUnifier_put (class?_emptied hi hj hij)
      (f := fun e => if e = c then some (c.absorb d) else some e) fun k e hk he => ?_
    · rwa [if_pos rfl] at hput
    · rw [class?_put hj] at he
      split at he
      · cases he
      · exact if_neg (hT.class_ne he hi hk)
  rw [henlarged, hemptied, Unifier.absorb, List.filterMap_filterMap]
  congr 2
  funext e
  by_cases hed : e = d
  · simp [hed]
  · simp [hed]

/-- A move gives its answer from the two classes as they were before it. -/
theorem follows_moveInto (hi : T.class? i = some c) (hj : T.class? j = some d) (hij : i ≠ j) :
    Follows (T.moveInto i j) ⟨c.compatible d, T.toUnifier.absorb c d⟩ := by
  unfold moveInto
  simp only [Option.bind_eq_bind, hj, Option.bind_some, class?_emptied hi hj hij]
  exact follows_some rfl (sound_moved hT hi hj hij) (toUnifier_moved hT hi hj hij)

/-- Whichever class is kept, both slots are there. -/
theorem follows_merge (hi : T.class? i = some c) (hj : T.class? j = some d) :
    Follows (T.merge i j) (T.toUnifier.merge c d) := by
  unfold merge Unifier.merge
  by_cases hij : i = j
  · subst hij
    rw [hi] at hj
    cases hj
    simpa using follows_some rfl hT rfl
  -- Different numbers have different classes, so both sides take the same branch.
  · have hcd : c ≠ d := hT.class_ne hi hj hij
    simp only [if_neg hij, if_neg hcd, hi, hj, Option.bind_eq_bind, Option.bind_some]
    split
    · exact follows_moveInto hT hi hj hij
    · rw [VariableClass.compatible_comm]
      exact follows_moveInto hT hj hi (Ne.symm hij)

/-! ## §5 Equations -/

/-- An equation of a variable and a rigid term. -/
theorem follows_unifyVariable (v : Variable) {t : Term} (ht : t.isRigid = true) :
    Follows ((T.enter v).2.bindRigid (T.enter v).1 t)
      ((T.toUnifier.register v).bindRigid ((T.toUnifier.register v).classOf v) t) := by
  have hsound := sound_enter hT v
  obtain ⟨c, hc, hclass⟩ := hsound.exists_classOf (numberOf_enter_self T v)
  rw [← toUnifier_enter hT, hclass]
  exact follows_bindRigid hsound hc ht

/-- An equation of two variables. The second one may open a slot, but that of the first stays. -/
theorem follows_unifyVariables (v w : Variable) :
    Follows (T.unifyTerms (.var v) (.var w)) (T.toUnifier.unifyTerms (.var v) (.var w)) := by
  have hfirst := sound_enter hT v
  have hsecond := sound_enter hfirst w
  -- Both numbers are looked up in the table after both variables were entered.
  obtain ⟨c, hc, hclassv⟩ :=
    hsecond.exists_classOf (numberOf_enter_of_eq_some w (numberOf_enter_self T v))
  obtain ⟨d, hd, hclassw⟩ := hsecond.exists_classOf (numberOf_enter_self (T.enter v).2 w)
  show Follows (((T.enter v).2.enter w).2.merge (T.enter v).1 ((T.enter v).2.enter w).1)
    (((T.toUnifier.register v).register w).merge
      (((T.toUnifier.register v).register w).classOf v)
      (((T.toUnifier.register v).register w).classOf w))
  rw [← toUnifier_enter hT, ← toUnifier_enter hfirst, hclassv, hclassw]
  exact follows_merge hsecond hc hd

/-- One equation of terms, by what stands on its sides. -/
theorem follows_unifyTerms (s t : Term) :
    Follows (T.unifyTerms s t) (T.toUnifier.unifyTerms s t) := by
  cases s with
  | var v =>
    cases t with
    | var w => exact follows_unifyVariables hT v w
    | constant name => exact follows_unifyVariable hT v rfl
    | null label => exact follows_unifyVariable hT v rfl
  | constant name =>
    cases t with
    | var w => exact follows_unifyVariable hT w rfl
    | constant name' => exact follows_some rfl hT rfl
    | null label => exact follows_some rfl hT rfl
  | null label =>
    cases t with
    | var w => exact follows_unifyVariable hT w rfl
    | constant name => exact follows_some rfl hT rfl
    | null label' => exact follows_some rfl hT rfl

/-- Several equations of terms, up to the first failure. -/
theorem follows_unifyPairs (pairs : List (Term × Term)) :
    Follows (T.unifyPairs pairs) (T.toUnifier.unifyPairs pairs) := by
  -- By induction on the pairs, for every table, since each equation leaves another one.
  induction pairs generalizing T with
  | nil => exact follows_some rfl hT rfl
  | cons pair rest ih =>
    obtain ⟨s, t⟩ := pair
    obtain ⟨a, ha, hok, hsound, hunifier⟩ := follows_unifyTerms hT s t
    rw [unifyPairs, Unifier.unifyPairs, ha, ← hok, ← hunifier]
    simp only [Option.bind_eq_bind, Option.bind_some]
    -- A failure ends the run with the table that it leaves.
    cases hfirst : a.ok with
    | true => exact ih hsound
    | false => exact ⟨a, rfl, hok, hsound, hunifier⟩

/-- One equation, of terms or of literals. -/
theorem follows_unify (e : Equation) : Follows (T.unify e) (T.toUnifier.unify e) := by
  cases e with
  | terms s t => exact follows_unifyTerms hT s t
  | literals l m =>
    show Follows (T.unifyLiterals l m) (T.toUnifier.unifyLiterals l m)
    unfold unifyLiterals Unifier.unifyLiterals
    split
    · exact follows_unifyPairs hT _
    · exact follows_some rfl hT rfl

/-- A run of equations gives the answers and the classes of the unifier. -/
theorem exists_unifyEach (es : List Equation) :
    ∃ T', T.unifyEach es = some ((T.toUnifier.unifyEach es).1, T') ∧ T'.Sound ∧
      T'.toUnifier = (T.toUnifier.unifyEach es).2 := by
  -- By induction on the equations; unlike within one equation, a failure does not end the run.
  induction es generalizing T with
  | nil => exact ⟨T, rfl, hT, rfl⟩
  | cons e es ih =>
    obtain ⟨a, ha, hok, hsound, hunifier⟩ := follows_unify hT e
    obtain ⟨T', hrun, hsound', hunifier'⟩ := ih hsound
    refine ⟨T', ?_, hsound', ?_⟩
    · simp [unifyEach, Unifier.unifyEach, ha, hrun, hok, hunifier]
    · rw [hunifier', hunifier]
      rfl

end Operations

/-- After every run of equations, whatever the answers: the class found for a variable is the only
one that has it as a member; classes have members, and no two have one in common; and they are bound
to rigid terms if to any. The table of numbered slots has never come to an empty slot. It has given
the same answers and holds the same classes; what it has recorded is in its slots, and what is in
its slots is recorded. -/
theorem unifyEach_sound (es : List Equation) :
    let u := (Unifier.empty.unifyEach es).2
    (∀ v c, u.class? v = some c ↔ c ∈ u.classes ∧ v ∈ c.members) ∧
    u.classes.Pairwise VariableClass.Disjoint ∧
    (∀ c ∈ u.classes, c.members ≠ [] ∧ ∀ t, c.rigid = some t → t.isRigid = true) ∧
    ∃ T, ClassTable.empty.unifyEach es = some ((Unifier.empty.unifyEach es).1, T) ∧ T.Sound ∧
      T.toUnifier = u ∧ ∀ v, (T.numberOf v).bind T.class? = u.class? v := by
  -- All is read off the table, which holds the classes of the unifier.
  obtain ⟨T, hrun, hT, hunifier⟩ := exists_unifyEach sound_empty es
  have hempty : ClassTable.empty.toUnifier = Unifier.empty := rfl
  rw [hempty] at hrun hunifier
  rw [← hunifier]
  refine ⟨fun v c => hT.wellFormed.class?_eq_some_iff, hT.wellFormed.disjoint, fun c hc => ?_,
    T, hrun, hT, rfl, hT.class?_toUnifier⟩
  have hvalid := hT.wellFormed.valid c hc
  exact ⟨hvalid.nonempty, fun t ht => (hvalid.rigid t ht).1⟩

/-- Two classes that clash are one afterwards, and the run goes on from there. -/
example :
    let x : Variable := ⟨"X", .universal⟩
    let y : Variable := ⟨"Y", .universal⟩
    let z : Variable := ⟨"Z", .existential⟩
    let run := empty.unifyEach [.terms (.var x) (.constant "a"), .terms (.constant "b") (.var y),
      .terms (.var x) (.var y), .terms (.var z) (.var x)]
    run.map (fun r => (r.1, r.2.slots, r.2.numberOf x)) =
      some ([true, true, false, true], [none, some ⟨[x, y, z], some (.constant "b")⟩, none],
        some 1) := by
  decide +kernel

end ClassTable

end ExistentialRules
