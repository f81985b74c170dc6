import ExistentialRules.Rule

/-!
# Places in a rule

Where something stands in a rule: a literal by its side and number, an argument by its literal and
its own number. Places are ordered as the rule is read with the body first.
-/

namespace ExistentialRules

open Std

/-! ## §1 Places -/

/-- The two sides of a rule. -/
inductive Side where
  /-- What must hold. -/
  | body
  /-- What then holds. -/
  | head
deriving DecidableEq

/-- The place of a literal. -/
structure LiteralPlace where
  /-- The side on which the literal stands. -/
  side : Side
  /-- Its number there, counted from zero. -/
  index : Nat
deriving DecidableEq

/-- The text `b2` or `h0`. -/
def LiteralPlace.render (p : LiteralPlace) : String :=
  match p.side with
  | .body => "b" ++ toString p.index
  | .head => "h" ++ toString p.index

/-- The place of an argument. -/
structure ArgumentPlace where
  /-- The literal's place. -/
  literal : LiteralPlace
  /-- The argument's number in the literal, counted from zero. -/
  argument : Nat
deriving DecidableEq

/-- The text `b2.1`. -/
def ArgumentPlace.render (p : ArgumentPlace) : String :=
  p.literal.render ++ "." ++ toString p.argument

/-! ## §2 Reading a rule -/

/-- The arguments of the literals on one side, with their places. -/
def Side.places (side : Side) (ls : List Literal) : List (ArgumentPlace × Term) :=
  ls.zipIdx.flatMap fun (l, index) =>
    l.arguments.zipIdx.map fun (t, argument) => (⟨⟨side, index⟩, argument⟩, t)

namespace Rule

/-- All arguments of a rule with their places, in order. -/
def places (r : Rule) : List (ArgumentPlace × Term) :=
  Side.body.places r.body ++ Side.head.places r.head

/-- The places at which a variable stands, in order. -/
def placesOf (r : Rule) (v : Variable) : List ArgumentPlace :=
  (r.places.filter fun entry => entry.2 = .var v).map Prod.fst

end Rule

/-! ## §3 Orders -/

/-- The body comes first. -/
def Side.rank : Side → Nat
  | .body => 0
  | .head => 1

instance : Ord Side :=
  ⟨compareOn Side.rank⟩

instance : TransOrd Side :=
  inferInstanceAs (TransCmp (compareOn Side.rank))

instance : LawfulEqOrd Side where
  compare_self := by
    intro s
    cases s <;> rfl
  eq_of_compare := by
    intro s t h
    cases s <;> cases t
    · rfl
    · cases h
    · cases h
    · rfl

instance : Ord LiteralPlace :=
  ⟨compareLex (compareOn LiteralPlace.side) (compareOn LiteralPlace.index)⟩

instance : TransOrd LiteralPlace :=
  inferInstanceAs
    (TransCmp (compareLex (compareOn LiteralPlace.side) (compareOn LiteralPlace.index)))

instance : LawfulEqOrd LiteralPlace where
  compare_self := by
    intro p
    exact compareLex_eq_eq.2 ⟨ReflOrd.compare_self, ReflOrd.compare_self⟩
  eq_of_compare := by
    intro p q h
    obtain ⟨hside, hindex⟩ := compareLex_eq_eq.1 h
    cases p
    cases q
    exact congr (congrArg LiteralPlace.mk (LawfulEqOrd.eq_of_compare hside))
      (LawfulEqOrd.eq_of_compare hindex)

instance : Ord ArgumentPlace :=
  ⟨compareLex (compareOn ArgumentPlace.literal) (compareOn ArgumentPlace.argument)⟩

instance : TransOrd ArgumentPlace :=
  inferInstanceAs
    (TransCmp (compareLex (compareOn ArgumentPlace.literal) (compareOn ArgumentPlace.argument)))

instance : LawfulEqOrd ArgumentPlace where
  compare_self := by
    intro p
    exact compareLex_eq_eq.2 ⟨ReflOrd.compare_self, ReflOrd.compare_self⟩
  eq_of_compare := by
    intro p q h
    obtain ⟨hliteral, hargument⟩ := compareLex_eq_eq.1 h
    cases p
    cases q
    exact congr (congrArg ArgumentPlace.mk (LawfulEqOrd.eq_of_compare hliteral))
      (LawfulEqOrd.eq_of_compare hargument)

end ExistentialRules
