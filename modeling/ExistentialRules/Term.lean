/-!
# Terms

Terms of function-free logic: constants, quantified variables and labelled nulls.

The quantifier belongs to the variable, so that `?X` and `!X` are two variables. Terms are ordered
with constants first, then variables, then nulls; variables go by name and then by quantifier.
-/

namespace ExistentialRules

open Std

/-! ## §1 Variables -/

/-- How a variable of a rule is quantified. -/
inductive Quantifier where
  /-- For all: the variable ranges over whatever the body matches. -/
  | universal
  /-- There is: the variable stands for a term that a rule application introduces. -/
  | existential
deriving DecidableEq

/-- A variable with its quantifier. -/
structure Variable where
  /-- The name, any text. -/
  name : String
  /-- The quantifier. -/
  quantifier : Quantifier
deriving DecidableEq

namespace Variable

/-- Whether the variable is universally quantified. -/
def isUniversal (v : Variable) : Bool :=
  v.quantifier = .universal

/-- Whether the variable is existentially quantified. -/
def isExistential (v : Variable) : Bool :=
  v.quantifier = .existential

/-- The variable whose name is longer by a suffix. -/
def withSuffix (suffix : String) (v : Variable) : Variable :=
  { v with name := v.name ++ suffix }

/-- The text `?X` for a universal variable, `!X` for an existential one. -/
def render (v : Variable) : String :=
  match v.quantifier with
  | .universal => "?" ++ v.name
  | .existential => "!" ++ v.name

end Variable

/-! ## §2 Terms -/

/-- A term without function symbols. -/
inductive Term where
  /-- A constant, known by its name. -/
  | constant (name : String)
  /-- A variable. -/
  | var (v : Variable)
  /-- A labelled null: an unnamed individual. -/
  | null (label : String)
deriving DecidableEq

namespace Term

/-- The universal variable of a name. -/
def universal (name : String) : Term :=
  .var ⟨name, .universal⟩

/-- The existential variable of a name. -/
def existential (name : String) : Term :=
  .var ⟨name, .existential⟩

/-- The variable that the term is, if it is one. -/
def toVariable? : Term → Option Variable
  | .var v => some v
  | _ => none

/-- A rigid term, a constant or a null, is equal to itself only, whatever is substituted. -/
def isRigid (t : Term) : Bool :=
  t.toVariable?.isNone

/-- Replace a variable; rigid terms stay. -/
def mapVariable (f : Variable → Term) : Term → Term
  | .var v => f v
  | t => t

/-- The name of a constant as it is, a variable with its mark, a null as `_:n`. -/
def render : Term → String
  | .constant name => name
  | .var v => v.render
  | .null label => "_:" ++ label

end Term

/-! ## §3 Orders -/

/-- Universal quantifiers come first. -/
def Quantifier.rank : Quantifier → Nat
  | .universal => 0
  | .existential => 1

instance : Ord Quantifier :=
  ⟨compareOn Quantifier.rank⟩

instance : TransOrd Quantifier :=
  inferInstanceAs (TransCmp (compareOn Quantifier.rank))

instance : LawfulEqOrd Quantifier where
  compare_self := by
    intro q
    cases q <;> rfl
  eq_of_compare := by
    intro p q h
    cases p <;> cases q
    · rfl
    · cases h
    · cases h
    · rfl

/-- Variables go by name, then by quantifier. -/
instance : Ord Variable :=
  ⟨compareLex (compareOn Variable.name) (compareOn Variable.quantifier)⟩

instance : TransOrd Variable :=
  inferInstanceAs (TransCmp (compareLex (compareOn Variable.name) (compareOn Variable.quantifier)))

instance : LawfulEqOrd Variable where
  compare_self := by
    intro v
    exact compareLex_eq_eq.2 ⟨ReflOrd.compare_self, ReflOrd.compare_self⟩
  eq_of_compare := by
    intro v w h
    obtain ⟨hname, hquantifier⟩ := compareLex_eq_eq.1 h
    cases v
    cases w
    exact congr (congrArg Variable.mk (LawfulEqOrd.eq_of_compare hname))
      (LawfulEqOrd.eq_of_compare hquantifier)

/-- Constants come first, then variables, then nulls. -/
def Term.rank : Term → Nat
  | .constant _ => 0
  | .var _ => 1
  | .null _ => 2

/-- What orders terms of one rank: the variable itself, or the name. -/
def Term.label : Term → Variable
  | .constant name => ⟨name, .universal⟩
  | .var v => v
  | .null label => ⟨label, .universal⟩

instance : Ord Term :=
  ⟨compareLex (compareOn Term.rank) (compareOn Term.label)⟩

instance : TransOrd Term :=
  inferInstanceAs (TransCmp (compareLex (compareOn Term.rank) (compareOn Term.label)))

/-- Rank and label together determine a term. -/
theorem Term.eq_of_rank_label {s t : Term} (hrank : s.rank = t.rank) (hlabel : s.label = t.label) :
    s = t := by
  cases s <;> cases t <;> simp_all [Term.rank, Term.label]

instance : LawfulEqOrd Term where
  compare_self := by
    intro t
    exact compareLex_eq_eq.2 ⟨ReflOrd.compare_self, ReflOrd.compare_self⟩
  eq_of_compare := by
    intro s t h
    obtain ⟨hrank, hlabel⟩ := compareLex_eq_eq.1 h
    exact Term.eq_of_rank_label (LawfulEqOrd.eq_of_compare hrank)
      (LawfulEqOrd.eq_of_compare hlabel)

end ExistentialRules
