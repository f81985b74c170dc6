import ExistentialRules.Text
import ExistentialRules.Term

/-!
# Literals

A literal is a predicate applied to terms. Its signature, predicate and arity together, decides
which literals it can be matched with.
-/

namespace ExistentialRules

open Std

/-! ## §1 Signatures -/

/-- A predicate together with its number of arguments. -/
structure Signature where
  /-- The predicate's name. -/
  predicate : String
  /-- The number of arguments. -/
  arity : Nat
deriving DecidableEq

/-- The text `p/2`. -/
def Signature.render (s : Signature) : String :=
  s.predicate ++ "/" ++ toString s.arity

/-! ## §2 Literals -/

/-- A predicate and its arguments. -/
structure Literal where
  /-- The predicate's name. -/
  predicate : String
  /-- The arguments in order. -/
  arguments : List Term
deriving DecidableEq

/-- A literal was announced with another number of arguments than it has. -/
structure ArityMismatch where
  /-- The predicate's name. -/
  predicate : String
  /-- The number of arguments that was announced. -/
  declared : Nat
  /-- The number of arguments given. -/
  found : Nat
deriving DecidableEq

/-- The wording of the error. -/
def ArityMismatch.message (e : ArityMismatch) : String :=
  "Model error: literal '" ++ e.predicate ++ "' declares arity " ++ toString e.declared
    ++ " but has " ++ toString e.found ++ " arguments"

namespace Literal

/-- The number of arguments. -/
def arity (l : Literal) : Nat :=
  l.arguments.length

/-- A literal whose number of arguments is announced beforehand. -/
def ofArity (predicate : String) (arity : Nat) (arguments : List Term) :
    Except ArityMismatch Literal :=
  if arguments.length = arity then
    .ok ⟨predicate, arguments⟩
  else
    .error ⟨predicate, arity, arguments.length⟩

/-- Predicate and arity. -/
def signature (l : Literal) : Signature :=
  ⟨l.predicate, l.arity⟩

/-- The variables in argument order, each as often as it occurs. -/
def occurringVariables (l : Literal) : List Variable :=
  l.arguments.filterMap Term.toVariable?

/-- Whether no variable occurs. -/
def isGround (l : Literal) : Bool :=
  l.arguments.all Term.isRigid

/-- Apply a function to every argument. -/
def mapTerms (f : Term → Term) (l : Literal) : Literal :=
  { l with arguments := l.arguments.map f }

/-- The text `p(a, ?X)`. -/
def render (l : Literal) : String :=
  l.predicate ++ "(" ++ Text.commas (l.arguments.map Term.render) ++ ")"

/-- The texts of several literals, with commas between them. -/
def renderAll (ls : List Literal) : String :=
  Text.commas (ls.map render)

@[simp]
theorem signature_mapTerms (f : Term → Term) (l : Literal) :
    (l.mapTerms f).signature = l.signature := by
  simp [mapTerms, signature, arity]

/-- Announcing the right number of arguments, and only that, gives the literal. -/
theorem ofArity_eq_ok_iff (predicate : String) (arity : Nat) (arguments : List Term) (l : Literal) :
    ofArity predicate arity arguments = .ok l ↔
      l = ⟨predicate, arguments⟩ ∧ l.arity = arity := by
  unfold ofArity
  split
  · constructor
    · intro h
      cases h
      exact ⟨rfl, by assumption⟩
    · rintro ⟨rfl, -⟩
      rfl
  · constructor
    · intro h
      cases h
    · rintro ⟨rfl, h⟩
      contradiction

end Literal

/-! ## §3 Orders -/

/-- Signatures go by predicate, then by arity. -/
instance : Ord Signature :=
  ⟨compareLex (compareOn Signature.predicate) (compareOn Signature.arity)⟩

instance : TransOrd Signature :=
  inferInstanceAs
    (TransCmp (compareLex (compareOn Signature.predicate) (compareOn Signature.arity)))

instance : LawfulEqOrd Signature where
  compare_self := by
    intro s
    exact compareLex_eq_eq.2 ⟨ReflOrd.compare_self, ReflOrd.compare_self⟩
  eq_of_compare := by
    intro s t h
    obtain ⟨hpredicate, harity⟩ := compareLex_eq_eq.1 h
    cases s
    cases t
    exact congr (congrArg Signature.mk (LawfulEqOrd.eq_of_compare hpredicate))
      (LawfulEqOrd.eq_of_compare harity)

/-- Literals go by signature, then by their arguments from left to right. -/
instance : Ord Literal :=
  ⟨compareLex (compareOn Literal.signature) (compareOn Literal.arguments)⟩

instance : TransOrd Literal :=
  inferInstanceAs
    (TransCmp (compareLex (compareOn Literal.signature) (compareOn Literal.arguments)))

instance : LawfulEqOrd Literal where
  compare_self := by
    intro l
    exact compareLex_eq_eq.2 ⟨ReflOrd.compare_self, ReflOrd.compare_self⟩
  eq_of_compare := by
    intro l m h
    obtain ⟨hsignature, harguments⟩ := compareLex_eq_eq.1 h
    cases l
    cases m
    exact congr
      (congrArg Literal.mk (congrArg Signature.predicate (LawfulEqOrd.eq_of_compare hsignature)))
      (LawfulEqOrd.eq_of_compare harguments)

end ExistentialRules
