import ExistentialRules.Substitution

/-!
# Unifiers

Without function symbols a most general unifier is a partition of variables into classes, each bound
to at most one rigid term. Two different rigid terms in one class are a clash.

A unifier grows equation by equation. An equation that fails may leave the unifier larger than it
was: its variables are then registered, and the members of two clashing classes are together.
-/

namespace ExistentialRules

/-! ## §1 Classes -/

/-- Variables that are equal to each other, and the rigid term that they are equal to, if any. -/
structure VariableClass where
  /-- The set of the members. -/
  members : List Variable
  /-- The constant or null that the class is bound to. -/
  rigid : Option Term
deriving DecidableEq

namespace VariableClass

/-- The class of a variable about which nothing is known. -/
def singleton (v : Variable) : VariableClass :=
  ⟨[v], none⟩

/-- Whether two classes can be one: they are not bound to different terms. -/
def compatible (c d : VariableClass) : Bool :=
  match c.rigid, d.rigid with
  | some s, some t => s = t
  | _, _ => true

/-- Take in the members of another class; a term already bound stays. -/
def absorb (kept gone : VariableClass) : VariableClass where
  members := Ascending.union gone.members kept.members
  rigid := kept.rigid.or gone.rigid

/-- Whether `v` goes before `w`: by rank, then in the order of variables. -/
def precedes (rank : Variable → Nat) (v w : Variable) : Bool :=
  rank v < rank w || (rank v = rank w && compare v w = .lt)

/-- The member that goes before all others. -/
def leader? (rank : Variable → Nat) (c : VariableClass) : Option Variable :=
  c.members.foldl
    (fun best v =>
      match best with
      | none => some v
      | some w => if precedes rank v w then some v else some w)
    none

/-- The term that stands for the class: the rigid term, or else the leading member. -/
def representative? (rank : Variable → Nat) (c : VariableClass) : Option Term :=
  c.rigid.or ((c.leader? rank).map .var)

/-- The text `?X = ?Y = a`. -/
def render (c : VariableClass) : String :=
  String.intercalate " = " (c.members.map Variable.render ++ c.rigid.toList.map Term.render)

end VariableClass

/-! ## §2 Unifiers -/

/-- A partition of variables, the classes in the order in which they were opened. -/
structure Unifier where
  /-- The classes. -/
  classes : List VariableClass
deriving DecidableEq

namespace Unifier

/-- The unifier of no equations. -/
def empty : Unifier :=
  ⟨[]⟩

/-- The class of a variable, if the variable was met in an equation. -/
def class? (u : Unifier) (v : Variable) : Option VariableClass :=
  u.classes.find? fun c => c.members.contains v

/-- The class of a variable, or the class that it would open. -/
def classOf (u : Unifier) (v : Variable) : VariableClass :=
  (u.class? v).getD (.singleton v)

/-- Open a class for a variable that has none. -/
def register (u : Unifier) (v : Variable) : Unifier :=
  match u.class? v with
  | some _ => u
  | none => ⟨u.classes ++ [.singleton v]⟩

/-- What one equation does: whether it can be met, and the unifier after it. -/
structure Step where
  /-- Whether the equation can be met together with those before it. -/
  ok : Bool
  /-- The unifier after the equation. -/
  unifier : Unifier
deriving DecidableEq

/-- Bind a class to a rigid term; this fails if it is bound to another one. -/
def bindRigid (u : Unifier) (c : VariableClass) (t : Term) : Step :=
  match c.rigid with
  | some existing => ⟨existing = t, u⟩
  | none => ⟨true, ⟨u.classes.map fun d => if d = c then { c with rigid := some t } else d⟩⟩

/-- Put one class into another, which keeps its place. -/
def absorb (u : Unifier) (kept gone : VariableClass) : Unifier :=
  ⟨u.classes.filterMap fun c =>
    if c = gone then none else if c = kept then some (kept.absorb gone) else some c⟩

/-- Join two classes: the larger one takes in the other, the second one if they are equally
large. -/
def merge (u : Unifier) (c d : VariableClass) : Step :=
  if c = d then
    ⟨true, u⟩
  else if d.members.length < c.members.length then
    ⟨c.compatible d, u.absorb c d⟩
  else
    ⟨c.compatible d, u.absorb d c⟩

/-- Make two terms equal. -/
def unifyTerms (u : Unifier) : Term → Term → Step
  | .var v, .var w =>
    let u' := (u.register v).register w
    u'.merge (u'.classOf v) (u'.classOf w)
  | .var v, t =>
    let u' := u.register v
    u'.bindRigid (u'.classOf v) t
  | t, .var v =>
    let u' := u.register v
    u'.bindRigid (u'.classOf v) t
  | s, t => ⟨s = t, u⟩

/-- Make the terms of several pairs equal, from left to right up to the first failure. -/
def unifyPairs (u : Unifier) : List (Term × Term) → Step
  | [] => ⟨true, u⟩
  | (s, t) :: rest =>
    let step := u.unifyTerms s t
    if step.ok then step.unifier.unifyPairs rest else step

/-- Make two literals equal, which only literals of one signature can be. -/
def unifyLiterals (u : Unifier) (l m : Literal) : Step :=
  if l.signature = m.signature then
    u.unifyPairs (l.arguments.zip m.arguments)
  else
    ⟨false, u⟩

/-- The substitution that sends every member to what stands for its class. -/
def substitution (u : Unifier) (rank : Variable → Nat) : Substitution :=
  u.classes.foldl
    (fun θ c =>
      match c.representative? rank with
      | some t => c.members.foldl (fun η v => η.bind v t) θ
      | none => θ)
    .empty

/-- The text `{?X = ?Y; ?Z = a}`, the texts of the classes in ascending order. -/
def render (u : Unifier) : String :=
  Text.braced (String.intercalate "; " (Text.sorted (u.classes.map VariableClass.render)))

end Unifier

end ExistentialRules
