import ExistentialRules.Rule

/-!
# Instances

An instance is a finite set of literals. Variables inside an instance are frozen: they stand for
themselves, like constants.

The literals are kept twice. As a set in ascending order they decide membership and equality; by
signature and in the order of insertion they are what a search tries, one after the other.
-/

namespace ExistentialRules

/-- A finite set of literals with an index by signature. -/
structure Instance where
  /-- The set. -/
  literals : List Literal
  /-- For every signature that occurs, its literals in the order of their insertion. -/
  buckets : List (Signature × List Literal)
deriving DecidableEq

namespace Instance

/-! ## §1 Reading -/

/-- The instance without literals. -/
def empty : Instance :=
  ⟨[], []⟩

/-- Whether a literal belongs to the instance. -/
def contains (I : Instance) (l : Literal) : Bool :=
  I.literals.contains l

/-- The number of literals. -/
def size (I : Instance) : Nat :=
  I.literals.length

/-- Whether there are no literals. -/
def isEmpty (I : Instance) : Bool :=
  I.literals.isEmpty

/-- The literals of a signature in the order of their insertion. -/
def candidates (I : Instance) (s : Signature) : List Literal :=
  (I.buckets.lookup s).getD []

/-- Whether some literal has the signature. -/
def hasSignature (I : Instance) (s : Signature) : Bool :=
  (I.buckets.lookup s).isSome

/-- Whether two instances have the same literals, in whatever order they were inserted. -/
def sameLiterals (I J : Instance) : Bool :=
  I.literals = J.literals

/-- The text `{p(a), q(b)}`, the texts of the literals in ascending order. -/
def render (I : Instance) : String :=
  Text.braced (Text.commas (Text.sorted (I.literals.map Literal.render)))

/-! ## §2 Changing -/

/-- Insert a literal and say whether it is new; a literal already present keeps its place. -/
def insert (I : Instance) (l : Literal) : Bool × Instance :=
  if I.contains l then
    (false, I)
  else
    (true,
      { literals := Ascending.insert l I.literals
        buckets := Ascending.alter l.signature (fun bucket => bucket.getD [] ++ [l]) I.buckets })

/-- Remove a literal and say whether it was there; a bucket left empty goes too. -/
def remove (I : Instance) (l : Literal) : Bool × Instance :=
  if I.contains l then
    let bucket := (I.candidates l.signature).filter (· ≠ l)
    (true,
      { literals := I.literals.filter (· ≠ l)
        buckets :=
          if bucket.isEmpty then
            Ascending.erase l.signature I.buckets
          else
            Ascending.alter l.signature (fun _ => bucket) I.buckets })
  else
    (false, I)

/-- Insert several literals, one after the other. -/
def extend (I : Instance) (ls : List Literal) : Instance :=
  ls.foldl (fun J l => (J.insert l).2) I

/-- The instance of several literals, inserted in order. -/
def ofList (ls : List Literal) : Instance :=
  empty.extend ls

/-- The body of a rule with its variables frozen. -/
def ofBody (r : Rule) : Instance :=
  ofList r.body

end Instance

end ExistentialRules
