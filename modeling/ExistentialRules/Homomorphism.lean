import ExistentialRules.Logged

/-!
# Homomorphisms

A homomorphism from a query into an instance replaces the free variables of the query so that every
query literal becomes a literal of the instance. Variables that are not free stand for themselves.

The search goes through the query from left to right and tries, for each literal, the instance's
literals of the same signature in the order of their insertion. It works on one substitution: a
branch that fails takes back what it has bound.

## Main definitions

* `FreeVariables`: which variables may be replaced;
* `Homomorphism.extend`: make one literal equal to another;
* `Homomorphism.search`: the search;
* `Instance.findHomomorphism`, `Instance.entailsWith`, `Instance.entails`: its answers.
-/

namespace ExistentialRules

/-! ## §1 Free variables -/

/-- Which variables of a query may be replaced. -/
inductive FreeVariables where
  /-- All of them. -/
  | all
  /-- Only the listed ones. -/
  | only (vs : List Variable)
deriving DecidableEq

namespace FreeVariables

/-- Whether a variable may be replaced. -/
def isFree : FreeVariables → Variable → Bool
  | .all, _ => true
  | .only vs, v => vs.contains v

/-- The variable that may be replaced, if the term is one. -/
def freeVariable? (free : FreeVariables) (t : Term) : Option Variable :=
  t.toVariable?.filter free.isFree

end FreeVariables

/-! ## §2 The search -/

namespace Homomorphism

/-- What it takes to make terms equal: whether it can be done, the substitution then, and the
variables bound on the way. After a failure the bindings up to it are still there. -/
structure Extension where
  /-- Whether the terms are now equal. -/
  matched : Bool
  /-- The substitution with the new bindings. -/
  substitution : Substitution
  /-- The newly bound variables, in the order of binding. -/
  added : List Variable
deriving DecidableEq

/-- Bind free variables so that the terms of the first list become those of the second, from left to
right up to the first clash. -/
def extend (free : FreeVariables) : List Term → List Term → Substitution → Extension
  | q :: qs, t :: ts, θ =>
    match free.freeVariable? q with
    | some v =>
      match θ.lookup v with
      | some bound => if bound = t then extend free qs ts θ else ⟨false, θ, []⟩
      | none =>
        let e := extend free qs ts (θ.bind v t)
        { e with added := v :: e.added }
    | none => if q = t then extend free qs ts θ else ⟨false, θ, []⟩
  | _, _, θ => ⟨true, θ, []⟩

/-- The state in which a search ends. -/
structure Outcome where
  /-- Whether every literal found its place. -/
  found : Bool
  /-- The substitution: the homomorphism if one was found, else the one at the start. -/
  substitution : Substitution
deriving DecidableEq

/-- Send a literal to one candidate after the other, and go on with the rest of the query after
each, up to the first success. -/
def tryCandidates (free : FreeVariables) (l : Literal) (rest : Substitution → Outcome) :
    List Literal → Substitution → Outcome
  | [], θ => ⟨false, θ⟩
  | c :: cs, θ =>
    let e := extend free l.arguments c.arguments θ
    let o := if e.matched then rest e.substitution else ⟨false, e.substitution⟩
    if o.found then o else tryCandidates free l rest cs (o.substitution.unbindAll e.added)

/-- Send the query's literals to literals of the instance, the first one first. -/
def search (I : Instance) (free : FreeVariables) : List Literal → Substitution → Outcome
  | [], θ => ⟨true, θ⟩
  | l :: ls, θ => tryCandidates free l (search I free ls) (I.candidates l.signature) θ

end Homomorphism

/-! ## §3 Entailment -/

namespace Instance

/-- The first homomorphism in the order of the search, if there is one. -/
def findHomomorphism (I : Instance) (query : List Literal) (free : FreeVariables) :
    Option Substitution :=
  let o := Homomorphism.search I free query .empty
  if o.found then some o.substitution else none

/-- Whether the query holds in the instance, with some values of its free variables. -/
def entailsWith (I : Instance) (query : List Literal) (free : FreeVariables) : Bool :=
  (I.findHomomorphism query free).isSome

/-- Whether the query holds in the instance, with some values of all its variables. -/
def entails (I : Instance) (query : List Literal) : Bool :=
  I.entailsWith query .all

/-- Find a homomorphism and report the search. -/
def findHomomorphismLogged (I : Instance) (query : List Literal) (free : FreeVariables) :
    Logged (Option Substitution) :=
  let found := I.findHomomorphism query free
  ⟨found, #[.searched query I found.isSome]⟩

/-- Decide entailment and report the search. -/
def entailsLogged (I : Instance) (query : List Literal) (free : FreeVariables) : Logged Bool := do
  let found ← I.findHomomorphismLogged query free
  return found.isSome

@[simp]
theorem value_findHomomorphismLogged (I : Instance) (query : List Literal) (free : FreeVariables) :
    (I.findHomomorphismLogged query free).value = I.findHomomorphism query free := by
  simp only [findHomomorphismLogged]

@[simp]
theorem value_entailsLogged (I : Instance) (query : List Literal) (free : FreeVariables) :
    (I.entailsLogged query free).value = I.entailsWith query free := by
  simp [entailsLogged, entailsWith]

end Instance

end ExistentialRules
