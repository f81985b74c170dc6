import ExistentialRules.Logged
import ExistentialRules.Subset

/-!
# Pairings

To unify part of one list of literals with literals of another, one first has to say which literal
goes with which. A pairing is such a choice: a map from a non-empty subset of the right-hand
literals to the left-hand literals. Several right-hand literals may go with one left-hand literal.

There are `(left + 1) ^ right - 1` pairings, too many to write down in general. So `pairings` says
what they are and in which order they come, and `Pairing.any` goes through them in this order
without listing them.

## Main statements

* `Pairing.any_eq`: going through the pairings is going through the list of them.
-/

namespace ExistentialRules

/-! ## §1 The pairings -/

/-- A map from right-hand to left-hand literals, by their numbers: `right[i]` goes with
`left[i]`. -/
structure Pairing where
  /-- The left-hand literals, in the order of their partners. -/
  left : List Nat
  /-- The right-hand literals in ascending order. -/
  right : List Nat
deriving DecidableEq

/-- The lists of a given length with entries below a bound, in lexicographic order. -/
def tuples (bound : Nat) : Nat → List (List Nat)
  | 0 => [[]]
  | length + 1 => (List.range bound).flatMap fun i => (tuples bound length).map (i :: ·)

/-- All pairings: small subsets of the right-hand literals first, subsets of one size in
lexicographic order, and for each subset its maps in lexicographic order. -/
def pairings (left right : Nat) : List Pairing :=
  (List.range' 1 right).flatMap fun m =>
    (subsets right m).flatMap fun chosen =>
      (tuples left m).map fun images => ⟨images, chosen⟩

namespace Pairing

/-- Whether a right-hand literal takes part. -/
def covers (p : Pairing) (index : Nat) : Bool :=
  p.right.contains index

/-- The pairs of literals that a pairing puts together. -/
def pairs (p : Pairing) (left right : List Literal) : List (Literal × Literal) :=
  (p.left.zip p.right).filterMap fun (i, j) =>
    match left[i]?, right[j]? with
    | some l, some r => some (l, r)
    | _, _ => none

/-! ## §2 Going through the pairings -/

/-- Go through the lists of a given length with entries below a bound. -/
def anyTuple (bound : Nat) : Nat → (List Nat → Logged Bool) → Logged Bool
  | 0, f => f []
  | length + 1, f =>
    Logged.any (List.range bound) fun i => anyTuple bound length fun rest => f (i :: rest)

/-- Go through the subsets behind a cursor, after the events `log`. -/
def anySubsetFrom (f : List Nat → Logged Bool) (log : Array Event) :
    Nat → SubsetCursor → Logged Bool
  | 0, _ => ⟨false, log⟩
  | steps + 1, c =>
    match c.next? with
    | none => ⟨false, log⟩
    | some (mask, c') =>
      let r := f (selected mask)
      if r.value then ⟨true, log ++ r.log⟩ else anySubsetFrom f (log ++ r.log) steps c'

/-- Go through the `k`-element subsets of `{0, …, n - 1}`. -/
def anySubset (n k : Nat) (f : List Nat → Logged Bool) : Logged Bool :=
  match SubsetCursor.new n k with
  | .ok c => anySubsetFrom f #[] c.remaining c
  | .error _ => pure false

/-- Whether a pairing is accepted: they are tried in order, up to the first that is. -/
def any (left right : Nat) (f : Pairing → Logged Bool) : Logged Bool :=
  Logged.any (List.range' 1 right) fun m =>
    anySubset right m fun chosen =>
      anyTuple left m fun images => f ⟨images, chosen⟩

theorem anyTuple_eq (bound length : Nat) (f : List Nat → Logged Bool) :
    anyTuple bound length f = Logged.any (tuples bound length) f := by
  induction length generalizing f with
  | zero =>
    rw [anyTuple, tuples, Logged.any_cons]
    refine Logged.ext ?_ ?_
    · cases h : (f []).value <;> simp [h]
    · cases h : (f []).value <;> simp [h]
  | succ length ih =>
    rw [anyTuple, tuples, Logged.any_flatMap]
    congr 1
    funext i
    rw [ih, Logged.any_map]

theorem anySubsetFrom_eq (f : List Nat → Logged Bool) (log : Array Event) (steps : Nat)
    (c : SubsetCursor) :
    anySubsetFrom f log steps c = Logged.anyFrom f log ((c.take steps).1.map selected) := by
  induction steps generalizing log c with
  | zero => rfl
  | succ steps ih =>
    rw [anySubsetFrom, SubsetCursor.take]
    cases hnext : c.next? with
    | none => rfl
    | some entry =>
      simp only [List.map_cons, Logged.anyFrom]
      rw [ih]

theorem anySubset_eq (n k : Nat) (f : List Nat → Logged Bool) :
    anySubset n k f = Logged.any (subsets n k) f := by
  unfold anySubset subsets
  cases SubsetCursor.new n k with
  | ok c => exact anySubsetFrom_eq f #[] c.remaining c
  | error _ => rfl

/-- Going through the pairings is going through the list of them. -/
theorem any_eq (left right : Nat) (f : Pairing → Logged Bool) :
    any left right f = Logged.any (pairings left right) f := by
  rw [any, pairings, Logged.any_flatMap]
  congr 1
  funext m
  rw [anySubset_eq, Logged.any_flatMap]
  congr 1
  funext chosen
  rw [anyTuple_eq, Logged.any_map]

/-! ## §3 The unifier of a pairing -/

/-- Make the literals of each pair equal, one pair after the other; the error is the first pair for
which this fails. -/
def unifyAll (u : Unifier) : List (Literal × Literal) → Except (Literal × Literal) Unifier
  | [] => .ok u
  | (l, r) :: rest =>
    let step := u.unifyLiterals l r
    if step.ok then unifyAll step.unifier rest else .error (l, r)

/-- The most general unifier of the paired literals, if there is one. -/
def unifier? (p : Pairing) (left right : List Literal) : Option Unifier :=
  (unifyAll .empty (p.pairs left right)).toOption

/-- Find the most general unifier of the paired literals and report it. -/
def unifierLogged (p : Pairing) (left right : List Literal) : Logged (Option Unifier) :=
  match unifyAll .empty (p.pairs left right) with
  | .ok u => ⟨some u, #[.unified p.left p.right u]⟩
  | .error (l, r) => ⟨none, #[.noUnifier l r]⟩

@[simp]
theorem value_unifierLogged (p : Pairing) (left right : List Literal) :
    (p.unifierLogged left right).value = p.unifier? left right := by
  unfold unifierLogged unifier?
  cases unifyAll .empty (p.pairs left right) with
  | ok u => rfl
  | error pair => rfl

end Pairing

end ExistentialRules
