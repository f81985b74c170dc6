/-!
# Subsets of a given size

The `k`-element subsets of `{0, …, n - 1}`, counted and listed.

A cursor lists them one by one. The first subset has the lowest `k` elements. From each subset to
the next, the highest element that has room moves up by one and those above it follow directly
behind, so that the lists of elements come in lexicographic order: for `n = 4` and `k = 2` they are
`{0, 1}`, `{0, 2}`, `{0, 3}`, `{1, 2}`, `{1, 3}`, `{2, 3}`.

Counts are kept up to `2 ^ 64 - 1`; a larger count is written as this number.
-/

namespace ExistentialRules

/-! ## §1 Counting -/

/-- The largest count. -/
def countLimit : Nat :=
  UInt64.size - 1

/-- Multiply up the number of subsets, from those of size `i` to those of size `i + steps`, and stop
once the limit is passed. Each division is exact, for `count` is the number of subsets of
size `i`. -/
def chooseFrom (n : Nat) : Nat → Nat → Nat → Nat
  | 0, _, count => count
  | steps + 1, i, count =>
    let next := count * (n - i) / (i + 1)
    if countLimit < next then countLimit else chooseFrom n steps (i + 1) next

/-- The number of `k`-element subsets of an `n`-element set, or the limit if there are more. -/
def binomial (n k : Nat) : Nat :=
  if n < k then 0 else chooseFrom n (min k (n - k)) 0 1

/-! ## §2 Masks -/

/-- The positions that a mask selects, in ascending order. -/
def selected (mask : List Bool) : List Nat :=
  (mask.zipIdx.filter Prod.fst).map Prod.snd

/-- The mask of length `n` that selects the given positions. -/
def maskOf (n : Nat) (positions : List Nat) : List Bool :=
  (List.range n).map positions.contains

/-! ## §3 The cursor -/

/-- More elements were asked for than there are. -/
structure TooManyElements where
  /-- The number of elements there are. -/
  n : Nat
  /-- The number of elements asked for. -/
  k : Nat
deriving DecidableEq

/-- The wording of the error. -/
def TooManyElements.message (e : TooManyElements) : String :=
  "Combination error: cannot choose " ++ toString e.k ++ " elements out of " ++ toString e.n

/-- A place in the list of the `k`-element subsets of `{0, …, n - 1}`. -/
structure SubsetCursor where
  /-- The number of elements to choose from. -/
  n : Nat
  /-- The number of elements to choose. -/
  k : Nat
  /-- The subset given out last, if one was. -/
  last : Option (List Nat)
  /-- The number of subsets still to come. -/
  remaining : Nat
deriving DecidableEq

namespace SubsetCursor

/-- The cursor before the first subset. -/
def new (n k : Nat) : Except TooManyElements SubsetCursor :=
  if n < k then .error ⟨n, k⟩ else .ok ⟨n, k, none, binomial n k⟩

/-- The next subset after an ascending list of positions, the first of which stays below `room`, the
second below `room + 1` and so on. -/
def advance : Nat → List Nat → Option (List Nat)
  | _, [] => none
  | room, p :: ps =>
    match advance (room + 1) ps with
    | some qs => some (p :: qs)
    | none => if p < room then some (List.range' (p + 1) (ps.length + 1)) else none

/-- The positions to be given out next. -/
def upcoming (c : SubsetCursor) : Option (List Nat) :=
  match c.last with
  | none => some (List.range c.k)
  | some positions => advance (c.n - c.k) positions

/-- The next subset as a mask, and the cursor behind it. -/
def next? (c : SubsetCursor) : Option (List Bool × SubsetCursor) :=
  if c.remaining = 0 then
    none
  else
    c.upcoming.map fun positions =>
      (maskOf c.n positions, { c with last := some positions, remaining := c.remaining - 1 })

/-- Up to `count` masks, and the cursor behind them. -/
def take : Nat → SubsetCursor → List (List Bool) × SubsetCursor
  | 0, c => ([], c)
  | count + 1, c =>
    match c.next? with
    | none => ([], c)
    | some (mask, c') =>
      let (masks, c'') := take count c'
      (mask :: masks, c'')

/-- Skip `count` masks and give out the one after them, if there is one. -/
def nth? : Nat → SubsetCursor → Option (List Bool) × SubsetCursor
  | 0, c =>
    match c.next? with
    | none => (none, c)
    | some (mask, c') => (some mask, c')
  | count + 1, c =>
    match c.next? with
    | none => (none, c)
    | some (_, c') => nth? count c'

/-- The last of the masks still to come. -/
def last? (c : SubsetCursor) : Option (List Bool) :=
  (c.nth? (c.remaining - 1)).1

/-- All masks still to come. -/
def toList (c : SubsetCursor) : List (List Bool) :=
  (c.take c.remaining).1

end SubsetCursor

/-- The `k`-element subsets of `{0, …, n - 1}` as ascending lists, in lexicographic order. -/
def subsets (n k : Nat) : List (List Nat) :=
  match SubsetCursor.new n k with
  | .ok c => c.toList.map selected
  | .error _ => []

end ExistentialRules
