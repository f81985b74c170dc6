/-!
# Configuration

The choices that an analysis leaves open.
-/

namespace ExistentialRules

/-- What an analysis does and leaves out. -/
structure Config where
  /-- Compare signatures before looking for unifiers. -/
  prefilter : Bool := true
  /-- Count only those reliances that an application of the rules can bring about. -/
  applicability : Bool := true
  /-- Leave out the rules that can never add anything. -/
  dropInapplicable : Bool := true
  /-- Allow the pairs of rules to be decided side by side. It is assumed that each pair is decided
  then as it is when it stands alone, so that only the order can differ in which the reliances are
  found. They are collected into an ascending set, for which the order makes no difference. -/
  parallel : Bool := false
  /-- Look for negative reliances too. -/
  negative : Bool := true
deriving DecidableEq

namespace Config

/-- The default configuration. -/
def default : Config :=
  {}

/-- The text `prefilter=on, applicability=on, …`. -/
def render (c : Config) : String :=
  let switch (b : Bool) : String := if b then "on" else "off"
  "prefilter=" ++ switch c.prefilter ++ ", applicability=" ++ switch c.applicability
    ++ ", drop-inapplicable=" ++ switch c.dropInapplicable ++ ", parallel=" ++ switch c.parallel
    ++ ", negative=" ++ switch c.negative

end Config

end ExistentialRules
