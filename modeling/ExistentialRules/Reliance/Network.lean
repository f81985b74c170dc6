import ExistentialRules.Reliance.Negative

/-!
# The reliances of a list of rules

Rules are known by their number in the list. A reliance leads from the rule that is applied to the
rule whose application it brings about (positive) or makes redundant (negative).

## Main statements

* `RelianceNetwork.edges_ofRules`: which reliances a list of rules has.
-/

namespace ExistentialRules

/-! ## §1 Reliances -/

/-- The two kinds of reliance. -/
inductive Polarity where
  /-- The source brings about applications of the target. -/
  | positive
  /-- The source makes applications of the target redundant. -/
  | negative
deriving DecidableEq

/-- The text `+` or `-`. -/
def Polarity.render : Polarity → String
  | .positive => "+"
  | .negative => "-"

/-- A reliance between two rules, given by their numbers. -/
structure RelianceEdge where
  /-- The rule that is applied. -/
  source : Nat
  /-- The rule that is affected. -/
  target : Nat
  /-- How it is affected. -/
  polarity : Polarity
deriving DecidableEq

/-- The text `0 -> 1` or `0 -o 1`. -/
def RelianceEdge.render (e : RelianceEdge) : String :=
  let arrow :=
    match e.polarity with
    | .positive => " -> "
    | .negative => " -o "
  toString e.source ++ arrow ++ toString e.target

/-! ## §2 Networks -/

/-- The reliances of a number of rules. -/
structure RelianceNetwork where
  /-- The number of rules. -/
  ruleCount : Nat
  /-- The reliances by source, then by target, a positive one before a negative one. -/
  edges : List RelianceEdge
deriving DecidableEq

namespace RelianceNetwork

/-- The number of reliances. -/
def size (N : RelianceNetwork) : Nat :=
  N.edges.length

/-- The reliances of one polarity. -/
def ofPolarity (N : RelianceNetwork) (polarity : Polarity) : List RelianceEdge :=
  N.edges.filter fun e => e.polarity = polarity

/-- Whether there is a certain reliance. -/
def contains (N : RelianceNetwork) (source target : Nat) (polarity : Polarity) : Bool :=
  N.edges.contains ⟨source, target, polarity⟩

/-- The targets of the reliances of one polarity that leave a rule. -/
def successors (N : RelianceNetwork) (source : Nat) (polarity : Polarity) : List Nat :=
  ((N.ofPolarity polarity).filter fun e => e.source = source).map RelianceEdge.target

/-- The reliances as a table: a row for each rule and polarity with at least one target. -/
def render (N : RelianceNetwork) : String :=
  Text.table "Reliances" <|
    (List.range N.ruleCount).flatMap fun source =>
      [Polarity.positive, Polarity.negative].filterMap fun polarity =>
        let targets := N.successors source polarity
        if targets.isEmpty then
          none
        else
          some (Text.line
            ("Rule " ++ toString source ++ " " ++ polarity.render ++ ": " ++ Text.numbers targets))

/-! ## §3 Finding the reliances -/

/-- The reliances from one rule to another, both indexed. -/
def edgesBetween (config : Config) (i j : Nat) (source target : RuleIndex) :
    Logged (List RelianceEdge) := do
  let positive ← Reliance.positiveLogged source target config
  let negative ←
    if config.negative then Reliance.negativeLogged source target config else pure false
  return (if positive then [⟨i, j, .positive⟩] else []) ++
    (if negative then [⟨i, j, .negative⟩] else [])

/-- Decide all pairs of indexed rules, the source outermost, and report how. The two lists hold the
same rules, once in the part of the source and once in that of the target. -/
def ofIndexesLogged (sources targets : List RuleIndex) (config : Config) :
    Logged RelianceNetwork := do
  let edges ← sources.zipIdx.mapM fun (source, i) => do
    let row ← targets.zipIdx.mapM fun (target, j) => edgesBetween config i j source target
    return row.flatten
  let network : RelianceNetwork := ⟨sources.length, edges.flatten⟩
  Logged.tell (.reliancesComputed network.ruleCount (network.ofPolarity .positive).length
    (network.ofPolarity .negative).length)
  return network

/-- Decide all pairs of rules, each rule with itself too, and report how. -/
def ofRulesLogged (rules : List Rule) (config : Config) : Logged RelianceNetwork :=
  ofIndexesLogged (rules.map Reliance.sourceIndex) (rules.map Reliance.targetIndex) config

@[simp]
theorem value_edgesBetween (config : Config) (i j : Nat) (source target : RuleIndex) :
    (edgesBetween config i j source target).value =
      (if (Reliance.positiveLogged source target config).value then [⟨i, j, .positive⟩] else []) ++
      (if config.negative && (Reliance.negativeLogged source target config).value then
        [⟨i, j, .negative⟩] else []) := by
  cases h : config.negative <;> simp [edgesBetween, h]

/-- The reliances are those from each index to each index, in this order. -/
theorem value_ofIndexesLogged (sources targets : List RuleIndex) (config : Config) :
    (ofIndexesLogged sources targets config).value =
      ⟨sources.length, sources.zipIdx.flatMap fun source => targets.zipIdx.flatMap fun target =>
        (edgesBetween config source.2 target.2 source.1 target.1).value⟩ := by
  simp only [ofIndexesLogged, Logged.value_bind, Logged.value_pure, Logged.value_mapM,
    List.flatMap_def]

/-- The reliances of a list of rules. -/
def ofRules (rules : List Rule) (config : Config) : RelianceNetwork :=
  (ofRulesLogged rules config).value

@[simp]
theorem ruleCount_ofRules (rules : List Rule) (config : Config) :
    (ofRules rules config).ruleCount = rules.length := by
  rw [ofRules, ofRulesLogged, value_ofIndexesLogged, List.length_map]

/-- The reliances are those from each rule to each rule, in this order. -/
theorem edges_ofRules (rules : List Rule) (config : Config) :
    (ofRules rules config).edges =
      rules.zipIdx.flatMap fun source => rules.zipIdx.flatMap fun target =>
        (edgesBetween config source.2 target.2 (Reliance.sourceIndex source.1)
          (Reliance.targetIndex target.1)).value := by
  simp only [ofRules, ofRulesLogged, value_ofIndexesLogged, List.zipIdx_map, List.flatMap_map]
  rfl

end RelianceNetwork

end ExistentialRules
