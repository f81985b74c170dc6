import ExistentialRules.Instance
import ExistentialRules.Unifier

/-!
# Events

What the analysis reports while it works, as data: each event keeps the things it speaks of, and
its wording is made only when somebody reads it.
-/

namespace ExistentialRules

/-! ## §1 Levels -/

/-- How much an event matters, from the most to the least. -/
inductive Level where
  /-- Something went wrong. -/
  | error
  /-- Something may be wrong. -/
  | warn
  /-- A result. -/
  | info
  /-- A verdict on single rules. -/
  | debug
  /-- A step of a search. -/
  | trace
deriving DecidableEq

namespace Level

/-- The name in a printed log. -/
def name : Level → String
  | .error => "ERROR"
  | .warn => "WARN"
  | .info => "INFO"
  | .debug => "DEBUG"
  | .trace => "TRACE"

/-- The place in the list of levels. -/
def verbosity : Level → Nat
  | .error => 0
  | .warn => 1
  | .info => 2
  | .debug => 3
  | .trace => 4

/-- Whether a log kept up to level `limit` shows events of level `l`. -/
def admits (limit l : Level) : Bool :=
  l.verbosity ≤ limit.verbosity

/-- The level of a word in small letters. -/
def ofWord? : String → Option Level
  | "error" => some .error
  | "warn" => some .warn
  | "info" => some .info
  | "debug" => some .debug
  | "trace" => some .trace
  | _ => none

/-- Up to which level a log is kept: nothing for the word `off`, up to `info` for no word or one
that is not known. -/
def limitOf : Option String → Option Level
  | none => some .info
  | some "off" => none
  | some word => some ((ofWord? word).getD .info)

end Level

/-! ## §2 Events -/

/-- Something that happened during the analysis. -/
inductive Event where
  /-- A query was matched against an instance. -/
  | searched (query : List Literal) (I : Instance) (found : Bool)
  /-- A rule can never add anything. -/
  | neverApplicable (rule : Rule)
  /-- Two paired literals cannot be made equal. -/
  | noUnifier (left right : Literal)
  /-- The literals of a pairing were made equal. -/
  | unified (left right : List Nat) (u : Unifier)
  /-- No head literal of the source has the signature of a body literal of the target. -/
  | nothingFed (source target : Rule)
  /-- The source rule has nothing to add. -/
  | alreadySatisfied (u : Unifier)
  /-- The target rule could be applied before the source rule was. -/
  | triggerPredates (u : Unifier)
  /-- Whether the target relies positively on the source. -/
  | positiveVerdict (source target : Rule) (verdict : Bool)
  /-- The heads of the two rules share no signature. -/
  | headsDisjoint (source target : Rule)
  /-- The rule that was to be restrained has nothing to add. -/
  | wouldNotFire (u : Unifier)
  /-- Whether the source restrains the target. -/
  | negativeVerdict (source target : Rule) (verdict : Bool)
  /-- All pairs of rules were decided. -/
  | reliancesComputed (rules positive negative : Nat)
  /-- A rule that can never add anything was left out. -/
  | ruleDropped (index : Nat) (rule : Rule)
  /-- The applicability of all rules was decided. -/
  | applicabilityDecided (applicable total analyzed : Nat)
  /-- The rules were put into strata. -/
  | stratified (rules strata components : Nat)
  /-- A remark of the program that runs the analysis. -/
  | note (message : String)

namespace Event

/-- The level of an event. -/
def level : Event → Level
  | .searched .. | .noUnifier .. | .unified .. | .nothingFed .. | .alreadySatisfied ..
  | .triggerPredates .. | .headsDisjoint .. | .wouldNotFire .. => .trace
  | .neverApplicable .. | .positiveVerdict .. | .negativeVerdict .. | .ruleDropped .. => .debug
  | .reliancesComputed .. | .applicabilityDecided .. | .stratified .. | .note .. => .info

/-- The wording of a verdict. -/
def verdictText (verdict : Bool) : String :=
  if verdict then "true" else "false"

/-- The wording of an event. -/
def message : Event → String
  | .searched query I found =>
    "homomorphism " ++ Literal.renderAll query ++ " -> " ++ I.render ++ ": "
      ++ (if found then "found" else "none")
  | .neverApplicable rule => "Rule is never applicable: " ++ rule.render
  | .noUnifier left right => "no unifier for " ++ left.render ++ " ~ " ++ right.render
  | .unified left right u =>
    "unifier " ++ Text.numbers left ++ " ~ " ++ Text.numbers right ++ ": " ++ u.render
  | .nothingFed source target =>
    "prefilter: no head of " ++ source.render ++ " feeds " ++ target.render
  | .alreadySatisfied u => "source is already satisfied under " ++ u.render
  | .triggerPredates u => "target trigger predates the source step under " ++ u.render
  | .positiveVerdict source target verdict =>
    "positive " ++ source.render ++ " -> " ++ target.render ++ ": " ++ verdictText verdict
  | .headsDisjoint source target =>
    "prefilter: heads of " ++ source.render ++ " and " ++ target.render ++ " are disjoint"
  | .wouldNotFire u => "restrained rule would not fire under " ++ u.render
  | .negativeVerdict source target verdict =>
    "negative " ++ source.render ++ " -o " ++ target.render ++ ": " ++ verdictText verdict
  | .reliancesComputed rules positive negative =>
    "Computed reliances over " ++ toString rules ++ " rules: " ++ toString positive
      ++ " positive, " ++ toString negative ++ " negative"
  | .ruleDropped index rule =>
    "Dropping inapplicable rule " ++ toString index ++ ": " ++ rule.render
  | .applicabilityDecided applicable total analyzed =>
    "Applicability: " ++ toString applicable ++ " of " ++ toString total
      ++ " rules applicable, " ++ toString analyzed ++ " analyzed"
  | .stratified rules strata components =>
    "Stratified " ++ toString rules ++ " rules into " ++ toString strata ++ " strata ("
      ++ toString components ++ " components)"
  | .note message => message

end Event

end ExistentialRules
