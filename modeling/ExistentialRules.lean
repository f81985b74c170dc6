import ExistentialRules.Analysis
import ExistentialRules.Applicability
import ExistentialRules.Ascending
import ExistentialRules.Config
import ExistentialRules.Event
import ExistentialRules.Graph.Dependency
import ExistentialRules.Graph.DepthFirst
import ExistentialRules.Graph.Link
import ExistentialRules.Homomorphism
import ExistentialRules.Instance
import ExistentialRules.Literal
import ExistentialRules.Logged
import ExistentialRules.Main
import ExistentialRules.Pairing
import ExistentialRules.Place
import ExistentialRules.Proofs.Assignment
import ExistentialRules.Proofs.Chase
import ExistentialRules.Proofs.Enumeration
import ExistentialRules.Proofs.MostGeneral
import ExistentialRules.Proofs.Search
import ExistentialRules.Reliance.Negative
import ExistentialRules.Reliance.Network
import ExistentialRules.Reliance.Positive
import ExistentialRules.Rule
import ExistentialRules.RuleIndex
import ExistentialRules.Sample
import ExistentialRules.Strata
import ExistentialRules.Subset
import ExistentialRules.Substitution
import ExistentialRules.Term
import ExistentialRules.Text
import ExistentialRules.Unifier
import ExistentialRules.Proofs.Renaming
import ExistentialRules.Proofs.Occurrence
import ExistentialRules.Proofs.PairedUnifier
import ExistentialRules.Proofs.PositiveReliance
import ExistentialRules.Proofs.NegativeReliance
import ExistentialRules.Proofs.StrataOrder
import ExistentialRules.Proofs.StrataSafety
import ExistentialRules.Proofs.InstanceHistory
import ExistentialRules.Proofs.FoundHomomorphism
import ExistentialRules.Proofs.DepthFirstWalk
import ExistentialRules.Proofs.StronglyConnected
import ExistentialRules.Proofs.StrataPartition
import ExistentialRules.Proofs.StrataReliance
import ExistentialRules.Proofs.FlatStratum
import ExistentialRules.Proofs.Redundancy
import ExistentialRules.Proofs.RestraintCause
import ExistentialRules.Proofs.Variant
import ExistentialRules.Proofs.LinkComponents
import ExistentialRules.Proofs.StrataPart
import ExistentialRules.Proofs.NetworkPart
import ExistentialRules.Proofs.Dropping
import ExistentialRules.Proofs.Modularity
import ExistentialRules.Proofs.Labelling
import ExistentialRules.Proofs.Filters
import ExistentialRules.Proofs.InputOrder
import ExistentialRules.Proofs.InstanceIndex
import ExistentialRules.Proofs.QueryContainment
import ExistentialRules.Proofs.RelianceComponents
import ExistentialRules.Proofs.StrataLevels
import ExistentialRules.Proofs.SubsetCount
import ExistentialRules.Proofs.CursorCalls
import ExistentialRules.Proofs.PairingOrder
import ExistentialRules.Proofs.FirstHomomorphism
import ExistentialRules.Proofs.Entailment
import ExistentialRules.Proofs.UnifierClasses
import ExistentialRules.Proofs.LinkHistory
import ExistentialRules.Proofs.Worklist
import ExistentialRules.Proofs.Collected
import ExistentialRules.Proofs.Validation
import ExistentialRules.Proofs.RenamedApart
import ExistentialRules.Proofs.RoundProgress
import ExistentialRules.Proofs.NumberedClasses
import ExistentialRules.Proofs.SearchFrame
import ExistentialRules.Proofs.FreshTerms
