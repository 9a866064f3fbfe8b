import MigrationHistory.Config.Load
import MigrationHistory.History.Consistency
import MigrationHistory.History.Insert
import MigrationHistory.History.Range
import MigrationHistory.LazyHistory
import MigrationHistory.Record
import MigrationHistory.Proofs.Ancestry
import MigrationHistory.Proofs.Closure
import MigrationHistory.Proofs.Bare
import MigrationHistory.Proofs.Run
import MigrationHistory.Proofs.Links
import MigrationHistory.Proofs.Placement
import MigrationHistory.Proofs.Indexes
import MigrationHistory.Proofs.Registration
import MigrationHistory.Proofs.Line
import MigrationHistory.Proofs.Labels
import MigrationHistory.Proofs.Arms
import MigrationHistory.Proofs.Proper
import MigrationHistory.Proofs.Resolution
import MigrationHistory.Proofs.Space
import MigrationHistory.Proofs.RangeOrder
import MigrationHistory.Proofs.Bounds
import MigrationHistory.Proofs.Boundary
import MigrationHistory.Proofs.RangeExtent
import MigrationHistory.Proofs.FinalRecords
import MigrationHistory.Proofs.Collisions
import MigrationHistory.Proofs.Acceptance
import MigrationHistory.Proofs.Refusal
import MigrationHistory.Proofs.LabelIndex
import MigrationHistory.Proofs.Rebuild
import MigrationHistory.Proofs.Growth
import MigrationHistory.Proofs.FullRange
import MigrationHistory.Proofs.ImplicitBase
import MigrationHistory.Proofs.ArmByArm
import MigrationHistory.Proofs.GivenChildren
import MigrationHistory.Proofs.CycleSearch
import MigrationHistory.Proofs.Consistency
import MigrationHistory.Proofs.SelfNaming
import MigrationHistory.Proofs.Lineage
import MigrationHistory.Proofs.QualifiedLookup
import MigrationHistory.Proofs.UnknownBranch
import MigrationHistory.Proofs.Addressing
import MigrationHistory.Proofs.OnDemand
import MigrationHistory.Proofs.BuildInPlace
import MigrationHistory.Proofs.Strictness
import MigrationHistory.Proofs.BranchHeads
import MigrationHistory.Proofs.OneAndSeveral
import MigrationHistory.Proofs.LineageFilter
import MigrationHistory.Proofs.RelativeRange
import MigrationHistory.Proofs.RepeatedIds
import MigrationHistory.Proofs.OwnNodes
import MigrationHistory.Proofs.Repeats
import MigrationHistory.Proofs.RepeatedUppers
import MigrationHistory.Proofs.Thinning
import MigrationHistory.Proofs.Rewording
import MigrationHistory.Proofs.Mirrors
import MigrationHistory.Proofs.Condensed
import MigrationHistory.Proofs.RepeatedParents
import MigrationHistory.Proofs.Replacement
import MigrationHistory.Proofs.BaseSpellings
import MigrationHistory.Proofs.IdleOffsets
import MigrationHistory.Proofs.Related
import MigrationHistory.Proofs.Pattern
import MigrationHistory.Proofs.OffsetGrammar
