import ConfigSweep.Definition
import ConfigSweep.Evaluation.Standard
import ConfigSweep.ModelConfiguration
import ConfigSweep.Proofs.Mapping
import ConfigSweep.Proofs.Outcome
import ConfigSweep.Proofs.Table
import ConfigSweep.Proofs.AxisKey
import ConfigSweep.Proofs.Location
import ConfigSweep.Proofs.Split
import ConfigSweep.Proofs.AxisPaths
import ConfigSweep.Proofs.Equality
import ConfigSweep.Proofs.Registration
import ConfigSweep.Proofs.Writes
import ConfigSweep.Proofs.Ownership
import ConfigSweep.Proofs.Declarations
import ConfigSweep.Proofs.Redeclaration
import ConfigSweep.Proofs.Resolution
import ConfigSweep.Proofs.Placement
import ConfigSweep.Proofs.Filling
import ConfigSweep.Proofs.Choices
import ConfigSweep.Proofs.Rebuilt
import ConfigSweep.Proofs.Overrides
import ConfigSweep.Proofs.SparseList
import ConfigSweep.Proofs.Indexing
import ConfigSweep.Proofs.IndexedScript
import ConfigSweep.Proofs.Recognition
import ConfigSweep.Proofs.IndexedPatch
import ConfigSweep.Proofs.IndexedMerge
import ConfigSweep.Proofs.Path
import ConfigSweep.Proofs.Operations
import ConfigSweep.Proofs.Framing
import ConfigSweep.Proofs.Reading
import ConfigSweep.Proofs.UpsertOrder
import ConfigSweep.Proofs.RestoredUpserts
import ConfigSweep.Proofs.View
import ConfigSweep.Proofs.Revealing
import ConfigSweep.Proofs.ViewMerge
import ConfigSweep.Proofs.ViewReading
import ConfigSweep.Proofs.Locality
import ConfigSweep.Proofs.CallFree
import ConfigSweep.Proofs.ReadAnywhere
import ConfigSweep.Proofs.PatchParts
import ConfigSweep.Proofs.ReadsLike
import ConfigSweep.Proofs.Reorder
import ConfigSweep.Proofs.ChoiceOrder
import ConfigSweep.Proofs.AssignmentOrder
import ConfigSweep.Proofs.Persistence
import ConfigSweep.Proofs.Composition
import ConfigSweep.Proofs.NestedPatch
import ConfigSweep.Proofs.Isolation
import ConfigSweep.Proofs.Contracts
import ConfigSweep.Proofs.Keeping
import ConfigSweep.Proofs.Targets
import ConfigSweep.Proofs.Silence
import ConfigSweep.Proofs.KeyOrder
import ConfigSweep.Proofs.Undisguised
import ConfigSweep.Proofs.IndexedReading
import ConfigSweep.Proofs.MaskedFailures
import ConfigSweep.Proofs.Coverage
import ConfigSweep.Proofs.ScriptCoverage
import ConfigSweep.Proofs.LiteralPatch
import ConfigSweep.Proofs.Overlay
import ConfigSweep.Proofs.OverlayPaths
import ConfigSweep.Proofs.Idempotence
import ConfigSweep.Proofs.LiteralScript
import ConfigSweep.Proofs.Remainder
import ConfigSweep.Proofs.ByteOrder
import ConfigSweep.Proofs.DeclarationOrder
import ConfigSweep.Proofs.Settling
import ConfigSweep.Proofs.PayloadEdit
import ConfigSweep.Proofs.PayloadMerge
import ConfigSweep.Proofs.TokenTrie
import ConfigSweep.Proofs.DerivedAliases
import ConfigSweep.Proofs.DefaultPaths
import ConfigSweep.Proofs.PlacedValues
import ConfigSweep.Proofs.PrintedScript
import ConfigSweep.Proofs.PatchForm
import ConfigSweep.Proofs.PrintedPatch
import ConfigSweep.Proofs.SpecificationForm
import ConfigSweep.Proofs.Grid
import ConfigSweep.Proofs.BareFailures
import ConfigSweep.Proofs.Walk
import ConfigSweep.Proofs.MergeWalk
import ConfigSweep.Proofs.ReadingWalk
import ConfigSweep.Proofs.FailurePlaces
import ConfigSweep.Proofs.PlainMerge
import ConfigSweep.Proofs.Consumed
import ConfigSweep.Proofs.Mirroring
import ConfigSweep.Proofs.Transparency
import ConfigSweep.Proofs.Slots
