import ValueFlow.Config.Document
import ValueFlow.Interchange.Compact
import ValueFlow.Interchange.Reports
import ValueFlow.Proofs.Analysis.Soundness
import ValueFlow.Proofs.Fixpoint.Convergence
import ValueFlow.Proofs.FlowGraph.Walks
import ValueFlow.Proofs.Domain.Order
import ValueFlow.Proofs.Heap.Slots
import ValueFlow.Proofs.Heap.Tracks
import ValueFlow.Proofs.Heap.Replay
import ValueFlow.Proofs.Analysis.Locality
import ValueFlow.Proofs.CallGraph.Refinement
import ValueFlow.Proofs.Heap.Merging
import ValueFlow.Proofs.Analysis.Stability
import ValueFlow.Proofs.FlowGraph.Places
import ValueFlow.Proofs.FlowGraph.Recording
import ValueFlow.Proofs.Analysis.Branches
import ValueFlow.Proofs.Analysis.Presence
import ValueFlow.Proofs.CallGraph.Condensation
import ValueFlow.Proofs.Objects.Derefs
import ValueFlow.Proofs.Domain.Canonical
import ValueFlow.Proofs.Fixpoint.Invariants
import ValueFlow.Proofs.Heap.Canonical
import ValueFlow.Proofs.Analysis.Canonical
import ValueFlow.Proofs.Analysis.Joining
import ValueFlow.Proofs.Analysis.Seeding
import ValueFlow.Proofs.PointsTo.Derivation
import ValueFlow.Proofs.PointsTo.Numbering
import ValueFlow.Proofs.PointsTo.Generation
import ValueFlow.Proofs.PointsTo.Soundness
import ValueFlow.Proofs.PointsTo.Closure
import ValueFlow.Proofs.PointsTo.Searching
import ValueFlow.Proofs.PointsTo.Finiteness
import ValueFlow.Proofs.PointsTo.Ending
import ValueFlow.Proofs.PointsTo.LeastSolution
import ValueFlow.Proofs.CallGraph.Tarjan
import ValueFlow.Proofs.PointsTo.Coarsening
import ValueFlow.Proofs.PointsTo.Parts
import ValueFlow.Proofs.PointsTo.Binding
import ValueFlow.Proofs.Config.Words
import ValueFlow.Proofs.Config.Blocks
import ValueFlow.Proofs.Config.Roundtrip
import ValueFlow.Proofs.PointsTo.Ranges
import ValueFlow.Proofs.FlowGraph.Lookups
import ValueFlow.Proofs.Fixpoint.Lookups
import ValueFlow.Proofs.PointsTo.Lookups
import ValueFlow.Proofs.Analysis.Acceptance
import ValueFlow.Proofs.Domain.Operators
import ValueFlow.Proofs.Domain.Reduction
import ValueFlow.Proofs.Domain.Verdicts
import ValueFlow.Proofs.State.Order
import ValueFlow.Proofs.Analysis.Conditions
import ValueFlow.Proofs.State.Keeping
import ValueFlow.Proofs.Analysis.Decisions
import ValueFlow.Proofs.Sequences
import ValueFlow.Proofs.Domain.Widening
import ValueFlow.Proofs.Heap.Lattice
import ValueFlow.Proofs.Heap.Widening
import ValueFlow.Proofs.State.Environments
import ValueFlow.Proofs.State.Lattice
import ValueFlow.Proofs.Heap.Writings
import ValueFlow.Proofs.Heap.EffectWidening
import ValueFlow.Proofs.Heap.CallSites
import ValueFlow.Proofs.Objects.ClosedRuns
import ValueFlow.Proofs.Domain.Lattice
import ValueFlow.Proofs.Domain.Monotone
import ValueFlow.Proofs.Objects.Lists
import ValueFlow.Proofs.State.EnvironmentLattice
import ValueFlow.Proofs.Heap.Extremes
import ValueFlow.Proofs.Heap.Listing
import ValueFlow.Proofs.FlowGraph.WellFormed
import ValueFlow.Proofs.Fixpoint.SinglePass
import ValueFlow.Proofs.FlowGraph.Misplacements
import ValueFlow.Proofs.Analysis.CallsSeen
import ValueFlow.Proofs.CallGraph.Bindings
import ValueFlow.Proofs.Domain.IndexChecks
import ValueFlow.Proofs.Domain.Builtins
import ValueFlow.Proofs.PointsTo.Dispatching
import ValueFlow.Proofs.Analysis.Watching
import ValueFlow.Proofs.Program.Preorder
import ValueFlow.Proofs.Program.Ancestors
import ValueFlow.Proofs.Config.EditDistances
import ValueFlow.Proofs.Heap.Escaping
import ValueFlow.Proofs.Domain.CanonicalIntervals
