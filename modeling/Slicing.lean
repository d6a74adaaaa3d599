import Slicing.Analysis
import Slicing.Ascending
import Slicing.CallGraph
import Slicing.CallGraph.Construction
import Slicing.CallGraph.Indexed
import Slicing.Config.Basic
import Slicing.Config.Document
import Slicing.Config.Encoding
import Slicing.Config.Validation
import Slicing.Dependence.Procedure
import Slicing.Dependence.Summary
import Slicing.Dependence.System
import Slicing.Digraph
import Slicing.Digraph.DepthFirst
import Slicing.Edge
import Slicing.Error
import Slicing.Flow.ControlDependence
import Slicing.Flow.Graph
import Slicing.Flow.Lowering
import Slicing.Flow.PostDominance
import Slicing.Flow.ReachingDefinitions
import Slicing.Flow.Structure
import Slicing.Hierarchy
import Slicing.Ident
import Slicing.Json.Basic
import Slicing.Json.Decoder
import Slicing.Json.Number
import Slicing.Json.Parser
import Slicing.Json.Printer
import Slicing.Json.Token
import Slicing.Node
import Slicing.Program.Basic
import Slicing.Program.Builder
import Slicing.Program.Decoding
import Slicing.Program.Encoding
import Slicing.Resolution
import Slicing.Slice.Basic
import Slicing.Slice.Criterion
import Slicing.Slice.Slicer
import Slicing.Slice.Traversal
import Slicing.Span
import Slicing.Yaml.Basic
import Slicing.Yaml.Cursor
import Slicing.Yaml.Parser
import Slicing.Yaml.Printer
import Slicing.Yaml.Scalar
import Slicing.Yaml.Token
import Slicing.Proofs.Flow.Execution
import Slicing.Proofs.Flow.Graph
import Slicing.Proofs.Flow.Steps
import Slicing.Proofs.Flow.Derivation
import Slicing.Proofs.Flow.Growth
import Slicing.Proofs.Flow.Inversion
import Slicing.Proofs.Flow.Progress
import Slicing.Proofs.Flow.PostDominance
import Slicing.Proofs.Flow.TreeGrowth
import Slicing.Proofs.Flow.PostDominatorTree
import Slicing.Proofs.Flow.Formed
import Slicing.Proofs.Flow.Callable
import Slicing.Proofs.Flow.Stages
import Slicing.Proofs.Flow.Placement
import Slicing.Proofs.Flow.Apart
import Slicing.Proofs.Flow.Routing
import Slicing.Proofs.Flow.Coverage
import Slicing.Proofs.Flow.Paths
import Slicing.Proofs.Slice.Closure
import Slicing.Proofs.Dependence.Assembly
import Slicing.Proofs.Dependence.Summaries
import Slicing.Proofs.Dependence.Gains
import Slicing.Proofs.Dependence.RoundLimit
import Slicing.Proofs.Slice.Shortcut
import Slicing.Proofs.BreadthFirst
import Slicing.Proofs.Resolution
import Slicing.Proofs.Dispatch
import Slicing.Proofs.SubtypeOrder
import Slicing.Proofs.Flow.CallControl
import Slicing.Proofs.Flow.Numbers
import Slicing.Proofs.Flow.Balance
import Slicing.Proofs.Flow.Records
import Slicing.Proofs.Dependence.Analysis
import Slicing.Proofs.Slice.Realizable
import Slicing.Proofs.Slice.Duality
import Slicing.Proofs.Slice.Cache
import Slicing.Proofs.Dependence.Recomputation
import Slicing.Proofs.Slice.Thin
import Slicing.Proofs.Dependence.Exactness
import Slicing.Proofs.Flow.Segments
import Slicing.Proofs.Flow.Sites
import Slicing.Proofs.StaticMethods
import Slicing.Proofs.CallGraph
import Slicing.Proofs.CallGraph.Indexed
import Slicing.Proofs.Analysis.Outcomes
import Slicing.Proofs.Analysis.Isolation
import Slicing.Proofs.Analysis.FailFast
import Slicing.Proofs.Renumbering.Flow
import Slicing.Proofs.Renumbering.Lowering
import Slicing.Proofs.Renumbering.Dependence
import Slicing.Proofs.Renumbering.Slice
import Slicing.Proofs.Analysis.Order
import Slicing.Proofs.Flow.ControlDependence
import Slicing.Proofs.Flow.ReachingDefinitions
import Slicing.Proofs.Flow.DataDependence
import Slicing.Proofs.Flow.Sequences
import Slicing.Proofs.Flow.CallResults
import Slicing.Proofs.Flow.StraightLine
import Slicing.Proofs.Flow.Places
import Slicing.Proofs.Flow.Surroundings
import Slicing.Proofs.Flow.Spot
import Slicing.Proofs.Flow.EmptyFinalizer
import Slicing.Proofs.Analysis.StraightLine
import Slicing.Proofs.Json.Text
import Slicing.Proofs.Json.Records
import Slicing.Proofs.Yaml.Words
import Slicing.Proofs.Yaml.Layout
import Slicing.Proofs.Yaml.Text
import Slicing.Proofs.Config
import Slicing.Proofs.Program
import Slicing.Proofs.Flow.Finalizers
import Slicing.Proofs.Flow.Exceptions
import Slicing.Proofs.RuntimeExceptions
import Slicing.Proofs.Analysis.EntryControl
import Slicing.Proofs.Slice.Variables
import Slicing.Proofs.Slice.Chop
import Slicing.Proofs.Slice.SourceLines
