import Slicing.Dependence.Summary
import Slicing.Flow.Lowering
import Slicing.Flow.Structure
import Slicing.Program.Decoding
import Slicing.Slice.Slicer

/-!
# The analysis of a program

From the declarations of a program to its system dependence graph:

1. the type hierarchy;
2. for each callable its flow graph, which must be well formed, and the control
   and data dependences in it;
3. the call graph;
4. the dependence graph of each callable;
5. the system dependence graph.

A callable may fail the second stage. Either the first failure ends the analysis, or
the callables that fail are left out: calls of them are opaque.
-/

namespace Slicing

/-- The dependences within a callable. -/
structure LocalAnalysis where
  graph : FlowGraph
  control : List ControlDependence
  data : List DataDependence

namespace LocalAnalysis

/-- Analyses a flow graph, which must be well formed. -/
def ofGraph (g : FlowGraph) : Except Error LocalAnalysis := do
  g.checkStructure
  let control ← g.controlDependences
  return ⟨g, control, g.reachingDefinitions.dependences g⟩

/-- The dependences as a graph. -/
def toProcedureGraph (a : LocalAnalysis) : ProcedureGraph := .assemble a.graph a.control a.data

end LocalAnalysis

/-- A callable that cannot be analysed. -/
structure Failure where
  callable : CallableId
  error : Error
  deriving DecidableEq, Repr

/-- The analysis of each callable, in the order of declaration. The nodes are numbered
    from zero on. -/
def Hierarchy.analyseCallables (h : Hierarchy) (decls : List CallableDecl) :
    List (CallableId × Except Error LocalAnalysis) :=
  (FlowGraph.buildAll h decls 0).1.map fun (decl, graph) => (decl.id, graph >>= LocalAnalysis.ofGraph)

/-- What is known about a program. -/
structure Analysis where
  hierarchy : Hierarchy
  /-- The number of declarations of callables. -/
  callableCount : Nat
  /-- The callables that were analysed, in ascending order. -/
  callables : List LocalAnalysis
  /-- The callables that were not, in the order of declaration. -/
  failures : List Failure
  callGraph : CallGraph
  system : SystemGraph
  /-- How slices are made unless something else is asked for. -/
  slicing : SliceConfig

namespace Analysis

/-- The names of the stages. -/
def stages : List String := ["type_hierarchy", "intraprocedural", "call_graph", "pdg", "sdg"]

/-- The analyses that succeeded, in ascending order of their callables. Of several
    declarations with one number the last counts. -/
def successes (outcomes : List (CallableId × Except Error LocalAnalysis)) : List LocalAnalysis :=
  latest (·.graph.callable.rank) <| outcomes.filterMap fun (_, outcome) => outcome.toOption

/-- The analyses that failed. -/
def failuresOf (outcomes : List (CallableId × Except Error LocalAnalysis)) : List Failure :=
  outcomes.filterMap fun (callable, outcome) =>
    match outcome with
    | .ok _ => none
    | .error e => some ⟨callable, e⟩

/-- The first failure ends an analysis if it is to. -/
def checkFailures (config : Config) (failures : List Failure) : Except Error Unit :=
  match config.failFast, failures with
  | true, failure :: _ => .error failure.error
  | _, _ => .ok ()

/-- Analyses a program. -/
def run (config : Config) (program : Program) : Except Error Analysis := do
  config.validate.mapError .config
  let hierarchy ← (Hierarchy.ofProgram program).mapError .resolution
  let outcomes := hierarchy.analyseCallables program.callables
  let failures := failuresOf outcomes
  checkFailures config failures
  let callables := successes outcomes
  let callGraph ← (CallGraph.ofFlowGraphs hierarchy (failures.map (·.callable))
    (callables.map (·.graph))).mapError .resolution
  let system ← SystemGraph.build config.summaries hierarchy callGraph
    (callables.map (·.toProcedureGraph))
  return { hierarchy, callableCount := program.callables.length, callables, failures, callGraph
           system, slicing := config.slicing }

/-- Analyses the program that a text holds. -/
def ofText (config : Config) (text : String) : Except Error Analysis := do
  run config (← (Program.parse text).mapError .input)

/-- All callables were analysed. -/
def isComplete (a : Analysis) : Bool := a.failures.isEmpty

/-- A slicer as the analysis was configured. -/
def slicer (a : Analysis) : Except Error Slicer := Slicer.new a.system a.slicing

/-- A slice in the configured direction. -/
def slice (a : Analysis) (c : Criterion) : Except Error Slice := do
  ((← a.slicer).ask (.configured a.slicing c)).1

/-- The outcome of an analysis in numbers, with the failures and their errors. -/
def summaryJson (a : Analysis) : Json :=
  .obj [("callables", .nat a.callableCount),
    ("failures", .ofList (fun (f : Failure) =>
      .obj [("callable", f.callable.toJson), ("error", .str f.error.message)]) a.failures),
    ("call_graph_edges", .nat a.callGraph.edges.length), ("sdg", a.system.statsJson),
    ("summary", a.system.tally.toJson)]

end Analysis

end Slicing
