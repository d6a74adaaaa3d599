import Slicing.Flow.ControlDependence
import Slicing.Flow.ReachingDefinitions

/-!
# Procedure dependence graphs

The dependences within one callable: the nodes of its flow graph, joined by
control dependence and by data dependence.
-/

namespace Slicing

/-- A dependence between two nodes. -/
structure DependenceEdge where
  source : NodeId
  target : NodeId
  dependence : Dependence
  deriving DecidableEq, Repr

/-- An edge with its label. -/
def DependenceEdge.toJson (edge : DependenceEdge) : Json :=
  .obj [("from", edge.source.toJson), ("to", edge.target.toJson),
    ("label", .str edge.dependence.label)]

/-- The dependences within a callable. -/
structure ProcedureGraph where
  callable : CallableId
  entry : NodeId
  exit : NodeId
  nodes : List Node
  /-- The control dependences, and behind them the data dependences. -/
  edges : List DependenceEdge
  formalIns : List NodeId
  formalOuts : List (OutputSlot × NodeId)
  callSites : List CallSiteNodes

/-- A control dependence as an edge. -/
def ControlDependence.toEdge (d : ControlDependence) : DependenceEdge :=
  ⟨d.controller, d.dependent, .control⟩

/-- A data dependence as an edge. -/
def DataDependence.toEdge (d : DataDependence) : DependenceEdge :=
  ⟨d.source, d.target, .data d.var⟩

namespace ProcedureGraph

/-- The dependences between the nodes of a flow graph. -/
def assemble (g : FlowGraph) (control : List ControlDependence) (data : List DataDependence) :
    ProcedureGraph where
  callable := g.callable
  entry := g.entry.id
  exit := g.exit.id
  nodes := g.nodes
  edges := control.map (·.toEdge) ++ data.map (·.toEdge)
  formalIns := g.formalIns
  formalOuts := g.formalOuts
  callSites := g.callSites

/-- What a node depends on. -/
def dependencies (p : ProcedureGraph) (id : NodeId) : List (NodeId × Dependence) :=
  (p.edges.filter (·.target == id)).map fun e => (e.source, e.dependence)

/-- What depends on a node. -/
def dependents (p : ProcedureGraph) (id : NodeId) : List (NodeId × Dependence) :=
  (p.edges.filter (·.source == id)).map fun e => (e.target, e.dependence)

/-- The numbers of nodes and edges. -/
def statsJson (p : ProcedureGraph) : Json :=
  .obj [("node_count", .nat p.nodes.length), ("edge_count", .nat p.edges.length),
    ("control_edges", .nat (p.edges.countP (·.dependence.kind == .control))),
    ("data_edges", .nat (p.edges.countP (·.dependence.kind == .data)))]

/-- The JSON form of a graph. -/
def toJson (p : ProcedureGraph) : Json :=
  .obj [("callable", p.callable.toJson), ("entry", p.entry.toJson),
    ("nodes", .ofList (fun (node : Node) => .obj [("id", node.id.toJson),
      ("kind", .str node.kind.label), ("label", .str node.shortLabel),
      ("defs", .strings node.defs), ("uses", .strings node.uses)]) p.nodes),
    ("edges", .ofList DependenceEdge.toJson p.edges)]

end ProcedureGraph

end Slicing
