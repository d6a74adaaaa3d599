import Slicing.Ascending
import Slicing.Digraph
import Slicing.Edge
import Slicing.Program.Basic

/-!
# Flow graphs

The control flow of one callable. A flow graph starts from its entry and exit,
which keep the first two positions among its nodes, and grows by nodes and arcs.
A position stays with its node, while a number may be given to several nodes: a
number always names the newest of them.

The *exit head* is where the sequence of nodes that leads out of the callable
starts: the first formal-out node, or the exit itself. The heads of loops
without a way out are flagged; the analyses that need a way to the exit from
everywhere let them step to the exit head (`FlowGraph.steps`).
-/

namespace Slicing

/-- The nodes made for a call site. -/
structure CallSiteNodes where
  site : CallSite
  callNode : NodeId
  /-- One for each argument, in order. -/
  actualIns : List NodeId
  actualOuts : List (OutputSlot × NodeId)

/-- The actual-out node for a slot. -/
def CallSiteNodes.actualOut? (nodes : CallSiteNodes) (slot : OutputSlot) : Option NodeId :=
  nodes.actualOuts.lookup slot

/-- An arc of control flow between two positions. -/
structure FlowArc where
  source : Nat
  target : Nat
  edge : FlowEdge
  deriving DecidableEq, Repr

/-- The control flow of a callable. -/
structure FlowGraph where
  callable : CallableId
  entry : Node
  exit : Node
  /-- The nodes behind entry and exit, in the order in which they were made. -/
  inner : List Node := []
  /-- The arcs, in the order in which they were made. -/
  arcs : List FlowArc := []
  /-- The position of the exit head. -/
  exitHead : Nat := 1
  /-- One node for each parameter, in order. -/
  formalIns : List NodeId := []
  formalOuts : List (OutputSlot × NodeId) := []
  callSites : List CallSiteNodes := []
  /-- The heads of the loops that never reach the exit. -/
  nonTerminating : List NodeId := []
  /-- The statements, cases and clauses without a node, as nothing leads to them. -/
  unreachable : List ElementId := []

namespace FlowGraph

/-- The position of the entry. -/
def entryPosition : Nat := 0

/-- The position of the exit. -/
def exitPosition : Nat := 1

/-- The nodes by position. -/
def nodes (g : FlowGraph) : List Node := g.entry :: g.exit :: g.inner

/-- The number of nodes. -/
def size (g : FlowGraph) : Nat := g.nodes.length

/-- The position of the newest node with a number. -/
def position? (g : FlowGraph) (id : NodeId) : Option Nat :=
  (g.nodes.reverse.findIdx? (·.id == id)).map (g.size - 1 - ·)

/-- The node at a position; beyond the last one, the exit. -/
def nodeAt (g : FlowGraph) (position : Nat) : Node := g.nodes.getD position g.exit

/-- The number of the node at a position. -/
def idAt (g : FlowGraph) (position : Nat) : NodeId := (g.nodeAt position).id

/-- The newest node with a number. -/
def node? (g : FlowGraph) (id : NodeId) : Option Node := g.nodes.reverse.find? (·.id == id)

/-- The first node that stands for a source element. -/
def nodeForElement? (g : FlowGraph) (element : ElementId) : Option Node :=
  g.nodes.find? (·.element == some element)

/-- Adds a node. -/
def addNode (g : FlowGraph) (node : Node) : FlowGraph := { g with inner := g.inner ++ [node] }

/-- Adds an arc between the newest nodes with two numbers, if both exist. -/
def addArc (g : FlowGraph) (source target : NodeId) (edge : FlowEdge) : FlowGraph :=
  match g.position? source, g.position? target with
  | some source, some target => { g with arcs := g.arcs ++ [⟨source, target, edge⟩] }
  | _, _ => g

/-- Makes the newest node with a number the exit head. -/
def setExitHead (g : FlowGraph) (id : NodeId) : FlowGraph :=
  match g.position? id with
  | some position => { g with exitHead := position }
  | none => g

/-! ## Arcs -/

/-- The arcs out of a position. -/
def arcsFrom (g : FlowGraph) (position : Nat) : List FlowArc :=
  g.arcs.filter (·.source == position)

/-- The arcs into a position. -/
def arcsInto (g : FlowGraph) (position : Nat) : List FlowArc :=
  g.arcs.filter (·.target == position)

/-- The arcs by the numbers of their ends. -/
def edges (g : FlowGraph) : List (NodeId × NodeId × FlowEdge) :=
  g.arcs.map fun arc => (g.idAt arc.source, g.idAt arc.target, arc.edge)

/-- The arcs out of a node by the numbers of their targets. -/
def outEdges (g : FlowGraph) (id : NodeId) : List (NodeId × FlowEdge) :=
  match g.position? id with
  | some position => (g.arcsFrom position).map fun arc => (g.idAt arc.target, arc.edge)
  | none => []

/-- The numbers of the nodes that follow a node. -/
def successors (g : FlowGraph) (id : NodeId) : List NodeId :=
  match g.position? id with
  | some position =>
    ascending NodeId.rank ((g.arcsFrom position).map fun arc => g.idAt arc.target)
  | none => []

/-- The numbers of the nodes that a node follows. -/
def predecessors (g : FlowGraph) (id : NodeId) : List NodeId :=
  match g.position? id with
  | some position =>
    ascending NodeId.rank ((g.arcsInto position).map fun arc => g.idAt arc.source)
  | none => []

/-! ## Steps -/

/-- The ways from position to position: the arcs, and a step from each flagged
    loop head to the exit head. -/
def steps (g : FlowGraph) : List (Nat × Nat) :=
  (g.arcs.map fun arc => (arc.source, arc.target)) ++
    (g.nonTerminating.filterMap g.position?).map fun head => (head, g.exitHead)

/-- The positions that a list of steps leads to from a position, each once. -/
def stepTargets (steps : List (Nat × Nat)) (position : Nat) : List Nat :=
  ((steps.filter (·.1 == position)).map (·.2)).eraseDups

/-- The positions from which a list of steps leads to a position, each once. -/
def stepSources (steps : List (Nat × Nat)) (position : Nat) : List Nat :=
  ((steps.filter (·.2 == position)).map (·.1)).eraseDups

/-- The positions of a graph. -/
def positions (g : FlowGraph) : List Nat := List.range g.size

/-- The positions that are reached from a position. -/
def reachedFrom (g : FlowGraph) (position : Nat) : List Nat :=
  Digraph.reach ⟨g.positions, stepTargets g.steps⟩ position

/-- The positions from which a position is reached. -/
def reaching (g : FlowGraph) (position : Nat) : List Nat :=
  Digraph.reach ⟨g.positions, stepSources g.steps⟩ position

/-- The JSON form of a graph: its nodes and arcs with their labels. -/
def toJson (g : FlowGraph) : Json :=
  .obj [("callable", g.callable.toJson), ("entry", g.entry.id.toJson), ("exit", g.exit.id.toJson),
    ("nodes", .ofList (fun (node : Node) => .obj [("id", node.id.toJson),
      ("kind", .str node.kind.label), ("label", .str node.shortLabel)]) g.nodes),
    ("edges", .ofList (fun (source, target, edge) => .obj [("from", source.toJson),
      ("to", target.toJson), ("label", .str edge.label)]) g.edges)]

end FlowGraph

end Slicing
