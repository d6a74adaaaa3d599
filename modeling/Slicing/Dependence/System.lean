import Slicing.CallGraph.Construction
import Slicing.Dependence.Procedure

/-!
# System dependence graphs

The dependences of a whole program: the graphs of its procedures, joined at every
call that the call graph lists.

* A call edge leads from the call to the entry of the callee.
* A parameter-in edge leads from an actual-in to the formal-in at the same
  position, as far as both exist; the callees of a dispatched call need not have
  the same number of parameters.
* A parameter-out edge leads from a formal-out to the actual-out for the same
  slot.

Summary edges, from an actual-in to an actual-out of one call, are added on top of
this (`Slicing.Dependence.Summary`). A call is *opaque* if what it may reach is
not all to be seen: no callee has a body, or one of them was left out.

An edge always joins two nodes of the graph: others are not added.
-/

namespace Slicing

/-- The nodes through which a callable is entered and left. -/
structure Procedure where
  callable : CallableId
  entry : NodeId
  exit : NodeId
  hasBody : Bool
  /-- One for each parameter, in order. -/
  formalIns : List NodeId
  formalOuts : List (OutputSlot × NodeId)
  deriving DecidableEq, Repr

namespace Procedure

/-- The formal-out node for a slot. -/
def formalOut? (p : Procedure) (slot : OutputSlot) : Option NodeId := p.formalOuts.lookup slot

/-- The position of a formal-in node. -/
def position? (p : Procedure) (id : NodeId) : Option Nat := p.formalIns.findIdx? (· == id)

/-- The procedure of a declared callable. -/
def ofGraph (h : Hierarchy) (g : ProcedureGraph) : Except ResolutionError Procedure :=
  match h.callable? g.callable with
  | none => .error (.unknownCallable g.callable)
  | some decl => .ok ⟨g.callable, g.entry, g.exit, decl.hasBody, g.formalIns, g.formalOuts⟩

end Procedure

/-- A call site with its nodes and the callables it may reach. -/
structure Invocation where
  site : CallSiteId
  caller : CallableId
  callNode : NodeId
  /-- One for each argument, in order. -/
  actualIns : List NodeId
  actualOuts : List (OutputSlot × NodeId)
  targets : List CallableId
  /-- The callables it may reach that were left out. -/
  excludedTargets : List CallableId
  isOpaque : Bool
  deriving DecidableEq, Repr

namespace Invocation

/-- The actual-out node for a slot. -/
def actualOut? (i : Invocation) (slot : OutputSlot) : Option NodeId := i.actualOuts.lookup slot

/-- A call site of a callable, with the targets that a call graph gives it. -/
def ofNodes (calls : CallGraph) (procedures : List Procedure) (caller : CallableId)
    (nodes : CallSiteNodes) : Invocation :=
  let targets := calls.targetsOf nodes.site.id
  let excluded := calls.excludedTargetsOf nodes.site.id
  { site := nodes.site.id, caller, callNode := nodes.callNode
    actualIns := nodes.actualIns, actualOuts := nodes.actualOuts
    targets, excludedTargets := excluded
    isOpaque := !excluded.isEmpty ||
      !targets.any fun target => procedures.any fun p => p.callable == target && p.hasBody }

end Invocation

/-- What the computation of summary edges did. -/
structure SummaryTally where
  /-- The rounds that were run, with the last one, which found nothing new. -/
  rounds : Nat := 0
  edgesAdded : Nat := 0
  /-- The edges added at opaque calls. -/
  opaqueEdges : Nat := 0
  deriving DecidableEq, Repr

/-- The JSON form of a tally. -/
def SummaryTally.toJson (tally : SummaryTally) : Json :=
  .obj [("rounds", .nat tally.rounds), ("edges_added", .nat tally.edgesAdded),
    ("opaque_edges", .nat tally.opaqueEdges)]

/-- The dependences of a program. -/
structure SystemGraph where
  nodes : List Node
  edges : List DependenceEdge
  procedures : List Procedure
  invocations : List Invocation
  tally : SummaryTally := {}

namespace SystemGraph

/-! ## Queries -/

/-- The numbers of the nodes. -/
def nodeIds (g : SystemGraph) : List NodeId := g.nodes.map (·.id)

/-- The node with a number. -/
def node? (g : SystemGraph) (id : NodeId) : Option Node := g.nodes.find? (·.id == id)

/-- A number is that of a node. -/
def contains (g : SystemGraph) (id : NodeId) : Bool := g.nodeIds.contains id

/-- What a node depends on. -/
def dependencies (g : SystemGraph) (id : NodeId) : List (NodeId × Dependence) :=
  (g.edges.filter (·.target == id)).map fun e => (e.source, e.dependence)

/-- What depends on a node. -/
def dependents (g : SystemGraph) (id : NodeId) : List (NodeId × Dependence) :=
  (g.edges.filter (·.source == id)).map fun e => (e.target, e.dependence)

/-- The last node that stands for a source element. -/
def nodeForElement? (g : SystemGraph) (element : ElementId) : Option NodeId :=
  (g.nodes.reverse.find? (·.element == some element)).map (·.id)

/-- The nodes that stand for source elements starting on a line. -/
def nodesOnLine (g : SystemGraph) (line : UInt32) : List NodeId :=
  ascending NodeId.rank <|
    (g.nodes.filter fun node => node.element.isSome && node.line? == some line).map (·.id)

/-- The procedure of a callable. -/
def procedure? (g : SystemGraph) (callable : CallableId) : Option Procedure :=
  g.procedures.find? (·.callable == callable)

/-- The invocation at a call site. -/
def invocation? (g : SystemGraph) (site : CallSiteId) : Option Invocation :=
  g.invocations.find? (·.site == site)

/-- A call site is known to be opaque. -/
def isOpaqueAt (g : SystemGraph) (site : CallSiteId) : Bool :=
  match g.invocation? site with
  | some i => i.isOpaque
  | none => false

/-- The summary edges, with the call sites they belong to. -/
def summaryEdges (g : SystemGraph) : List (NodeId × NodeId × CallSiteId) :=
  g.edges.filterMap fun e =>
    match e.dependence with
    | .summary site => some (e.source, e.target, site)
    | _ => none

/-- The number of edges of a kind. -/
def count (g : SystemGraph) (kind : DependenceKind) : Nat :=
  g.edges.countP (·.dependence.kind == kind)

/-- The number of edges, kind by kind. -/
def totalEdges (g : SystemGraph) : Nat :=
  DependenceKind.all.foldr (fun kind total => g.count kind + total) 0

/-- The numbers of procedures, call sites, nodes and edges of a graph. -/
def statsJson (g : SystemGraph) : Json :=
  .obj [("procedures", .nat g.procedures.length), ("call_sites", .nat g.invocations.length),
    ("nodes", .nat g.nodes.length), ("control_edges", .nat (g.count .control)),
    ("data_edges", .nat (g.count .data)), ("call_edges", .nat (g.count .call)),
    ("param_in_edges", .nat (g.count .parameterIn)),
    ("param_out_edges", .nat (g.count .parameterOut)),
    ("summary_edges", .nat (g.count .summary))]

/-! ## Assembly -/

/-- Both ends of an edge are nodes. -/
def joins (nodes : List Node) (edge : DependenceEdge) : Bool :=
  nodes.any (·.id == edge.source) && nodes.any (·.id == edge.target)

/-- The edges between a call and one of its callees. -/
def interfaceEdges (i : Invocation) (p : Procedure) : List DependenceEdge :=
  [⟨i.callNode, p.entry, .call i.site⟩] ++
  ((i.actualIns.zip p.formalIns).zipIdx.map fun ((actual, formal), position) =>
    ⟨actual, formal, .parameterIn position⟩) ++
  i.actualOuts.filterMap fun (slot, actual) =>
    (p.formalOut? slot).map fun formal => ⟨formal, actual, .parameterOut slot⟩

/-- The edges for an edge of the call graph, which must name a call site of the
    caller, with its node, and a procedure. -/
def linkEdges (procedures : List Procedure) (invocations : List Invocation) (edge : CallEdge) :
    Except ResolutionError (List DependenceEdge) :=
  match invocations.find? (·.site == edge.site) with
  | none => .error (.callNodeNotFound edge.site edge.caller)
  | some i =>
    if i.caller = edge.caller ∧ i.callNode = edge.node then
      match procedures.find? (·.callable == edge.callee) with
      | none => .error (.unknownCallable edge.callee)
      | some p => .ok (interfaceEdges i p)
    else .error (.callNodeNotFound edge.site edge.caller)

/-- The dependences of a program without summary edges, of the graphs of its
    procedures in ascending order of their callables. Of several call sites with one
    number the last counts. -/
def assemble (h : Hierarchy) (calls : CallGraph) (graphs : List ProcedureGraph) :
    Except ResolutionError SystemGraph := do
  let nodes := graphs.flatMap (·.nodes)
  let procedures ← graphs.mapM (Procedure.ofGraph h)
  let invocations := latest (·.site.rank) <| graphs.flatMap fun g =>
    g.callSites.map (Invocation.ofNodes calls procedures g.callable)
  let links ← calls.edges.mapM (linkEdges procedures invocations)
  let edges := (graphs.flatMap (·.edges) ++ links.flatten).filter (joins nodes)
  return { nodes, edges, procedures, invocations }

end SystemGraph

end Slicing
