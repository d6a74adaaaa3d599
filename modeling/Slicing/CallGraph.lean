import Slicing.Ascending
import Slicing.Ident
import Slicing.Json.Basic

/-!
# Call graphs

A call graph joins callables by the call sites through which one may call
another. A site that is dispatched at run time has an edge to each callable it
may reach. Callables that cannot be analysed are left out of the graph; that a
site may reach one of them is recorded apart from the edges.

There is at most one edge for a caller, a callee and a site. What is listed comes
in the order of insertion, sets of callables in ascending order.
-/

namespace Slicing

/-- A call of one callable by another. -/
structure CallEdge where
  caller : CallableId
  callee : CallableId
  site : CallSiteId
  /-- The node of the call in the flow graph of the caller. -/
  node : NodeId
  deriving DecidableEq, Repr

/-- The JSON form of an edge. -/
def CallEdge.toJson (edge : CallEdge) : Json :=
  .obj [("caller", edge.caller.toJson), ("callee", edge.callee.toJson),
    ("call_site", edge.site.toJson), ("call_node", edge.node.toJson)]

/-- Who may call whom, and where. -/
structure CallGraph where
  vertices : List CallableId
  edges : List CallEdge
  /-- The callables left out that a site may reach. -/
  excluded : List (CallSiteId × CallableId)

namespace CallGraph

/-- The graph without vertices. -/
def empty : CallGraph := ⟨[], [], []⟩

/-- An edge joins two callables at a site. -/
def containsEdge (g : CallGraph) (caller callee : CallableId) (site : CallSiteId) : Bool :=
  g.edges.any fun e => e.caller == caller && e.callee == callee && e.site == site

/-- A callable is a vertex. -/
def containsVertex (g : CallGraph) (callable : CallableId) : Bool := g.vertices.contains callable

/-- Adds a vertex, unless there is one. -/
def addVertex (g : CallGraph) (callable : CallableId) : CallGraph :=
  if g.containsVertex callable then g else { g with vertices := g.vertices ++ [callable] }

/-- Adds an edge and its ends, unless there is one for the same callables and
    site. -/
def addEdge (g : CallGraph) (edge : CallEdge) : CallGraph :=
  if g.containsEdge edge.caller edge.callee edge.site then g
  else
    let g := (g.addVertex edge.caller).addVertex edge.callee
    { g with edges := g.edges ++ [edge] }

/-- Records that a site may reach a callable that is left out. -/
def markExcluded (g : CallGraph) (site : CallSiteId) (callable : CallableId) : CallGraph :=
  if g.excluded.contains (site, callable) then g
  else { g with excluded := g.excluded ++ [(site, callable)] }

/-- The callables that a site may reach. -/
def targetsOf (g : CallGraph) (site : CallSiteId) : List CallableId :=
  (g.edges.filter (·.site == site)).map (·.callee)

/-- The callables left out that a site may reach. -/
def excludedTargetsOf (g : CallGraph) (site : CallSiteId) : List CallableId :=
  (g.excluded.filter (·.1 == site)).map (·.2)

/-- The callables that a callable may call. -/
def calleesOf (g : CallGraph) (callable : CallableId) : List CallableId :=
  ascending Ident.rank ((g.edges.filter (·.caller == callable)).map (·.callee))

/-- The callables that may call a callable. -/
def callersOf (g : CallGraph) (callable : CallableId) : List CallableId :=
  ascending Ident.rank ((g.edges.filter (·.callee == callable)).map (·.caller))

/-- The JSON form of a call graph. -/
def toJson (g : CallGraph) : Json :=
  .obj [("vertices", .ofList Ident.toJson g.vertices), ("edges", .ofList CallEdge.toJson g.edges)]

end CallGraph

end Slicing
