import Slicing.CallGraph
import Slicing.Flow.Graph
import Slicing.Resolution

/-!
# The call graph of a program

The call graph of some flow graphs has every declared callable for a vertex, and
an edge from each call site to each callable that the site may reach. Callables
that are left out get neither vertex nor edge; the sites that may reach them are
marked.
-/

namespace Slicing

/-- The calls that a flow graph makes, in the order of its call sites. -/
def FlowGraph.callEdges (h : Hierarchy) (g : FlowGraph) : Except ResolutionError (List CallEdge) :=
  match h.callable? g.callable with
  | none => .error (.unknownCallable g.callable)
  | some caller => do
    let calls ← g.callSites.mapM fun nodes => do
      let callees ← h.resolve caller nodes.site
      return callees.map fun callee => (⟨caller.id, callee, nodes.site.id, nodes.callNode⟩ : CallEdge)
    return calls.flatten

namespace CallGraph

/-- Adds a call, or marks its site if the callee is left out. -/
def addCall (excluded : List CallableId) (g : CallGraph) (edge : CallEdge) : CallGraph :=
  if excluded.contains edge.callee then g.markExcluded edge.site edge.callee else g.addEdge edge

/-- The declared callables without those left out, and no edges. -/
def ofHierarchy (h : Hierarchy) (excluded : List CallableId) : CallGraph :=
  (h.callableIds.filter fun callable => !excluded.contains callable).foldl addVertex .empty

/-- The call graph of some flow graphs. All calls are resolved before any is
    added, and the first that cannot be is the error. -/
def ofFlowGraphs (h : Hierarchy) (excluded : List CallableId) (graphs : List FlowGraph) :
    Except ResolutionError CallGraph := do
  let calls ← graphs.mapM (FlowGraph.callEdges h)
  return calls.flatten.foldl (addCall excluded) (ofHierarchy h excluded)

end CallGraph

end Slicing
