import Slicing.CallGraph

/-!
# Indexed call graphs

A call graph as it is built up: callables have positions, calls are arcs between positions, and
three tables stand beside them. One finds the position of a callable, one the callables that a
call site may reach, and one those of them that are left out. Each change keeps up the tables that
it concerns, and the questions about the graph are answered from the tables and arcs.

What is asked of a call graph once it is there does not depend on this: a plain `CallGraph` that
was built up by the same changes gives the same answers.
-/

namespace Slicing

namespace CallGraph

/-- Changes what a table holds for a key, which is something given at first. -/
def amend {κ α : Type} [BEq κ] (key : κ) (initial : α) (change : α → α) : List (κ × α) → List (κ × α)
  | [] => [(key, change initial)]
  | (k, a) :: rest =>
    if k == key then (k, change a) :: rest else (k, a) :: amend key initial change rest

/-- A call between two positions. -/
structure Arc where
  source : Nat
  target : Nat
  site : CallSiteId
  node : NodeId
  deriving DecidableEq, Repr

/-- A call graph with its tables. -/
structure Indexed where
  /-- The callables by position. -/
  labels : List CallableId := []
  /-- The calls, in the order in which they were added. -/
  arcs : List Arc := []
  /-- The positions of the callables. -/
  positions : List (CallableId × Nat) := []
  /-- The callables that each site may reach. -/
  targets : List (CallSiteId × List CallableId) := []
  /-- The callables left out that each site may reach. -/
  excluded : List (CallSiteId × List CallableId) := []

namespace Indexed

/-! ## Questions -/

/-- The position of a callable. -/
def position? (g : Indexed) (callable : CallableId) : Option Nat := g.positions.lookup callable

/-- The callable at a position; there is none beyond the last one. -/
def labelAt (g : Indexed) (position : Nat) : CallableId := g.labels.getD position ⟨0⟩

/-- The callables, in the order in which they were added. -/
def vertices (g : Indexed) : List CallableId := g.labels

/-- A call by the callables at its ends. -/
def edgeOf (g : Indexed) (arc : Arc) : CallEdge :=
  ⟨g.labelAt arc.source, g.labelAt arc.target, arc.site, arc.node⟩

/-- The calls, in the order in which they were added. -/
def edges (g : Indexed) : List CallEdge := g.arcs.map g.edgeOf

/-- A callable is a vertex. -/
def containsVertex (g : Indexed) (callable : CallableId) : Bool := (g.position? callable).isSome

/-- A call joins two callables at a site. -/
def containsEdge (g : Indexed) (caller callee : CallableId) (site : CallSiteId) : Bool :=
  match g.position? caller, g.position? callee with
  | some source, some target =>
    g.arcs.any fun arc => arc.source == source && arc.target == target && arc.site == site
  | _, _ => false

/-- The callables that a site may reach. -/
def targetsOf (g : Indexed) (site : CallSiteId) : List CallableId := (g.targets.lookup site).getD []

/-- The callables left out that a site may reach. -/
def excludedTargetsOf (g : Indexed) (site : CallSiteId) : List CallableId :=
  (g.excluded.lookup site).getD []

/-- The callables at the other ends of the arcs at a callable. -/
def neighbours (g : Indexed) (here there : Arc → Nat) (callable : CallableId) : List CallableId :=
  match g.position? callable with
  | some position =>
    ascending Ident.rank ((g.arcs.filter (here · == position)).map fun arc => g.labelAt (there arc))
  | none => []

/-- The callables that a callable may call. -/
def calleesOf (g : Indexed) (callable : CallableId) : List CallableId :=
  g.neighbours Arc.source Arc.target callable

/-- The callables that may call a callable. -/
def callersOf (g : Indexed) (callable : CallableId) : List CallableId :=
  g.neighbours Arc.target Arc.source callable

/-- The JSON form of a call graph. -/
def toJson (g : Indexed) : Json :=
  .obj [("vertices", .ofList Ident.toJson g.vertices), ("edges", .ofList CallEdge.toJson g.edges)]

/-! ## Changes -/

/-- The position of a callable, which is added if it is not there. -/
def vertex (g : Indexed) (callable : CallableId) : Indexed × Nat :=
  match g.position? callable with
  | some position => (g, position)
  | none =>
    ({ g with
        labels := g.labels ++ [callable]
        positions := g.positions ++ [(callable, g.labels.length)] }, g.labels.length)

/-- Adds a callable, unless it is there. -/
def addVertex (g : Indexed) (callable : CallableId) : Indexed := (g.vertex callable).1

/-- Adds a call and its ends, unless there is one for the same callables and site. The result tells
    whether it was added. -/
def addEdge (g : Indexed) (edge : CallEdge) : Indexed × Bool :=
  if g.containsEdge edge.caller edge.callee edge.site then (g, false)
  else
    let (g, source) := g.vertex edge.caller
    let (g, target) := g.vertex edge.callee
    ({ g with
        arcs := g.arcs ++ [⟨source, target, edge.site, edge.node⟩]
        targets := amend edge.site [] (· ++ [edge.callee]) g.targets }, true)

/-- Records that a site may reach a callable that is left out. -/
def markExcluded (g : Indexed) (site : CallSiteId) (callable : CallableId) : Indexed :=
  { g with
    excluded := amend site [] (fun callables =>
      if callables.contains callable then callables else callables ++ [callable]) g.excluded }

end Indexed

end CallGraph

end Slicing
