import Slicing.Config.Basic
import Slicing.Slice.Criterion

/-!
# Traversals

A slice follows edges from its criterion, against their direction if it looks for
what influences the criterion, along it otherwise. Which edges it may follow is
decided by their kind, and for those between callables by the *phase*.

Plain reachability follows all of them. It may enter a callee from one call and
leave it to another. In two phases this does not happen: the first phase never
descends into callees, and the second, which starts from everything found by the
first, never ascends to callers. Summary edges stand for the calls that are passed
by.

If the criterion has a variable, only data dependences that carry it are followed
from the criterion itself: backward, if the variable is read there, forward, if
it is written there. Other nodes are not restricted.
-/

namespace Slicing

/-- How far a traversal may move between callables. -/
inductive Phase where
  /-- Everywhere. -/
  | full
  /-- To callers only. -/
  | ascend
  /-- To callees only. -/
  | descend
  deriving DecidableEq, Repr

/-- A move between callables. -/
inductive Crossing where
  | intoCaller
  | intoCallee
  deriving DecidableEq, Repr

/-- The move between callables that following a dependence in a direction makes. -/
def Dependence.crossing? (direction : Direction) : Dependence → Option Crossing
  | .call _ | .parameterIn _ =>
    match direction with
    | .backward => some .intoCaller
    | .forward => some .intoCallee
  | .parameterOut _ =>
    match direction with
    | .backward => some .intoCallee
    | .forward => some .intoCaller
  | .control | .data _ | .summary _ => none

/-- A phase allows a move. -/
def Phase.allows : Phase → Crossing → Bool
  | .full, _ => true
  | .ascend, crossing => crossing == .intoCaller
  | .descend, crossing => crossing == .intoCallee

/-- What a traversal follows. -/
structure Traversal where
  direction : Direction
  strategy : Strategy
  /-- Whether control dependences and call edges are followed. -/
  includeControl : Bool
  /-- Whether all summary edges are followed. Those of opaque calls always are. -/
  useSummaries : Bool
  deriving DecidableEq, Repr

namespace Traversal

/-- A dependence may be followed in a phase. -/
def admits (t : Traversal) (g : SystemGraph) (phase : Phase) (d : Dependence) : Bool :=
  let allowed := match d.crossing? t.direction with
    | some crossing => phase.allows crossing
    | none => true
  match d with
  | .control => t.includeControl
  | .data _ => true
  | .call _ => t.includeControl && allowed
  | .parameterIn _ | .parameterOut _ => allowed
  | .summary site => t.useSummaries || g.isOpaqueAt site

/-- Where edges lead to from a node: their other ends with what they are. -/
def neighbours (t : Traversal) (g : SystemGraph) (id : NodeId) : List (NodeId × Dependence) :=
  match t.direction with
  | .backward => g.dependencies id
  | .forward => g.dependents id

/-- The start of a traversal, and the variable that the dependences followed from it
    must carry. -/
structure Origin where
  node : NodeId
  var : Option String
  deriving DecidableEq, Repr

/-- A dependence may be followed from a node, as far as the variable of the origin is
    concerned. -/
def Origin.admits (origin : Origin) (id : NodeId) (d : Dependence) : Bool :=
  match origin.var, d.carried? with
  | some var, some carried => id != origin.node || carried == var
  | _, _ => true

/-- The steps that a traversal takes in a phase. -/
def steps (t : Traversal) (g : SystemGraph) (origin : Origin) (phase : Phase) : Digraph NodeId where
  vertices := g.nodeIds
  next id := ((t.neighbours g id).filter fun (_, d) => t.admits g phase d && origin.admits id d).map
    (·.1)

/-- The nodes that a traversal finds. -/
def found (t : Traversal) (g : SystemGraph) (origin : Origin) : List NodeId :=
  match t.strategy with
  | .closure => (t.steps g origin .full).reach origin.node
  | .twoPhase => (t.steps g origin .descend).reachAll ((t.steps g origin .ascend).reach origin.node)

/-- A node reads or writes a variable, so that it restricts a direction. -/
def restricts (node : Node) (var : String) : Direction → Bool
  | .backward => node.reads var
  | .forward => node.defines var

/-- Where a traversal for a criterion starts, the criterion being located at a
    node. -/
def origin (t : Traversal) (g : SystemGraph) (c : Criterion) (id : NodeId) :
    Except CriterionError Origin :=
  match g.node? id, c.var with
  | none, _ => .error (.noNode id)
  | some _, none => .ok ⟨id, none⟩
  | some node, some var =>
    if node.reads var || node.defines var then
      .ok ⟨id, if restricts node var t.direction then some var else none⟩
    else .error (.unrelatedVariable var id)

/-- The nodes that a traversal finds for a criterion located at a node. -/
def reach (t : Traversal) (g : SystemGraph) (c : Criterion) (id : NodeId) :
    Except CriterionError (List NodeId) :=
  t.found g <$> t.origin g c id

end Traversal

end Slicing
