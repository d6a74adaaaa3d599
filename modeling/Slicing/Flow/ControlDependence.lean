import Slicing.Error
import Slicing.Flow.PostDominance

/-!
# Control dependence

A node is control dependent on one with several ways to go on if one of these
ways leads to it for certain, while without that way it may be missed. The
positions that one way leads to for certain are its target and the
post-dominators of the target; those up to the immediate post-dominator of the
controller are the ones that are not certain anyway.

A step from the entry to the exit makes the entry the controller of whatever
runs in every case.
-/

namespace Slicing

/-- One node decides whether another one runs. -/
structure ControlDependence where
  controller : NodeId
  dependent : NodeId
  deriving DecidableEq, Repr

namespace FlowGraph

/-- The steps of a graph with one from its entry to its exit. -/
def controlSteps (g : FlowGraph) : FlowSteps :=
  ⟨g.size, exitPosition, g.steps ++ [(entryPosition, exitPosition)]⟩

/-- The positions from one up the chain of immediate post-dominators, without
    the exit, up to a position where it ends. The chain has at most as many
    members as there are positions, which bounds its length. -/
def chain (parent? : Nat → Option Nat) (stop : Option Nat) : Nat → Nat → List Nat
  | 0, _ => []
  | bound + 1, v =>
    if some v = stop ∨ v = exitPosition then []
    else v :: match parent? v with
      | some parent => chain parent? stop bound parent
      | none => []

/-- The positions that depend on a position, in the order of its ways to go on. -/
def controlledBy (f : FlowSteps) (parent? : Nat → Option Nat) (v : Nat) : List Nat :=
  let ways := f.targets v
  if ways.length < 2 then []
  else (ways.flatMap (chain parent? (parent? v) f.size)).eraseDups

/-- The pairs of a position and one that depends on it. -/
def controlPairs (f : FlowSteps) (parent? : Nat → Option Nat) : List (Nat × Nat) :=
  f.positions.flatMap fun v => (controlledBy f parent? v).map fun w => (v, w)

/-- A controller has several ways to go on, or is the entry or a flagged head. -/
def isBranch (g : FlowGraph) (position : Nat) : Bool :=
  position == entryPosition || 2 ≤ (g.successors (g.idAt position)).length ||
    g.nonTerminating.contains (g.idAt position)

/-- The immediate post-dominators of some steps, by position. -/
def immediatePostDominators (f : FlowSteps) : Array (Option Nat) :=
  (PostDominatorTree.compute f.adjacency).parents

/-- The control dependences of a graph in which each node but the exit has an
    immediate post-dominator. -/
def controlDependences (g : FlowGraph) : Except Error (List ControlDependence) :=
  let f := g.controlSteps
  let parents := immediatePostDominators f
  let parent? (v : Nat) : Option Nat := (parents[v]?).join
  match f.positions.find? fun v => v != exitPosition && (parent? v).isNone with
  | some v => .error (.structural g.callable (.noPostDominator (g.idAt v)))
  | none =>
    let pairs := controlPairs f parent?
    match pairs.find? fun pair => !g.isBranch pair.1 with
    | some (v, _) => .error (.structural g.callable (.notABranch (g.idAt v)))
    | none => .ok (pairs.map fun (v, w) => ⟨g.idAt v, g.idAt w⟩)

end FlowGraph

end Slicing
