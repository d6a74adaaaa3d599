import Slicing.Error
import Slicing.Flow.Graph

/-!
# Well-formed flow graphs

In a well-formed flow graph nothing leads to the entry, everything is reached
from the entry, and the exit is reached from everywhere, where the flagged loops
count as reaching it.
-/

namespace Slicing.FlowGraph

/-- The first position that is not in a list. -/
def firstMissing? (g : FlowGraph) (found : List Nat) : Option NodeId :=
  (g.positions.find? fun position => !found.contains position).map g.idAt

/-- The first defect of a flow graph. -/
def defect? (g : FlowGraph) : Option Defect :=
  if !(g.arcsInto entryPosition).isEmpty then some .entryHasPredecessors
  else
    let reached := g.reachedFrom entryPosition
    if !reached.contains exitPosition then some .exitUnreachable
    else match g.firstMissing? reached with
      | some id => some (.nodeUnreachable id)
      | none => (g.firstMissing? (g.reaching exitPosition)).map .exitUnreachableFrom

/-- A flow graph is well formed. -/
def checkStructure (g : FlowGraph) : Except Error Unit :=
  match g.defect? with
  | some defect => .error (.structural g.callable defect)
  | none => .ok ()

end Slicing.FlowGraph
