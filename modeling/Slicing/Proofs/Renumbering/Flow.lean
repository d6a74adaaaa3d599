import Mathlib.Logic.Function.Basic
import Slicing.Analysis
import Slicing.Proofs.Lists

/-!
# Renumbered flow graphs

Another numbering of the nodes gives another flow graph (`FlowGraph.renumber`). Arcs join positions
and not numbers, so the graph has the same arcs and steps, and what is found by a number is found
by the new one, as long as no two nodes get the same number.

What is found out about a flow graph goes along with its numbers: whether it is well formed, its
control dependences, and the definitions that reach each position (`LocalAnalysis.ofGraph_renumber`).
-/

namespace Slicing

open Function

variable {f : NodeId → NodeId}

/-! ## Numbers -/

/-- A node with another number. -/
def Node.renumber (f : NodeId → NodeId) (node : Node) : Node := { node with id := f node.id }

/-- The nodes of a call site with other numbers. -/
def CallSiteNodes.renumber (f : NodeId → NodeId) (nodes : CallSiteNodes) : CallSiteNodes where
  site := nodes.site
  callNode := f nodes.callNode
  actualIns := nodes.actualIns.map f
  actualOuts := nodes.actualOuts.map (Prod.map id f)

/-- A flow graph with other numbers. -/
def FlowGraph.renumber (f : NodeId → NodeId) (g : FlowGraph) : FlowGraph where
  callable := g.callable
  entry := g.entry.renumber f
  exit := g.exit.renumber f
  inner := g.inner.map (·.renumber f)
  arcs := g.arcs
  exitHead := g.exitHead
  formalIns := g.formalIns.map f
  formalOuts := g.formalOuts.map (Prod.map id f)
  callSites := g.callSites.map (·.renumber f)
  nonTerminating := g.nonTerminating.map f
  unreachable := g.unreachable

/-- A defect with other numbers. -/
def Defect.renumber (f : NodeId → NodeId) : Defect → Defect
  | .misplacedJump jump node => .misplacedJump jump (f node)
  | .entryHasPredecessors => .entryHasPredecessors
  | .exitUnreachable => .exitUnreachable
  | .nodeUnreachable node => .nodeUnreachable (f node)
  | .exitUnreachableFrom node => .exitUnreachableFrom (f node)
  | .noPostDominator node => .noPostDominator (f node)
  | .notABranch node => .notABranch (f node)

/-- The error of a criterion with other numbers. -/
def CriterionError.renumber (f : NodeId → NodeId) : CriterionError → CriterionError
  | .noNode node => .noNode (f node)
  | .unrelatedVariable var node => .unrelatedVariable var (f node)
  | e => e

/-- An error with other numbers. -/
def Error.renumber (f : NodeId → NodeId) : Error → Error
  | .structural callable defect => .structural callable (defect.renumber f)
  | .criterion cause => .criterion (cause.renumber f)
  | e => e

/-- A result with other numbers, given what these do to a value. -/
def renumbered {α : Type} (f : NodeId → NodeId) (r : α → α) : Except Error α → Except Error α
  | .ok a => .ok (r a)
  | .error e => .error (e.renumber f)

/-- Steps that go along with the numbers do so together. -/
theorem renumbered_bind {α β : Type} {r : α → α} {r' : β → β} {x : Except Error α}
    {next next' : α → Except Error β} (hnext : ∀ a, next' (r a) = renumbered f r' (next a)) :
    renumbered f r x >>= next' = renumbered f r' (x >>= next) := by
  cases x with
  | error e => rfl
  | ok a => exact hnext a

/-- Different numbers stay different. -/
theorem beq_of_injective {α β : Type} [BEq α] [LawfulBEq α] [BEq β] [LawfulBEq β] {f : α → β}
    (hf : Injective f) (a b : α) : (f a == f b) = (a == b) := by
  rw [Bool.eq_iff_iff, beq_iff_eq, beq_iff_eq]
  exact hf.eq_iff

/-- Members under other numbers. -/
theorem contains_map {α β : Type} [BEq α] [LawfulBEq α] [BEq β] [LawfulBEq β] {f : α → β}
    (hf : Injective f) (l : List α) (a : α) : (l.map f).contains (f a) = l.contains a := by
  rw [Bool.eq_iff_iff, List.contains_iff_mem, List.contains_iff_mem]
  exact List.mem_map_of_injective hf

/-- Repeated members are dropped under other numbers. -/
theorem eraseDups_map {α β : Type} [BEq α] [LawfulBEq α] [BEq β] [LawfulBEq β] {f : α → β}
    (hf : Injective f) (l : List α) : (l.map f).eraseDups = l.eraseDups.map f := by
  match l with
  | [] => rfl
  | a :: rest =>
    have hrest : (rest.map f).filter (fun b => !b == f a) = (rest.filter fun b => !b == a).map f := by
      rw [List.filter_map]
      simp only [comp_def, beq_of_injective hf]
    rw [List.map_cons, List.eraseDups_cons, hrest, eraseDups_map hf, List.eraseDups_cons, List.map_cons]
termination_by l.length
decreasing_by exact Nat.lt_succ_of_le (List.length_filter_le _ _)

namespace FlowGraph

variable (g : FlowGraph)

@[simp]
theorem nodes_renumber : (g.renumber f).nodes = g.nodes.map (·.renumber f) := rfl

@[simp]
theorem size_renumber : (g.renumber f).size = g.size := by simp [size]

@[simp]
theorem idAt_renumber (position : Nat) : (g.renumber f).idAt position = f (g.idAt position) := by
  rw [idAt, nodeAt, nodes_renumber, idAt, nodeAt, List.getD_eq_getElem?_getD, List.getElem?_map,
    List.getD_eq_getElem?_getD]
  cases g.nodes[position]? <;> rfl

/-- Positions do not depend on the numbers. -/
theorem position?_renumber (hf : Injective f) (id : NodeId) :
    (g.renumber f).position? (f id) = g.position? id := by
  rw [position?, nodes_renumber, ← List.map_reverse, List.findIdx?_map, size_renumber]
  simp only [comp_def, Node.renumber, beq_of_injective hf]
  rfl

/-- Arcs go along with the numbers of their ends. -/
theorem addArc_renumber (hf : Injective f) (source target : NodeId) (edge : FlowEdge) :
    (g.renumber f).addArc (f source) (f target) edge = (g.addArc source target edge).renumber f := by
  rw [addArc, addArc, position?_renumber g hf, position?_renumber g hf]
  cases g.position? source <;> cases g.position? target <;> rfl

/-- A node is added under other numbers. -/
theorem addNode_renumber (node : Node) :
    (g.renumber f).addNode (node.renumber f) = (g.addNode node).renumber f := by
  simp [addNode, renumber]

/-- The exit head is set under other numbers. -/
theorem setExitHead_renumber (hf : Injective f) (id : NodeId) :
    (g.renumber f).setExitHead (f id) = (g.setExitHead id).renumber f := by
  rw [setExitHead, setExitHead, position?_renumber g hf]
  cases g.position? id <;> rfl

@[simp]
theorem steps_renumber (hf : Injective f) : (g.renumber f).steps = g.steps := by
  have hheads : (g.nonTerminating.map f).filterMap (g.renumber f).position? =
      g.nonTerminating.filterMap g.position? := by
    rw [List.filterMap_map]
    exact List.filterMap_congr fun id _ => position?_renumber g hf id
  rw [steps, steps]
  exact congrArg (fun heads => _ ++ heads.map fun head => (head, g.exitHead)) hheads

theorem positions_renumber : (g.renumber f).positions = g.positions := by
  rw [positions, size_renumber, positions]

/-- Which positions reach another one does not depend on the numbers. -/
theorem reaching_renumber (hf : Injective f) (position : Nat) :
    (g.renumber f).reaching position = g.reaching position := by
  rw [reaching, positions_renumber, steps_renumber g hf, reaching]

/-- Which positions are reached does not depend on the numbers. -/
theorem reachedFrom_renumber (hf : Injective f) (position : Nat) :
    (g.renumber f).reachedFrom position = g.reachedFrom position := by
  rw [reachedFrom, positions_renumber, steps_renumber g hf, reachedFrom]

/-! ## Structure -/

theorem firstMissing?_renumber (found : List Nat) :
    (g.renumber f).firstMissing? found = (g.firstMissing? found).map f := by
  rw [firstMissing?, positions_renumber, firstMissing?, Option.map_map]
  congr 1
  funext position
  exact idAt_renumber g position

/-- A defect goes along with the numbers. -/
theorem defect?_renumber (hf : Injective f) :
    (g.renumber f).defect? = g.defect?.map (·.renumber f) := by
  have harcs : (g.renumber f).arcsInto entryPosition = g.arcsInto entryPosition := rfl
  rw [defect?, defect?, harcs, reachedFrom_renumber g hf, reaching_renumber g hf]
  dsimp only
  -- the checks look at positions, and only the number of what they find is new
  rw [firstMissing?_renumber, firstMissing?_renumber]
  split
  · rfl
  · split
    · rfl
    · cases g.firstMissing? (g.reachedFrom entryPosition) with
      | some id => rfl
      | none => cases g.firstMissing? (g.reaching exitPosition) <;> rfl

/-- The checks find the same defects under other numbers. -/
theorem checkStructure_renumber (hf : Injective f) :
    (g.renumber f).checkStructure = renumbered f id g.checkStructure := by
  rw [checkStructure, checkStructure, defect?_renumber g hf]
  cases g.defect? <;> rfl

/-! ## Control dependences -/

/-- A node has as many successors under another number. -/
theorem length_successors_renumber (hf : Injective f) (id : NodeId) :
    ((g.renumber f).successors (f id)).length = (g.successors id).length := by
  rw [successors, successors, position?_renumber g hf]
  cases g.position? id with
  | none => rfl
  | some position =>
    have htargets : ((g.renumber f).arcsFrom position).map (fun arc => (g.renumber f).idAt arc.target) =
        ((g.arcsFrom position).map fun arc => g.idAt arc.target).map f := by
      rw [List.map_map]
      exact List.map_congr_left fun arc _ => idAt_renumber g arc.target
    -- successors are listed by number, so in another order, but there are as many
    simp only [htargets, ascending, eraseDups_map hf, List.length_mergeSort, List.length_map]

/-- Branches do not depend on the numbers. -/
theorem isBranch_renumber (hf : Injective f) (position : Nat) :
    (g.renumber f).isBranch position = g.isBranch position := by
  rw [isBranch, isBranch, idAt_renumber, length_successors_renumber g hf]
  exact congrArg _ (contains_map hf g.nonTerminating _)

/-- Control dependences under other numbers. -/
theorem controlDependences_renumber (hf : Injective f) : (g.renumber f).controlDependences =
    renumbered f (List.map fun d => ⟨f d.controller, f d.dependent⟩) g.controlDependences := by
  have hsteps : (g.renumber f).controlSteps = g.controlSteps := by
    rw [controlSteps, size_renumber, steps_renumber g hf, controlSteps]
  rw [controlDependences, controlDependences, hsteps]
  dsimp only
  split
  · rw [idAt_renumber]
    rfl
  · simp only [isBranch_renumber g hf]
    split
    · rw [idAt_renumber]
      rfl
    · simp [renumbered]

end FlowGraph

/-! ## Data dependences -/

/-- A definition at a node with another number. -/
def Definition.renumber (f : NodeId → NodeId) (d : Definition) : Definition := { d with node := f d.node }

namespace DefinitionFlow

/-- A flow over as many definitions. -/
def cast {n m : Nat} (hnm : n = m) (flow : DefinitionFlow n) : DefinitionFlow m :=
  ⟨flow.reaching.map (·.cast hnm), flow.leaving.map (·.cast hnm), flow.visits⟩

/-- What is found depends on the number of definitions only through the sets of them. -/
theorem solve_cast {n m : Nat} (hnm : n = m) {transfer : Nat → DefinitionTransfer n}
    {transfer' : Nat → DefinitionTransfer m}
    (htransfer : ∀ v, transfer' v = ⟨(transfer v).made.cast hnm, (transfer v).overwritten.cast hnm,
      (transfer v).sources, (transfer v).targets⟩) (worklist : List Nat) (flow : DefinitionFlow n) :
    solve transfer' worklist (flow.cast hnm) = (solve transfer worklist flow).cast hnm := by
  -- once the numbers of definitions are the same variable, nothing is cast
  subst hnm
  obtain rfl : transfer' = transfer := funext htransfer
  have hcast (flow : DefinitionFlow n) : flow.cast rfl = flow := by simp [cast]
  rw [hcast, hcast]

/-- A flow over as many definitions holds the same ones. -/
theorem getLsbD_cast {n m : Nat} (hnm : n = m) (flow : DefinitionFlow n) (position i : Nat) :
    ((flow.cast hnm).reaching.getD position 0).getLsbD i = (flow.reaching.getD position 0).getLsbD i := by
  subst hnm
  simp [cast]

end DefinitionFlow

namespace FlowGraph

variable (g : FlowGraph)

/-- The definitions under other numbers. -/
theorem definitions_renumber : (g.renumber f).definitions = g.definitions.map (·.renumber f) := by
  rw [definitions, nodes_renumber, List.zipIdx_map, definitions, List.flatMap_map, List.map_flatMap]
  simp only [List.map_map]
  rfl

/-- The definitions with a property that does not depend on the numbers. -/
theorem definitionsWith_map (defs : List Definition) {p p' : Definition → Bool}
    (hp : ∀ d, p' (d.renumber f) = p d) : definitionsWith (defs.map (·.renumber f)) p' =
      (definitionsWith defs p).cast (List.length_map ..).symm := by
  have hbits : (defs.map (·.renumber f)).map p' = defs.map p := by
    rw [List.map_map]
    exact List.map_congr_left fun d _ => hp d
  refine BitVec.eq_of_getLsbD_eq fun i _ => ?_
  rw [definitionsWith, definitionsWith, BitVec.getLsbD_cast, BitVec.getLsbD_cast, BitVec.getLsbD_cast,
    BitVec.getLsbD_ofBoolListLE, BitVec.getLsbD_ofBoolListLE, hbits]

theorem defs_nodeAt_renumber (position : Nat) :
    ((g.renumber f).nodeAt position).defs = (g.nodeAt position).defs := by
  rw [nodeAt, nodes_renumber, nodeAt, List.getD_eq_getElem?_getD, List.getElem?_map,
    List.getD_eq_getElem?_getD]
  cases g.nodes[position]? <;> rfl

/-- What happens to definitions at a position does not depend on the numbers. -/
theorem transfer_renumber (defs : List Definition) (v : Nat) :
    (g.renumber f).transfer (defs.map (·.renumber f)) v =
      ⟨(g.transfer defs v).made.cast (List.length_map ..).symm,
        (g.transfer defs v).overwritten.cast (List.length_map ..).symm, (g.transfer defs v).sources,
        (g.transfer defs v).targets⟩ := by
  have hmade : definitionsWith (defs.map (·.renumber f)) (·.position == v) =
      (definitionsWith defs (·.position == v)).cast (List.length_map ..).symm :=
    definitionsWith_map defs fun _ => rfl
  have hoverwritten : definitionsWith (defs.map (·.renumber f))
        (fun d => ((g.renumber f).nodeAt v).defs.contains d.var) =
      (definitionsWith defs fun d => (g.nodeAt v).defs.contains d.var).cast (List.length_map ..).symm :=
    definitionsWith_map defs fun d => by rw [defs_nodeAt_renumber]; rfl
  rw [transfer, hmade, hoverwritten]
  rfl

/-- The definitions that reach a position are the same, at nodes with other numbers. -/
theorem reachingDefinitions_renumber : (g.renumber f).reachingDefinitions =
    ⟨g.definitions.map (·.renumber f), g.reachingDefinitions.flow.cast (List.length_map ..).symm⟩ := by
  rw [reachingDefinitions, definitions_renumber, positions_renumber]
  have hsolve := DefinitionFlow.solve_cast (List.length_map ..).symm (transfer_renumber (f := f) g g.definitions)
    g.positions ⟨g.positions.map fun _ => 0, g.positions.map fun v => (g.transfer g.definitions v).made, 0⟩
  -- what is left is that the search starts with the same sets
  refine congrArg (ReachingDefinitions.mk _) (Eq.trans ?_ hsolve)
  congr 1
  simp [DefinitionFlow.cast, transfer_renumber]

/-- The definitions that reach a position under other numbers. -/
theorem reachingAt_renumber (position : Nat) : (g.renumber f).reachingDefinitions.reachingAt position =
    (g.reachingDefinitions.reachingAt position).map (·.renumber f) := by
  rw [reachingDefinitions_renumber, ReachingDefinitions.reachingAt, ReachingDefinitions.reachingAt]
  dsimp only
  rw [List.zipIdx_map, List.filter_map, List.map_map, List.map_map]
  refine congrArg (List.map _) (List.filter_congr fun d _ => ?_)
  exact DefinitionFlow.getLsbD_cast _ g.reachingDefinitions.flow position d.2

/-- Data dependences go along with the numbers of their ends. -/
theorem dependences_renumber (hf : Injective f) :
    (g.renumber f).reachingDefinitions.dependences (g.renumber f) =
      (g.reachingDefinitions.dependences g).map fun d => ⟨f d.source, f d.target, d.var⟩ := by
  rw [ReachingDefinitions.dependences, nodes_renumber, List.flatMap_map, ReachingDefinitions.dependences,
    List.map_flatMap]
  refine List.flatMap_congr fun node _ => ?_
  have hposition : (g.renumber f).position? (node.renumber f).id = g.position? node.id :=
    position?_renumber g hf node.id
  rw [hposition, List.map_flatMap]
  refine List.flatMap_congr fun var _ => ?_
  cases g.position? node.id with
  | none => rfl
  | some position =>
    dsimp only
    rw [reachingAt_renumber, List.filter_map, List.map_map, List.map_map]
    rfl

end FlowGraph

/-! ## Callables -/

/-- The dependences within a callable with other numbers. -/
def LocalAnalysis.renumber (f : NodeId → NodeId) (a : LocalAnalysis) : LocalAnalysis where
  graph := a.graph.renumber f
  control := a.control.map fun d => ⟨f d.controller, f d.dependent⟩
  data := a.data.map fun d => ⟨f d.source, f d.target, d.var⟩

/-- The analysis of a flow graph goes along with the numbers of its nodes. -/
theorem LocalAnalysis.ofGraph_renumber (hf : Injective f) (g : FlowGraph) :
    ofGraph (g.renumber f) = renumbered f (·.renumber f) (ofGraph g) := by
  rw [ofGraph, ofGraph, FlowGraph.checkStructure_renumber g hf, FlowGraph.controlDependences_renumber g hf]
  refine renumbered_bind fun _ => renumbered_bind fun control => ?_
  rw [FlowGraph.dependences_renumber g hf]
  rfl

end Slicing
