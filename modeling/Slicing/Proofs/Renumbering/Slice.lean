import Slicing.Proofs.Renumbering.Dependence
import Slicing.Proofs.Slice.Closure

/-!
# Slices of renumbered graphs

A criterion that names a source element or a line means the node with the new number. The slice
found from there has the new numbers for its nodes and stands for the same source elements, and a
criterion that is refused is refused for the same reason (`Query.points_renumber`).
-/

namespace Slicing

open Function

variable {f : NodeId → NodeId}

/-! ## Criteria -/

namespace SystemGraph

variable {g : SystemGraph} {c : Criterion} {n : NodeId}

theorem nodeIds_renumber : (g.renumber f).nodeIds = g.nodeIds.map f := by
  rw [nodeIds, nodeIds, renumber, List.map_map, List.map_map]
  rfl

/-- A node is found under its other number. -/
theorem node?_renumber (hf : Injective f) (n : NodeId) :
    (g.renumber f).node? (f n) = (g.node? n).map (·.renumber f) := by
  rw [node?, renumber, List.find?_map]
  simp only [comp_def, Node.renumber, beq_of_injective hf]
  rfl

/-- The nodes on a line under other numbers. -/
theorem onLine_renumber {line : UInt32} {m : NodeId} :
    (g.renumber f).OnLine line m ↔ ∃ n, g.OnLine line n ∧ f n = m := by
  constructor
  · rintro ⟨node', hnode', rfl, hline⟩
    obtain ⟨node, hnode, rfl⟩ := List.mem_map.1 hnode'
    exact ⟨node.id, ⟨node, hnode, rfl, hline⟩, rfl⟩
  · rintro ⟨n, ⟨node, hnode, rfl, hline⟩, rfl⟩
    exact ⟨node.renumber f, List.mem_map_of_mem hnode, rfl, hline⟩

/-- What a node reads and writes does not depend on its number. -/
theorem touches_renumber (hf : Injective f) {var : String} :
    (g.renumber f).Touches var (f n) ↔ g.Touches var n := by
  rw [← concerns_iff, ← concerns_iff, concerns, concerns, node?_renumber hf]
  cases g.node? n <;> exact Iff.rfl

/-- The nodes that a line may mean, under other numbers. -/
theorem candidate_renumber (hf : Injective f) {line : UInt32} {var : Option String} {m : NodeId} :
    (g.renumber f).Candidate line var m ↔ ∃ n, g.Candidate line var n ∧ f n = m := by
  have hothers (n : NodeId) : (∃ m, (g.renumber f).OnLine line m ∧ m ≠ f n) ↔
      ∃ m, g.OnLine line m ∧ m ≠ n := by
    simp only [onLine_renumber]
    constructor
    · rintro ⟨_, ⟨m, hm, rfl⟩, hne⟩
      exact ⟨m, hm, fun heq => hne (congrArg f heq)⟩
    · rintro ⟨m, hm, hne⟩
      exact ⟨f m, ⟨m, hm, rfl⟩, hf.ne hne⟩
  constructor
  · rintro ⟨hline, hvar⟩
    obtain ⟨n, hn, rfl⟩ := onLine_renumber.1 hline
    exact ⟨n, ⟨hn, fun v hv hmany => (touches_renumber hf).1 (hvar v hv ((hothers n).2 hmany))⟩, rfl⟩
  · rintro ⟨n, ⟨hn, hvar⟩, rfl⟩
    exact ⟨onLine_renumber.2 ⟨n, hn, rfl⟩, fun v hv hmany =>
      (touches_renumber hf).2 (hvar v hv ((hothers n).1 hmany))⟩

/-- The nodes that a line may mean are the same, but the new numbers may come in another order. -/
theorem candidatesOnLine_renumber (hf : Injective f) (line : UInt32) (var : Option String) :
    ((g.renumber f).candidatesOnLine line var).Perm ((g.candidatesOnLine line var).map f) := by
  refine (List.perm_ext_iff_of_nodup (nodup_candidatesOnLine _ _ _)
    ((nodup_candidatesOnLine _ _ _).map hf)).2 fun m => ?_
  rw [mem_candidatesOnLine_iff, candidate_renumber hf, List.mem_map]
  simp only [mem_candidatesOnLine_iff]

/-- A criterion that does not name a number means the node with the new number. -/
theorem locate_renumber (hf : Injective f) (hc : ∀ id, c.location ≠ .node id) :
    (g.renumber f).locate c = ((g.locate c).map f).mapError (·.renumber f) := by
  rw [locate, locate]
  cases hlocation : c.location with
  | node id => exact absurd hlocation (hc id)
  | element id =>
    have helement : (g.renumber f).nodeForElement? id = (g.nodeForElement? id).map f := by
      rw [nodeForElement?, renumber, ← List.map_reverse, List.find?_map, Option.map_map,
        nodeForElement?, Option.map_map]
      rfl
    simp only [helement]
    cases g.nodeForElement? id <;> rfl
  | line line =>
    have hperm := candidatesOnLine_renumber (g := g) hf line c.var
    dsimp only
    -- a line is refused by the number of its candidates, which stays
    revert hperm
    rcases g.candidatesOnLine line c.var with _ | ⟨a, _ | ⟨b, rest⟩⟩
    · intro hperm
      rw [hperm.eq_nil]
      rfl
    · intro hperm
      rw [List.perm_singleton.1 hperm]
      rfl
    · rcases (g.renumber f).candidatesOnLine line c.var with _ | ⟨a', _ | ⟨b', rest'⟩⟩ <;> intro hperm
      · simpa using hperm.length_eq
      · simpa using hperm.length_eq
      · have hlength := hperm.length_eq
        rw [List.length_map] at hlength
        exact congrArg (fun count => Except.error (CriterionError.ambiguousLine line count)) hlength

theorem isOpaqueAt_renumber (site : CallSiteId) : (g.renumber f).isOpaqueAt site = g.isOpaqueAt site := by
  rw [isOpaqueAt, isOpaqueAt, invocation?_renumber]
  cases g.invocation? site <;> rfl

end SystemGraph

/-! ## Traversals -/

namespace Traversal

variable (t : Traversal) (g : SystemGraph)

/-- A start with another number. -/
def Origin.renumber (f : NodeId → NodeId) (origin : Origin) : Origin := ⟨f origin.node, origin.var⟩

/-- The edges at a node under other numbers. -/
theorem neighbours_renumber (hf : Injective f) (n : NodeId) :
    t.neighbours (g.renumber f) (f n) = (t.neighbours g n).map (Prod.map f id) := by
  rw [neighbours, neighbours]
  cases t.direction <;>
    simp only [SystemGraph.dependencies, SystemGraph.dependents, SystemGraph.renumber, List.filter_map,
      List.map_map, comp_def, DependenceEdge.renumber, beq_of_injective hf, Prod.map, id]

/-- The steps of a traversal under other numbers. -/
theorem next_steps_renumber (hf : Injective f) (origin : Origin) (phase : Phase) (n : NodeId) :
    (t.steps (g.renumber f) (origin.renumber f) phase).next (f n) =
      ((t.steps g origin phase).next n).map f := by
  have hadmits (d : Dependence) : t.admits (g.renumber f) phase d = t.admits g phase d := by
    simp only [admits, SystemGraph.isOpaqueAt_renumber]
  have horigin (d : Dependence) : (origin.renumber f).admits (f n) d = origin.admits n d := by
    simp only [Origin.admits, Origin.renumber, bne, beq_of_injective hf]
  simp only [steps, neighbours_renumber t g hf, List.filter_map, List.map_map, comp_def, Prod.map,
    hadmits, horigin, id]

/-- What a traversal finds has the new numbers. -/
theorem found_renumber (hf : Injective f) (origin : Origin) :
    t.found (g.renumber f) (origin.renumber f) = (t.found g origin).map f := by
  have hvertices (phase : Phase) : (t.steps (g.renumber f) (origin.renumber f) phase).vertices =
      (t.steps g origin phase).vertices.map f := SystemGraph.nodeIds_renumber
  have hreach (phase : Phase) (start : NodeId) :
      (t.steps (g.renumber f) (origin.renumber f) phase).reach (f start) =
        ((t.steps g origin phase).reach start).map f :=
    Digraph.reach_map hf (hvertices phase) (next_steps_renumber t g hf origin phase) start
  rw [found, found]
  cases t.strategy with
  | closure => exact hreach .full origin.node
  | twoPhase =>
    change Digraph.reachAll _ (Digraph.reach _ (f origin.node)) = _
    rw [hreach]
    exact Digraph.reachAll_map hf (hvertices .descend) (next_steps_renumber t g hf origin .descend) _

/-- Where a traversal starts, under other numbers. -/
theorem origin_renumber (hf : Injective f) (c : Criterion) (n : NodeId) :
    t.origin (g.renumber f) c (f n) =
      ((t.origin g c n).map (·.renumber f)).mapError (·.renumber f) := by
  rw [origin, origin, SystemGraph.node?_renumber hf]
  cases g.node? n with
  | none => rfl
  | some node =>
    cases c.var with
    | none => rfl
    | some var =>
      change (if node.reads var || node.defines var then _ else _) = _
      dsimp only
      split <;> rfl

end Traversal

/-! ## Slices -/

/-- The source elements of a slice do not depend on the numbers. -/
theorem Slice.points_ofNodes_renumber (hf : Injective f) (g : SystemGraph) (c : Criterion) (n : NodeId)
    (direction : Direction) (found : List NodeId) :
    (ofNodes (g.renumber f) c (f n) direction (found.map f)).points =
      (ofNodes g c n direction found).points := by
  simp only [ofNodes, SystemGraph.renumber, List.filter_map, List.filterMap_map, comp_def, Node.renumber,
    contains_map hf]

/-- A slice stands for the same source elements, or is refused for the same reason. -/
theorem Query.points_renumber (hf : Injective f) (g : SystemGraph) (config : SliceConfig) {c : Criterion}
    (hc : ∀ id, c.location ≠ .node id) (direction : Direction) (includeControl : Bool) :
    ((Query.slice c direction includeControl).answer (g.renumber f) config).map (·.points) =
      (((Query.slice c direction includeControl).answer g config).map (·.points)).mapError
        (·.renumber f) := by
  have hlocate := SystemGraph.locate_renumber (g := g) hf hc
  rw [answer, answer]
  cases hn : g.locate c with
  | error e =>
    rw [hn] at hlocate
    rw [answerSlice, hlocate, answerSlice, hn]
    rfl
  | ok n =>
    rw [hn] at hlocate
    rw [answerSlice_of_locate _ _ _ hlocate, answerSlice_of_locate _ _ _ hn,
      Traversal.origin_renumber _ _ hf]
    cases (config.traversal direction includeControl).origin g c n with
    | error e => rfl
    | ok origin =>
      refine congrArg Except.ok ?_
      dsimp only
      rw [Traversal.found_renumber _ _ hf]
      exact Slice.points_ofNodes_renumber hf g c n direction _

/-- Two answers agree: slices stand for the same source elements, and errors are the same up to the
    numbers of nodes. -/
def Slice.SameAnswer : Except Error Slice → Except Error Slice → Prop
  | .ok slice, .ok slice' => slice'.points = slice.points
  | .error e, .error e' => ∃ f, e' = e.renumber f
  | _, _ => False

/-- Slicers for a graph and for the graph with other numbers give the same answers. -/
theorem Slicer.Serves.sameAnswer (hf : Injective f) {g : SystemGraph} {config : SliceConfig} {s s' : Slicer}
    (hs : s.Serves g config) (hs' : s'.Serves (g.renumber f) config) {c : Criterion}
    (hc : ∀ id, c.location ≠ .node id) (direction : Direction) (includeControl : Bool) :
    Slice.SameAnswer (s.ask (.slice c direction includeControl)).1
      (s'.ask (.slice c direction includeControl)).1 := by
  have hpoints := Query.points_renumber hf g config hc direction includeControl
  rw [hs.ask_eq, hs'.ask_eq]
  revert hpoints
  cases (Query.slice c direction includeControl).answer g config <;>
    cases (Query.slice c direction includeControl).answer (g.renumber f) config <;> intro hpoints
  · exact ⟨f, congrArg Error.criterion (Except.error.inj hpoints)⟩
  · cases hpoints
  · cases hpoints
  · exact Except.ok.inj hpoints

end Slicing
