import Mathlib.Data.List.Nodup
import Mathlib.Logic.Relation
import Slicing.Flow.Graph

/-!
# Flow graphs by the numbers of their nodes

The arcs of a flow graph join positions, while the nodes are numbered and arcs are
asked for by number. As long as the arcs stay between the nodes there are
(`FlowGraph.InRange`), the graph can be read by numbers alone: its nodes (`ids`) and
its edges, to which an arc between two numbers adds just one (`edges_addArc`).

If no number is given twice, a number and the position of its node say the same
(`position?_eq_some_iff`).
-/

namespace Slicing.FlowGraph

/-- The numbers of the nodes, by position. -/
def ids (g : FlowGraph) : List NodeId := g.nodes.map (·.id)

/-- An edge leads from one node to another. -/
def HasEdge (g : FlowGraph) (u v : NodeId) : Prop := ∃ edge, (u, v, edge) ∈ g.edges

/-- A node is reached from another along edges. -/
abbrev Leads (g : FlowGraph) : NodeId → NodeId → Prop := Relation.ReflTransGen g.HasEdge

/-- The arcs join positions of the graph. -/
def InRange (g : FlowGraph) : Prop := ∀ arc ∈ g.arcs, arc.source < g.size ∧ arc.target < g.size

variable {g : FlowGraph} {id u v : NodeId} {p q : Nat}

/-! ## Positions -/

@[simp]
theorem length_ids (g : FlowGraph) : g.ids.length = g.size := by simp [ids, size]

/-- The number at a position. -/
theorem idAt_eq (hp : p < g.size) : g.ids[p]? = some (g.idAt p) := by
  simp only [ids, idAt, nodeAt, List.getElem?_map]
  rw [List.getD_eq_getElem?_getD, List.getElem?_eq_getElem hp]
  rfl

theorem idAt_mem (hp : p < g.size) : g.idAt p ∈ g.ids :=
  List.mem_of_getElem? (idAt_eq hp)

/-- A node has a position. -/
theorem exists_idAt_of_mem (h : id ∈ g.ids) : ∃ p, p < g.size ∧ g.idAt p = id := by
  obtain ⟨p, hp, hid⟩ := List.mem_iff_getElem.1 h
  rw [length_ids] at hp
  refine ⟨p, hp, ?_⟩
  have := idAt_eq hp
  rw [List.getElem?_eq_getElem (by simpa using hp)] at this
  rw [← hid, Option.some.inj this]

/-- Different positions have different nodes. -/
theorem idAt_injective (hg : g.ids.Nodup) (hp : p < g.size) (hq : q < g.size)
    (h : g.idAt p = g.idAt q) : p = q := by
  have hp' : p < g.ids.length := by simpa using hp
  have hq' : q < g.ids.length := by simpa using hq
  have hi := idAt_eq hp
  have hj := idAt_eq hq
  rw [List.getElem?_eq_getElem hp'] at hi
  rw [List.getElem?_eq_getElem hq'] at hj
  exact (List.Nodup.getElem_inj_iff hg).1 (by rw [Option.some.inj hi, Option.some.inj hj, h])

/-- A node is at the position where it is found. -/
theorem idAt_of_position?_eq_some (h : g.position? id = some p) : p < g.size ∧ g.idAt p = id := by
  rw [position?, Option.map_eq_some_iff] at h
  obtain ⟨i, hi, rfl⟩ := h
  obtain ⟨hlt, hid, -⟩ := List.findIdx?_eq_some_iff_getElem.1 hi
  rw [List.length_reverse] at hlt
  have hsize : g.size = g.nodes.length := rfl
  rw [List.getElem_reverse, beq_iff_eq] at hid
  refine ⟨by omega, ?_⟩
  rw [idAt, nodeAt, List.getD_eq_getElem?_getD, List.getElem?_eq_getElem (by omega)]
  simpa [hsize] using hid

theorem position?_isSome_iff : (g.position? id).isSome ↔ id ∈ g.ids := by
  rw [position?, Option.isSome_map, List.findIdx?_isSome, List.any_reverse, List.any_eq_true, ids,
    List.mem_map]
  simp

/-- A node is found at its position and nowhere else. -/
theorem position?_eq_some_iff (hg : g.ids.Nodup) :
    g.position? id = some p ↔ p < g.size ∧ g.idAt p = id := by
  refine ⟨idAt_of_position?_eq_some, fun ⟨hp, hid⟩ => ?_⟩
  obtain ⟨q, hq⟩ := Option.isSome_iff_exists.1 (position?_isSome_iff.2 (hid ▸ idAt_mem hp))
  obtain ⟨hqlt, hqid⟩ := idAt_of_position?_eq_some hq
  rw [hq, idAt_injective hg hqlt hp (hqid.trans hid.symm)]

theorem exists_position? (h : id ∈ g.ids) : ∃ p, g.position? id = some p :=
  Option.isSome_iff_exists.1 (position?_isSome_iff.2 h)

/-! ## Adding nodes -/

@[simp]
theorem nodes_addNode (g : FlowGraph) (node : Node) :
    (g.addNode node).nodes = g.nodes ++ [node] := by
  simp [nodes, addNode]

@[simp]
theorem ids_addNode (g : FlowGraph) (node : Node) : (g.addNode node).ids = g.ids ++ [node.id] := by
  simp [ids]

@[simp]
theorem size_addNode (g : FlowGraph) (node : Node) : (g.addNode node).size = g.size + 1 := by
  simp [size]

@[simp]
theorem arcs_addNode (g : FlowGraph) (node : Node) : (g.addNode node).arcs = g.arcs := rfl

/-- Numbers stay at their positions if nodes are added behind. -/
theorem idAt_of_extends {g' : FlowGraph} (h : g.ids <+: g'.ids) (hp : p < g.size) :
    g'.idAt p = g.idAt p := by
  have hp' : p < g'.size := by
    have := h.length_le
    simp only [length_ids] at this
    omega
  have hi := idAt_eq hp
  have hj := idAt_eq hp'
  obtain ⟨rest, hrest⟩ := h
  rw [← hrest, List.getElem?_append_left (by simpa using hp), hi] at hj
  exact (Option.some.inj hj).symm

/-- The first node that is added is at the position behind the others. -/
theorem head?_eq_idAt {g' : FlowGraph} {added : List NodeId} (h : g'.ids = g.ids ++ added)
    (hadded : added ≠ []) : added.head? = some (g'.idAt g.size) := by
  have hsize : g.size < g'.size := by
    have := congrArg List.length h
    have := List.length_pos_iff.2 hadded
    simp only [length_ids, List.length_append] at *
    omega
  rw [← idAt_eq hsize, h, List.getElem?_append_right (by simp), length_ids, Nat.sub_self,
    List.head?_eq_getElem?]

/-- Arcs stay in the range of positions when a node is added. -/
theorem InRange.addNode (h : g.InRange) (node : Node) : (g.addNode node).InRange := by
  intro arc harc
  obtain ⟨hs, ht⟩ := h arc harc
  rw [size_addNode]
  omega

theorem edges_addNode (h : g.InRange) (node : Node) : (g.addNode node).edges = g.edges := by
  have hpre : g.ids <+: (g.addNode node).ids := by simp
  refine List.map_congr_left fun arc harc => ?_
  obtain ⟨hs, ht⟩ := h arc harc
  rw [idAt_of_extends hpre hs, idAt_of_extends hpre ht]

/-! ## Adding arcs -/

@[simp]
theorem nodes_addArc (g : FlowGraph) (u v : NodeId) (edge : FlowEdge) :
    (g.addArc u v edge).nodes = g.nodes := by
  unfold addArc
  split <;> rfl

@[simp]
theorem ids_addArc (g : FlowGraph) (u v : NodeId) (edge : FlowEdge) :
    (g.addArc u v edge).ids = g.ids := by
  simp [ids]

@[simp]
theorem size_addArc (g : FlowGraph) (u v : NodeId) (edge : FlowEdge) :
    (g.addArc u v edge).size = g.size := by
  simp [size]

/-- An arc between nodes stays in the range of positions. -/
theorem InRange.addArc (h : g.InRange) (u v : NodeId) (edge : FlowEdge) :
    (g.addArc u v edge).InRange := by
  unfold FlowGraph.addArc
  split
  · rename_i source target hsource htarget
    intro arc harc
    rcases List.mem_append.1 harc with harc | harc
    · exact h arc harc
    · obtain rfl := List.mem_singleton.1 harc
      exact ⟨(idAt_of_position?_eq_some hsource).1, (idAt_of_position?_eq_some htarget).1⟩
  · exact h

/-- An arc between nodes adds its edge. -/
theorem edges_addArc (hu : u ∈ g.ids) (hv : v ∈ g.ids) (edge : FlowEdge) :
    (g.addArc u v edge).edges = g.edges ++ [(u, v, edge)] := by
  obtain ⟨source, hsource⟩ := exists_position? hu
  obtain ⟨target, htarget⟩ := exists_position? hv
  obtain ⟨-, hsid⟩ := idAt_of_position?_eq_some hsource
  obtain ⟨-, htid⟩ := idAt_of_position?_eq_some htarget
  have hadd : g.addArc u v edge = { g with arcs := g.arcs ++ [⟨source, target, edge⟩] } := by
    rw [addArc, hsource, htarget]
  rw [hadd]
  change List.map (fun arc : FlowArc => (g.idAt arc.source, g.idAt arc.target, arc.edge)) _ = _
  rw [List.map_append, List.map_singleton, hsid, htid]
  rfl

/-! ## Edges -/

theorem HasEdge.mem_left (hg : g.InRange) (h : g.HasEdge u v) : u ∈ g.ids := by
  obtain ⟨edge, h⟩ := h
  obtain ⟨arc, harc, heq⟩ := List.mem_map.1 h
  cases heq
  exact idAt_mem (hg arc harc).1

theorem HasEdge.mem_right (hg : g.InRange) (h : g.HasEdge u v) : v ∈ g.ids := by
  obtain ⟨edge, h⟩ := h
  obtain ⟨arc, harc, heq⟩ := List.mem_map.1 h
  cases heq
  exact idAt_mem (hg arc harc).2

/-- An edge is there in a graph with more edges. -/
theorem HasEdge.of_subset {g' : FlowGraph} (hsub : g.edges ⊆ g'.edges) (h : g.HasEdge u v) :
    g'.HasEdge u v :=
  let ⟨edge, h⟩ := h
  ⟨edge, hsub h⟩

/-- A way is there in a graph with more edges. -/
theorem Leads.of_subset {g' : FlowGraph} (hsub : g.edges ⊆ g'.edges) (h : g.Leads u v) :
    g'.Leads u v :=
  Relation.ReflTransGen.mono (fun _ _ => HasEdge.of_subset hsub) _ _ h

/-- If no number is given twice, an edge between the nodes of two positions is an arc
    between these. -/
theorem hasEdge_idAt_iff (hg : g.InRange) (hn : g.ids.Nodup) (hp : p < g.size) (hq : q < g.size) :
    g.HasEdge (g.idAt p) (g.idAt q) ↔ ∃ arc ∈ g.arcs, arc.source = p ∧ arc.target = q := by
  constructor
  · rintro ⟨edge, h⟩
    obtain ⟨arc, harc, heq⟩ := List.mem_map.1 h
    obtain ⟨hs, ht⟩ := hg arc harc
    refine ⟨arc, harc, idAt_injective hn hs hp ?_, idAt_injective hn ht hq ?_⟩
    · exact congrArg (·.1) heq
    · exact congrArg (·.2.1) heq
  · rintro ⟨arc, harc, rfl, rfl⟩
    exact ⟨arc.edge, List.mem_map.2 ⟨arc, harc, rfl⟩⟩

/-! ## Parts of graphs -/

/-- The ends of a graph stay while nodes are added. -/
theorem ends_eq {g' : FlowGraph} (h : g.nodes <+: g'.nodes) :
    g'.entry = g.entry ∧ g'.exit = g.exit := by
  obtain ⟨rest, hrest⟩ := h
  obtain ⟨hentry, hrest⟩ := List.cons.inj hrest
  exact ⟨hentry.symm, (List.cons.inj hrest).1.symm⟩

/-- A graph is what another one was before nodes and edges were added to it. -/
structure PartOf (g g' : FlowGraph) : Prop where
  nodes : g.nodes <+: g'.nodes
  edges : g.edges ⊆ g'.edges

namespace PartOf

variable {g' g'' : FlowGraph}

theorem refl (g : FlowGraph) : PartOf g g := ⟨List.prefix_rfl, List.Subset.refl _⟩

/-- A part of a part is a part. -/
theorem trans (h : PartOf g g') (h' : PartOf g' g'') : PartOf g g'' :=
  ⟨h.nodes.trans h'.nodes, List.Subset.trans h.edges h'.edges⟩

theorem size_le (h : PartOf g g') : g.size ≤ g'.size := h.nodes.length_le

theorem ids (h : PartOf g g') : g.ids <+: g'.ids := List.IsPrefix.map _ h.nodes

/-- Nodes keep their positions in a larger graph. -/
theorem idAt_eq (h : PartOf g g') (hp : p < g.size) : g'.idAt p = g.idAt p :=
  idAt_of_extends h.ids hp

/-- A graph is a part of what it becomes with an arc. -/
theorem addArc (g : FlowGraph) (u v : NodeId) (edge : FlowEdge) : PartOf g (g.addArc u v edge) := by
  unfold FlowGraph.addArc
  split
  · exact ⟨List.prefix_rfl, List.map_subset _ (List.subset_append_left _ _)⟩
  · exact refl g

theorem hasEdge (h : PartOf g g') (he : g.HasEdge u v) : g'.HasEdge u v := he.of_subset h.edges

theorem leads (h : PartOf g g') (hl : g.Leads u v) : g'.Leads u v := hl.of_subset h.edges

end PartOf

end Slicing.FlowGraph
