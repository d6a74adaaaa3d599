import Slicing.Dependence.System
import Slicing.Proofs.Lists

/-!
# Assembled graphs

What `SystemGraph.assemble` puts together, said without the order in which it does so.

The graphs of the callables of a program are *separate* (`ProcedureGraph.Separate`): a node
belongs to one of them, and their edges and the nodes of their formals and call sites stay
inside. The assembled graph (`SystemGraph.Assembles`) then has

* one procedure for each graph, found by its callable (`Assembles.procedure?_eq_some_iff`),
* one invocation for each call site, found by its number (`Assembles.invocation?_eq_some_iff`),
* the edges of the graphs, and at each call edge those of its interface.
-/

namespace Slicing

/-! ## Separate graphs -/

namespace ProcedureGraph

/-- The numbers of the nodes. -/
def nodeIds (p : ProcedureGraph) : List NodeId := p.nodes.map (·.id)

/-- The edges are dependences between nodes of a graph, and its formals and call sites are
    among these nodes. -/
structure WellFormed (p : ProcedureGraph) : Prop where
  dependence : ∀ e ∈ p.edges, e.dependence = .control ∨ ∃ var, e.dependence = .data var
  source_mem : ∀ e ∈ p.edges, e.source ∈ p.nodeIds
  target_mem : ∀ e ∈ p.edges, e.target ∈ p.nodeIds
  entry_mem : p.entry ∈ p.nodeIds
  formalIn_mem : ∀ n ∈ p.formalIns, n ∈ p.nodeIds
  formalOut_mem : ∀ o ∈ p.formalOuts, o.2 ∈ p.nodeIds
  slots_nodup : (p.formalOuts.map (·.1)).Nodup
  callNode_mem : ∀ s ∈ p.callSites, s.callNode ∈ p.nodeIds
  actualIn_mem : ∀ s ∈ p.callSites, ∀ n ∈ s.actualIns, n ∈ p.nodeIds
  actualOut_mem : ∀ s ∈ p.callSites, ∀ o ∈ s.actualOuts, o.2 ∈ p.nodeIds

/-- The graphs of different callables, which share no node. -/
structure Separate (graphs : List ProcedureGraph) : Prop where
  wellFormed : ∀ p ∈ graphs, p.WellFormed
  callables_nodup : (graphs.map (·.callable)).Nodup
  nodes_nodup : (graphs.flatMap (·.nodeIds)).Nodup

/-- A node is one of a callable. -/
def Owns (graphs : List ProcedureGraph) (c : CallableId) (n : NodeId) : Prop :=
  ∃ p ∈ graphs, p.callable = c ∧ n ∈ p.nodeIds

/-- A node belongs to one graph only. -/
theorem Separate.eq_of_node {graphs : List ProcedureGraph} (h : Separate graphs)
    {p q : ProcedureGraph} {n : NodeId} (hp : p ∈ graphs) (hq : q ∈ graphs) (hnp : n ∈ p.nodeIds)
    (hnq : n ∈ q.nodeIds) : p = q :=
  eq_of_nodup_flatMap h.nodes_nodup hp hq hnp hnq

/-- A node belongs to one callable. -/
theorem Owns.unique {graphs : List ProcedureGraph} {c c' : CallableId} {n : NodeId}
    (hsep : Separate graphs) (h : Owns graphs c n) (h' : Owns graphs c' n) : c = c' := by
  obtain ⟨p, hp, rfl, hnp⟩ := h
  obtain ⟨q, hq, rfl, hnq⟩ := h'
  rw [hsep.eq_of_node hp hq hnp hnq]

/-- The call sites of some graphs with their callers. Of several with one number the last
    counts. -/
def sites (graphs : List ProcedureGraph) : List (CallableId × CallSiteNodes) :=
  latest (fun s => s.2.site.id.rank) <| graphs.flatMap fun g => g.callSites.map (g.callable, ·)

theorem exists_graph_of_mem_sites {graphs : List ProcedureGraph} {s : CallableId × CallSiteNodes}
    (h : s ∈ sites graphs) : ∃ p ∈ graphs, p.callable = s.1 ∧ s.2 ∈ p.callSites := by
  obtain ⟨before, after, heq, -⟩ := mem_latest_iff.1 h
  have hmem : s ∈ graphs.flatMap fun g => g.callSites.map (g.callable, ·) := heq ▸ by simp
  obtain ⟨p, hp, hs⟩ := List.mem_flatMap.1 hmem
  obtain ⟨nodes, hnodes, rfl⟩ := List.mem_map.1 hs
  exact ⟨p, hp, rfl, hnodes⟩

end ProcedureGraph

/-! ## What is assembled -/

namespace SystemGraph

open ProcedureGraph

/-- An edge of the call graph stands for a call site of its caller and a procedure. -/
structure Links (g : SystemGraph) (edge : CallEdge) (i : Invocation) (p : Procedure) : Prop where
  invocation : g.invocation? edge.site = some i
  caller : i.caller = edge.caller
  callNode : i.callNode = edge.node
  procedure : g.procedure? edge.callee = some p

/-- A graph is the one assembled of the graphs of the callables of a program, up to its summary
    edges. -/
structure Assembles (h : Hierarchy) (calls : CallGraph) (graphs : List ProcedureGraph)
    (g : SystemGraph) : Prop where
  nodes : g.nodes = graphs.flatMap (·.nodes)
  procedures : List.Forall₂ (fun p procedure => Procedure.ofGraph h p = .ok procedure) graphs
    g.procedures
  invocations : g.invocations =
    latest (fun i : Invocation => i.site.rank) (graphs.flatMap fun p =>
      p.callSites.map (Invocation.ofNodes calls g.procedures p.callable))
  links : ∀ edge ∈ calls.edges, ∃ i p, g.Links edge i p
  edges : ∀ e, e.dependence.kind ≠ .summary → (e ∈ g.edges ↔ joins g.nodes e = true ∧
    ((∃ p ∈ graphs, e ∈ p.edges) ∨
      ∃ edge ∈ calls.edges, ∃ i p, g.Links edge i p ∧ e ∈ interfaceEdges i p))

/-- An invocation may reach a procedure. -/
def MayCall (g : SystemGraph) (i : Invocation) (p : Procedure) : Prop :=
  i ∈ g.invocations ∧ p ∈ g.procedures ∧ p.callable ∈ i.targets

/-- The edges between a call and a callee: to its entry, from each actual to the formal at its
    position, and from each output to where its value is taken. -/
theorem mem_interfaceEdges_iff {i : Invocation} {p : Procedure} {e : DependenceEdge} :
    e ∈ interfaceEdges i p ↔ e = ⟨i.callNode, p.entry, .call i.site⟩ ∨
      (∃ position a f, i.actualIns[position]? = some a ∧ p.formalIns[position]? = some f ∧
        e = ⟨a, f, .parameterIn position⟩) ∨
      ∃ slot o f, (slot, o) ∈ i.actualOuts ∧ p.formalOut? slot = some f ∧
        e = ⟨f, o, .parameterOut slot⟩ := by
  simp only [interfaceEdges, List.mem_append, List.mem_singleton, List.mem_map, List.mem_filterMap,
    Prod.exists, List.mem_zipIdx_iff_getElem?, List.getElem?_zip_eq_some, Option.map_eq_some_iff,
    or_assoc]
  refine or_congr_right (or_congr ?_ ?_)
  · constructor
    · rintro ⟨a, f, position, ⟨ha, hf⟩, rfl⟩
      exact ⟨position, a, f, ha, hf, rfl⟩
    · rintro ⟨position, a, f, ha, hf, rfl⟩
      exact ⟨a, f, position, ⟨ha, hf⟩, rfl⟩
  · constructor
    · rintro ⟨slot, o, ho, f, hf, rfl⟩
      exact ⟨slot, o, f, ho, hf, rfl⟩
    · rintro ⟨slot, o, f, ho, hf, rfl⟩
      exact ⟨slot, o, ho, f, hf, rfl⟩

variable {h : Hierarchy} {calls : CallGraph} {graphs : List ProcedureGraph} {g : SystemGraph}

/-- An edge joins the nodes of a graph if its ends are among them. -/
theorem joins_iff {e : DependenceEdge} :
    joins g.nodes e = true ↔ e.source ∈ g.nodeIds ∧ e.target ∈ g.nodeIds := by
  simp [joins, nodeIds]

/-- An edge of the call graph is linked if its call and its callee are known. -/
theorem linkEdges_eq_ok_iff {edge : CallEdge} {es : List DependenceEdge} :
    linkEdges g.procedures g.invocations edge = .ok es ↔
      ∃ i p, g.Links edge i p ∧ es = interfaceEdges i p := by
  unfold linkEdges
  constructor
  · intro hes
    split at hes
    · cases hes
    · rename_i i hi
      split at hes
      · rename_i hcall
        split at hes
        · cases hes
        · rename_i p hp
          cases hes
          exact ⟨i, p, ⟨hi, hcall.1, hcall.2, hp⟩, rfl⟩
      · cases hes
  · rintro ⟨i, p, ⟨hi, hcaller, hnode, hp⟩, rfl⟩
    have hi : g.invocations.find? (·.site == edge.site) = some i := hi
    have hp : g.procedures.find? (·.callable == edge.callee) = some p := hp
    simp [hi, hp, hcaller, hnode]

/-- The edges in order: those of the graphs, and behind them the interfaces at the edges of the
    call graph, as far as they join nodes. -/
theorem assemble_edges (hg : assemble h calls graphs = .ok g) : ∃ links,
    List.Forall₂ (fun edge es => ∃ i p, g.Links edge i p ∧ es = interfaceEdges i p) calls.edges links ∧
      g.edges = (graphs.flatMap (·.edges) ++ links.flatten).filter (joins g.nodes) := by
  simp only [assemble, bind_eq_ok_iff, mapM_eq_ok_iff] at hg
  obtain ⟨procedures, hprocedures, links, hlinks, hg⟩ := hg
  cases hg
  exact ⟨links, hlinks.imp fun edge es hes => linkEdges_eq_ok_iff.1 hes, rfl⟩

/-- What is assembled, which has no summary edges if the graphs have none. -/
theorem assemble_eq_ok (hg : assemble h calls graphs = .ok g) : Assembles h calls graphs g ∧
    ∀ e ∈ g.edges, (∃ p ∈ graphs, e ∈ p.edges) ∨ ∃ i p, e ∈ interfaceEdges i p := by
  obtain ⟨links, hlinks, hedges⟩ := assemble_edges hg
  simp only [assemble, bind_eq_ok_iff, mapM_eq_ok_iff] at hg
  obtain ⟨procedures, hprocedures, _, -, hg⟩ := hg
  have hunique {edge : CallEdge} {i j : Invocation} {p q : Procedure} (h : g.Links edge i p)
      (h' : g.Links edge j q) : i = j ∧ p = q :=
    ⟨Option.some.inj (h.invocation.symm.trans h'.invocation),
      Option.some.inj (h.procedure.symm.trans h'.procedure)⟩
  -- what is linked are the interfaces at the edges of the call graph
  have hlink (e : DependenceEdge) : e ∈ links.flatten ↔
      ∃ edge ∈ calls.edges, ∃ i p, g.Links edge i p ∧ e ∈ interfaceEdges i p := by
    constructor
    · intro he
      obtain ⟨es, hes, he⟩ := List.mem_flatten.1 he
      obtain ⟨edge, hedge, i, p, hlink, rfl⟩ := forall₂_mem_right hlinks hes
      exact ⟨edge, hedge, i, p, hlink, he⟩
    · rintro ⟨edge, hedge, i, p, hlink, he⟩
      obtain ⟨_, hes, j, q, hlink', rfl⟩ := forall₂_mem_right hlinks.flip hedge
      obtain ⟨rfl, rfl⟩ := hunique hlink hlink'
      exact List.mem_flatten.2 ⟨_, hes, he⟩
  have hedges (e : DependenceEdge) : e ∈ g.edges ↔ joins g.nodes e = true ∧
      ((∃ p ∈ graphs, e ∈ p.edges) ∨
        ∃ edge ∈ calls.edges, ∃ i p, g.Links edge i p ∧ e ∈ interfaceEdges i p) := by
    rw [← hlink, hedges, List.mem_filter, List.mem_append, List.mem_flatMap, and_comm]
  refine ⟨⟨by cases hg; rfl, by cases hg; exact hprocedures, by cases hg; rfl, ?_,
    fun e _ => hedges e⟩, fun e he => ?_⟩
  · intro edge hedge
    obtain ⟨_, -, i, p, hlink, -⟩ := forall₂_mem_right hlinks.flip hedge
    exact ⟨i, p, hlink⟩
  · refine ((hedges e).1 he).2.imp_right ?_
    rintro ⟨-, -, i, p, -, he⟩
    exact ⟨i, p, he⟩

section Assembled

variable (hg : Assembles h calls graphs g)

include hg

/-- The nodes of the system are those of the graphs, one after the other. -/
theorem Assembles.nodeIds_eq : g.nodeIds = graphs.flatMap (·.nodeIds) := by
  simp [nodeIds, hg.nodes, List.map_flatMap, ProcedureGraph.nodeIds]

/-- Each node of the system belongs to a callable. -/
theorem Assembles.mem_nodeIds_iff {n : NodeId} : n ∈ g.nodeIds ↔ ∃ c, Owns graphs c n := by
  rw [hg.nodeIds_eq, List.mem_flatMap]
  constructor
  · rintro ⟨p, hp, hn⟩
    exact ⟨p.callable, p, hp, rfl, hn⟩
  · rintro ⟨_, p, hp, -, hn⟩
    exact ⟨p, hp, hn⟩

/-- Procedures stand for the graphs of callables. -/
theorem Assembles.exists_graph {p : Procedure} (hp : p ∈ g.procedures) :
    ∃ graph ∈ graphs, ∃ decl, h.callable? graph.callable = some decl ∧
      p = ⟨graph.callable, graph.entry, graph.exit, decl.hasBody, graph.formalIns, graph.formalOuts⟩ := by
  obtain ⟨graph, hgraph, hof⟩ := forall₂_mem_right hg.procedures hp
  unfold Procedure.ofGraph at hof
  split at hof
  · cases hof
  · rename_i decl hdecl
    exact ⟨graph, hgraph, decl, hdecl, (Except.ok.inj hof).symm⟩

/-- Each graph has its procedure, in order. -/
theorem Assembles.map_callable : g.procedures.map (·.callable) = graphs.map (·.callable) := by
  have hcallables : List.Forall₂ (fun graph procedure => graph.callable = procedure.callable) graphs
      g.procedures := by
    refine hg.procedures.imp fun graph p hof => ?_
    unfold Procedure.ofGraph at hof
    split at hof
    · cases hof
    · cases hof
      rfl
  have hmap := List.forall₂_map_right_iff.2 (List.forall₂_map_left_iff.2 hcallables)
  rw [List.forall₂_eq_eq_eq] at hmap
  exact hmap.symm

/-- A procedure is found by its callable. -/
theorem Assembles.procedure?_eq_some_iff (hsep : Separate graphs) {c : CallableId} {p : Procedure} :
    g.procedure? c = some p ↔ p ∈ g.procedures ∧ p.callable = c := by
  have hnodup : (g.procedures.map (·.callable)).Nodup := hg.map_callable ▸ hsep.callables_nodup
  exact find?_eq_some_iff_of_unique fun p hp q hq => List.inj_on_of_nodup_map hnodup hp hq

/-- There is one call at a site. -/
theorem Assembles.eq_of_site {i j : Invocation} (hi : i ∈ g.invocations) (hj : j ∈ g.invocations)
    (heq : i.site = j.site) : i = j := by
  rw [hg.invocations] at hi hj
  exact eq_of_mem_latest hi hj (congrArg Ident.rank heq)

/-- A call is found by its site. -/
theorem Assembles.invocation?_eq_some_iff {site : CallSiteId} {i : Invocation} :
    g.invocation? site = some i ↔ i ∈ g.invocations ∧ i.site = site :=
  find?_eq_some_iff_of_unique fun _ hi _ hj => hg.eq_of_site hi hj

theorem Assembles.isOpaqueAt_eq {i : Invocation} (hi : i ∈ g.invocations) :
    g.isOpaqueAt i.site = i.isOpaque := by
  rw [isOpaqueAt, hg.invocation?_eq_some_iff.2 ⟨hi, rfl⟩]

/-- Invocations stand for call sites. -/
theorem Assembles.mem_invocations_iff {i : Invocation} : i ∈ g.invocations ↔
    ∃ s ∈ sites graphs, Invocation.ofNodes calls g.procedures s.1 s.2 = i := by
  have hmap : (graphs.flatMap fun p => p.callSites.map
        (Invocation.ofNodes calls g.procedures p.callable)) =
      (graphs.flatMap fun p => p.callSites.map (p.callable, ·)).map
        fun s => Invocation.ofNodes calls g.procedures s.1 s.2 := by
    simp only [List.map_flatMap, List.map_map]
    rfl
  rw [hg.invocations, hmap, mem_latest_map_iff]
  rfl

/-- A call comes from a site of a graph. -/
theorem Assembles.exists_site {i : Invocation} (hi : i ∈ g.invocations) :
    ∃ p ∈ graphs, ∃ nodes ∈ p.callSites, Invocation.ofNodes calls g.procedures p.callable nodes = i := by
  obtain ⟨⟨c, nodes⟩, hs, rfl⟩ := hg.mem_invocations_iff.1 hi
  obtain ⟨p, hp, rfl, hnodes⟩ := exists_graph_of_mem_sites hs
  exact ⟨p, hp, nodes, hnodes, rfl⟩

variable (hsep : Separate graphs)

include hsep

/-- The node of a call belongs to its caller. -/
theorem Assembles.owns_callNode {i : Invocation} (hi : i ∈ g.invocations) :
    Owns graphs i.caller i.callNode := by
  obtain ⟨p, hp, nodes, hnodes, rfl⟩ := hg.exists_site hi
  exact ⟨p, hp, rfl, (hsep.wellFormed p hp).callNode_mem nodes hnodes⟩

/-- What a call passes belongs to its caller. -/
theorem Assembles.owns_actualIn {i : Invocation} (hi : i ∈ g.invocations) {a : NodeId}
    (ha : a ∈ i.actualIns) : Owns graphs i.caller a := by
  obtain ⟨p, hp, nodes, hnodes, rfl⟩ := hg.exists_site hi
  exact ⟨p, hp, rfl, (hsep.wellFormed p hp).actualIn_mem nodes hnodes a ha⟩

/-- What a call takes back belongs to its caller. -/
theorem Assembles.owns_actualOut {i : Invocation} (hi : i ∈ g.invocations) {slot : OutputSlot}
    {o : NodeId} (ho : (slot, o) ∈ i.actualOuts) : Owns graphs i.caller o := by
  obtain ⟨p, hp, nodes, hnodes, rfl⟩ := hg.exists_site hi
  exact ⟨p, hp, rfl, (hsep.wellFormed p hp).actualOut_mem nodes hnodes _ ho⟩

theorem Assembles.owns_entry {p : Procedure} (hp : p ∈ g.procedures) :
    Owns graphs p.callable p.entry := by
  obtain ⟨graph, hgraph, decl, -, rfl⟩ := hg.exists_graph hp
  exact ⟨graph, hgraph, rfl, (hsep.wellFormed graph hgraph).entry_mem⟩

theorem Assembles.owns_formalIn {p : Procedure} (hp : p ∈ g.procedures) {n : NodeId}
    (hn : n ∈ p.formalIns) : Owns graphs p.callable n := by
  obtain ⟨graph, hgraph, decl, -, rfl⟩ := hg.exists_graph hp
  exact ⟨graph, hgraph, rfl, (hsep.wellFormed graph hgraph).formalIn_mem n hn⟩

theorem Assembles.owns_formalOut {p : Procedure} (hp : p ∈ g.procedures) {slot : OutputSlot}
    {o : NodeId} (ho : (slot, o) ∈ p.formalOuts) : Owns graphs p.callable o := by
  obtain ⟨graph, hgraph, decl, -, rfl⟩ := hg.exists_graph hp
  exact ⟨graph, hgraph, rfl, (hsep.wellFormed graph hgraph).formalOut_mem _ ho⟩

omit hg in
/-- The ends of an edge of a graph belong to its callable. -/
theorem owns_of_mem_edges {p : ProcedureGraph} (hp : p ∈ graphs) {e : DependenceEdge}
    (he : e ∈ p.edges) : Owns graphs p.callable e.source ∧ Owns graphs p.callable e.target :=
  ⟨⟨p, hp, rfl, (hsep.wellFormed p hp).source_mem e he⟩,
    ⟨p, hp, rfl, (hsep.wellFormed p hp).target_mem e he⟩⟩

/-- The control and data dependences are those within callables. -/
theorem Assembles.mem_edges_iff {e : DependenceEdge}
    (hd : e.dependence = .control ∨ ∃ var, e.dependence = .data var) :
    e ∈ g.edges ↔ ∃ p ∈ graphs, e ∈ p.edges := by
  have hkind : e.dependence.kind ≠ .summary := by
    obtain hd | ⟨var, hd⟩ := hd <;> simp [hd, Dependence.kind]
  rw [hg.edges e hkind]
  constructor
  · rintro ⟨-, hpart | ⟨edge, -, i, p, -, he⟩⟩
    · exact hpart
    · -- the edges of an interface are of other kinds
      obtain rfl | ⟨_, _, _, _, _, rfl⟩ | ⟨_, _, _, _, _, rfl⟩ := mem_interfaceEdges_iff.1 he <;>
        obtain hd | ⟨_, hd⟩ := hd <;> cases hd
  · rintro ⟨p, hp, he⟩
    obtain ⟨hsource, htarget⟩ := owns_of_mem_edges hsep hp he
    exact ⟨joins_iff.2 ⟨hg.mem_nodeIds_iff.2 ⟨_, hsource⟩, hg.mem_nodeIds_iff.2 ⟨_, htarget⟩⟩,
      .inl ⟨p, hp, he⟩⟩

/-- What leaves a procedure is found by its slot. -/
theorem Assembles.formalOut?_eq_some_iff {p : Procedure} (hp : p ∈ g.procedures) {slot : OutputSlot}
    {o : NodeId} : p.formalOut? slot = some o ↔ (slot, o) ∈ p.formalOuts := by
  obtain ⟨graph, hgraph, decl, -, rfl⟩ := hg.exists_graph hp
  exact lookup_eq_some_iff_mem (hsep.wellFormed graph hgraph).slots_nodup

/-- The edges of the call graph link a call to the procedures that it may call. -/
theorem Assembles.exists_links_iff {i : Invocation} {p : Procedure} :
    (∃ edge ∈ calls.edges, g.Links edge i p) ↔ g.MayCall i p := by
  constructor
  · rintro ⟨edge, hedge, hlink⟩
    obtain ⟨hi, hsite⟩ := hg.invocation?_eq_some_iff.1 hlink.invocation
    obtain ⟨hp, hcallee⟩ := (hg.procedure?_eq_some_iff hsep).1 hlink.procedure
    refine ⟨hi, hp, ?_⟩
    obtain ⟨_, _, nodes, _, rfl⟩ := hg.exists_site hi
    have hsite : edge.site = nodes.site.id := hsite.symm
    have hmem : edge ∈ calls.edges.filter (·.site == nodes.site.id) := by simp [hedge, hsite]
    exact hcallee ▸ List.mem_map_of_mem hmem
  · rintro ⟨hi, hp, htarget⟩
    obtain ⟨_, _, nodes, _, rfl⟩ := hg.exists_site hi
    -- the edge with the target links what has its numbers, and numbers are given once
    obtain ⟨edge, hedge, hcallee⟩ := List.mem_map.1 htarget
    rw [List.mem_filter, beq_iff_eq] at hedge
    obtain ⟨j, q, hlink⟩ := hg.links edge hedge.1
    obtain ⟨hj, hsite⟩ := hg.invocation?_eq_some_iff.1 hlink.invocation
    obtain rfl := hg.eq_of_site hj hi (hsite.trans hedge.2)
    have hq := hlink.procedure
    rw [hcallee, (hg.procedure?_eq_some_iff hsep).2 ⟨hp, rfl⟩] at hq
    obtain rfl := Option.some.inj hq
    exact ⟨edge, hedge.1, hlink⟩

/-- The edges between calls and callees join nodes of the system. -/
theorem Assembles.joins_of_mem_interfaceEdges {i : Invocation} (hi : i ∈ g.invocations)
    {p : Procedure} (hp : p ∈ g.procedures) {e : DependenceEdge} (he : e ∈ interfaceEdges i p) :
    joins g.nodes e = true := by
  rw [joins_iff, hg.mem_nodeIds_iff, hg.mem_nodeIds_iff]
  obtain rfl | ⟨position, a, f, ha, hf, rfl⟩ | ⟨slot, o, f, ho, hf, rfl⟩ := mem_interfaceEdges_iff.1 he
  · exact ⟨⟨_, hg.owns_callNode hsep hi⟩, ⟨_, hg.owns_entry hsep hp⟩⟩
  · exact ⟨⟨_, hg.owns_actualIn hsep hi (List.mem_of_getElem? ha)⟩,
      ⟨_, hg.owns_formalIn hsep hp (List.mem_of_getElem? hf)⟩⟩
  · exact ⟨⟨_, hg.owns_formalOut hsep hp ((hg.formalOut?_eq_some_iff hsep hp).1 hf)⟩,
      ⟨_, hg.owns_actualOut hsep hi ho⟩⟩

/-- The edges between a call and its callees are those of their interfaces. -/
theorem Assembles.mem_edges_iff_interface {e : DependenceEdge}
    (hd : e.dependence.isIntraprocedural = false) :
    e ∈ g.edges ↔ ∃ i p, g.MayCall i p ∧ e ∈ interfaceEdges i p := by
  have hkind : e.dependence.kind ≠ .summary := by
    intro hkind
    rw [Dependence.isIntraprocedural, hkind] at hd
    cases hd
  rw [hg.edges e hkind]
  constructor
  · rintro ⟨-, ⟨p, hp, he⟩ | ⟨edge, hedge, i, p, hlink, he⟩⟩
    · -- the edges within a callable are of other kinds
      obtain hd' | ⟨var, hd'⟩ := (hsep.wellFormed p hp).dependence e he <;> rw [hd'] at hd <;> cases hd
    · exact ⟨i, p, (hg.exists_links_iff hsep).1 ⟨edge, hedge, hlink⟩, he⟩
  · rintro ⟨i, p, hcall, he⟩
    obtain ⟨edge, hedge, hlink⟩ := (hg.exists_links_iff hsep).2 hcall
    exact ⟨hg.joins_of_mem_interfaceEdges hsep hcall.1 hcall.2.1 he, .inr ⟨edge, hedge, i, p, hlink, he⟩⟩

/-- What goes into a call goes into the callees of the call. -/
theorem Assembles.parameterIn_mem {i : Invocation} {p : Procedure} (hcall : g.MayCall i p) {position : Nat}
    {a formalIn : NodeId} (ha : i.actualIns[position]? = some a)
    (hin : p.formalIns[position]? = some formalIn) : ⟨a, formalIn, .parameterIn position⟩ ∈ g.edges := by
  refine (hg.mem_edges_iff_interface hsep rfl).2 ⟨i, p, hcall, ?_⟩
  exact mem_interfaceEdges_iff.2 (.inr (.inl ⟨position, a, formalIn, ha, hin, rfl⟩))

/-- What comes out of the callees of a call comes out of the call. -/
theorem Assembles.parameterOut_mem {i : Invocation} {p : Procedure} (hcall : g.MayCall i p)
    {slot : OutputSlot} {o formalOut : NodeId} (ho : (slot, o) ∈ i.actualOuts)
    (hout : (slot, formalOut) ∈ p.formalOuts) : ⟨formalOut, o, .parameterOut slot⟩ ∈ g.edges := by
  refine (hg.mem_edges_iff_interface hsep rfl).2 ⟨i, p, hcall, ?_⟩
  have hformalOut := (hg.formalOut?_eq_some_iff hsep hcall.2.1).2 hout
  exact mem_interfaceEdges_iff.2 (.inr (.inr ⟨slot, o, formalOut, ho, hformalOut, rfl⟩))

end Assembled

end SystemGraph

end Slicing
