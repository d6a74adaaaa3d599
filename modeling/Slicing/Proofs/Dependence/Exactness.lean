import Slicing.Proofs.Dependence.Analysis
import Slicing.Proofs.Dependence.Gains

/-!
# Assembly is exact

A graph is put together without a loss and without an addition (`SystemGraph.build_exact`). An edge
is only added between two nodes, of several call sites with one number only the last is recorded,
and calls and callees need not agree in the number of their parameters. Still, as the flow graphs of
callables share no node, the graph has all their nodes and edges, and at each edge of the call graph
all that its call site and its callee have in common, everything as often as it should.

What is in common to a call site and a callee is said by positions and slots
(`ProcedureGraph.Interface`): there is one edge for the call, one for each position that both have
and one for each slot that both have.
-/

namespace Slicing

namespace ProcedureGraph

/-- An edge of a call graph stands for a call site of its caller and for its callee. -/
structure Connects (graphs : List ProcedureGraph) (edge : CallEdge) (s : CallSiteNodes)
    (callee : ProcedureGraph) : Prop where
  site : ∃ caller ∈ graphs, caller.callable = edge.caller ∧ s ∈ caller.callSites
  id : s.site.id = edge.site
  callNode : s.callNode = edge.node
  callee_mem : callee ∈ graphs
  callable : callee.callable = edge.callee

/-- The edges between a call site and a callee. -/
inductive Interface (s : CallSiteNodes) (callee : ProcedureGraph) : DependenceEdge → Prop where
  | call : Interface s callee ⟨s.callNode, callee.entry, .call s.site.id⟩
  | parameterIn {position : Nat} {a f : NodeId} :
      s.actualIns[position]? = some a → callee.formalIns[position]? = some f →
        Interface s callee ⟨a, f, .parameterIn position⟩
  | parameterOut {slot : OutputSlot} {f o : NodeId} :
      callee.formalOuts.lookup slot = some f → s.actualOuts.lookup slot = some o →
        Interface s callee ⟨f, o, .parameterOut slot⟩

end ProcedureGraph

namespace SystemGraph

open ProcedureGraph

/-- A graph has what the graphs of some callables and a call graph between them have, each node and
    each edge as often, and summary edges at calls. -/
structure Exact (h : Hierarchy) (calls : CallGraph) (graphs : List ProcedureGraph)
    (g : SystemGraph) : Prop where
  nodes : g.nodes = graphs.flatMap (·.nodes)
  nodeIds_nodup : g.nodeIds.Nodup
  /-- The edges of the callables, and at each call those of its interface. -/
  others : ∃ links : List (List DependenceEdge),
    List.Forall₂ (fun edge es => es.Nodup ∧ ∃ s callee, Connects graphs edge s callee ∧
      ∀ e, e ∈ es ↔ Interface s callee e) calls.edges links ∧
    (g.edges.filter (·.dependence.kind != .summary)).Perm (graphs.flatMap (·.edges) ++ links.flatten)
  /-- A summary edge joins an actual-in and an actual-out of its call site. -/
  across : ∀ a o site, (a, o, site) ∈ g.summaryEdges → ∃ p ∈ graphs, ∃ s ∈ p.callSites,
    s.site.id = site ∧ a ∈ s.actualIns ∧ ∃ slot, (slot, o) ∈ s.actualOuts
  summaryEdges_nodup : g.summaryEdges.Nodup
  /-- The ends of an edge within a callable are nodes of one callable. -/
  inside : ∀ e ∈ g.edges, e.dependence.isIntraprocedural = true → ∃ u ∈ g.nodes, ∃ v ∈ g.nodes,
    u.id = e.source ∧ v.id = e.target ∧ u.callable = v.callable
  /-- A call site is opaque if a target was left out, or no target has a body. -/
  isOpaqueAt_iff : ∀ p ∈ graphs, ∀ s ∈ p.callSites, g.isOpaqueAt s.site.id = true ↔
    (∃ c, (s.site.id, c) ∈ calls.excluded) ∨ ∀ edge ∈ calls.edges, edge.site = s.site.id →
      ∀ decl, h.callable? edge.callee = some decl → decl.hasBody = false
  totalEdges : g.totalEdges = g.edges.length
  count_summary : g.count .summary = g.tally.opaqueEdges + g.tally.edgesAdded

variable {config : SummaryConfig} {h : Hierarchy} {calls : CallGraph} {graphs : List ProcedureGraph}
  {g : SystemGraph}

/-! ## Interfaces -/

/-- The edges of an interface differ in their positions and slots. -/
theorem nodup_interfaceEdges {i : Invocation} {p : Procedure} (hslots : (i.actualOuts.map (·.1)).Nodup) :
    (interfaceEdges i p).Nodup := by
  have hpositions : ((i.actualIns.zip p.formalIns).zipIdx.map Prod.snd).Nodup := by
    rw [List.zipIdx_map_snd]
    exact List.nodup_range'
  rw [interfaceEdges, List.append_assoc, List.singleton_append, List.nodup_cons, List.nodup_append]
  refine ⟨fun he => ?_, ?_, ?_, fun e he e' he' heq => ?_⟩
  · simp at he
  · refine List.Nodup.of_map (·.dependence) ?_
    rw [List.map_map]
    have hins := hpositions.map fun _ _ h => Dependence.parameterIn.inj h
    rwa [List.map_map] at hins
  · refine hslots.of_map.filterMap ?_
    rintro ⟨slot, o⟩ ⟨slot', o'⟩ e he he'
    obtain ⟨f, -, rfl⟩ := Option.map_eq_some_iff.1 he
    obtain ⟨f', -, heq⟩ := Option.map_eq_some_iff.1 he'
    cases heq
    rfl
  · -- one of them is for a position, the other for a slot
    obtain ⟨⟨⟨a, f⟩, position⟩, -, rfl⟩ := List.mem_map.1 he
    obtain ⟨⟨slot, o⟩, -, hmap⟩ := List.mem_filterMap.1 he'
    obtain ⟨f', -, rfl⟩ := Option.map_eq_some_iff.1 hmap
    cases heq

/-- What links the invocation of a call site and the procedure of a callee is their interface. -/
theorem Assembles.interface_of_links (hg : Assembles h calls graphs g) (hsep : Separate graphs)
    (hshaped : ∀ p ∈ graphs, p.Shaped) {edge : CallEdge} {i : Invocation} {p : Procedure}
    (hlink : g.Links edge i p) : (interfaceEdges i p).Nodup ∧ ∃ s callee, Connects graphs edge s callee ∧
      ∀ e, e ∈ interfaceEdges i p ↔ Interface s callee e := by
  obtain ⟨hi, hsite⟩ := hg.invocation?_eq_some_iff.1 hlink.invocation
  obtain ⟨hp, hcallee⟩ := (hg.procedure?_eq_some_iff hsep).1 hlink.procedure
  obtain ⟨caller, hcaller, s, hs, rfl⟩ := hg.exists_site hi
  obtain ⟨callee, hmem, decl, -, rfl⟩ := hg.exists_graph hp
  have hslots := (hshaped caller hcaller).slots s hs
  refine ⟨nodup_interfaceEdges hslots, s, callee,
    ⟨⟨caller, hcaller, hlink.caller, hs⟩, hsite, hlink.callNode, hmem, hcallee⟩, fun e => ?_⟩
  rw [mem_interfaceEdges_iff]
  constructor
  · rintro (rfl | ⟨position, a, f, ha, hf, rfl⟩ | ⟨slot, o, f, ho, hf, rfl⟩)
    · exact .call
    · exact .parameterIn ha hf
    · exact .parameterOut hf ((lookup_eq_some_iff_mem hslots).2 ho)
  · intro he
    cases he with
    | call => exact .inl rfl
    | parameterIn ha hf => exact .inr (.inl ⟨_, _, _, ha, hf, rfl⟩)
    | parameterOut hf ho => exact .inr (.inr ⟨_, _, _, (lookup_eq_some_iff_mem hslots).1 ho, hf, rfl⟩)

/-! ## Opaque calls -/

/-- A call site is opaque if one of its targets was left out, or none of them has a body. -/
theorem Assembles.isOpaqueAt_iff (hg : Assembles h calls graphs g) (hsep : Separate graphs)
    {p : ProcedureGraph} (hp : p ∈ graphs) {s : CallSiteNodes} (hs : s ∈ p.callSites) :
    g.isOpaqueAt s.site.id = true ↔
      (∃ c, (s.site.id, c) ∈ calls.excluded) ∨ ∀ edge ∈ calls.edges, edge.site = s.site.id →
        ∀ decl, h.callable? edge.callee = some decl → decl.hasBody = false := by
  -- the record of the site may be that of another one with its number, but it has the same targets
  obtain ⟨i, hi, hsite⟩ : ∃ i ∈ g.invocations, i.site = s.site.id := by
    have hmem : Invocation.ofNodes calls g.procedures p.callable s ∈ graphs.flatMap fun p =>
        p.callSites.map (Invocation.ofNodes calls g.procedures p.callable) :=
      List.mem_flatMap.2 ⟨p, hp, List.mem_map_of_mem hs⟩
    obtain ⟨i, hi, hrank⟩ := exists_mem_latest (fun i : Invocation => i.site.rank) hmem
    exact ⟨i, hg.invocations ▸ hi, Ident.rank_injective hrank⟩
  rw [← hsite, hg.isOpaqueAt_eq hi]
  obtain ⟨_, -, nodes, -, rfl⟩ := hg.exists_site hi
  have htargets : (∀ target ∈ calls.targetsOf nodes.site.id, ¬(g.procedures.any fun p =>
        p.callable == target && p.hasBody) = true) ↔
      ∀ edge ∈ calls.edges, edge.site = nodes.site.id → ∀ decl, h.callable? edge.callee = some decl →
        decl.hasBody = false := by
    constructor
    · intro hnone edge hedge hsite decl hdecl
      obtain ⟨i, q, hlink⟩ := hg.links edge hedge
      obtain ⟨hq, hcallee⟩ := (hg.procedure?_eq_some_iff hsep).1 hlink.procedure
      obtain ⟨graph, -, decl', hdecl', rfl⟩ := hg.exists_graph hq
      obtain rfl : decl' = decl := by
        rw [← hcallee] at hdecl
        exact Option.some.inj (hdecl'.symm.trans hdecl)
      have hmem : edge.callee ∈ calls.targetsOf nodes.site.id :=
        List.mem_map_of_mem (List.mem_filter.2 ⟨hedge, beq_iff_eq.2 hsite⟩)
      have hbody := hnone _ hmem
      simp only [List.any_eq_true, not_exists, not_and, Bool.and_eq_true, beq_iff_eq] at hbody
      simpa using hbody _ hq hcallee
    · intro hnone target htarget hbody
      obtain ⟨edge, hedge, rfl⟩ := List.mem_map.1 htarget
      obtain ⟨hedge, hsite⟩ := List.mem_filter.1 hedge
      obtain ⟨q, hq, hbody⟩ := List.any_eq_true.1 hbody
      obtain ⟨graph, -, decl, hdecl, rfl⟩ := hg.exists_graph hq
      simp only [Bool.and_eq_true, beq_iff_eq] at hbody
      have hnone := hnone edge hedge (beq_iff_eq.1 hsite) decl (hbody.1 ▸ hdecl)
      rw [hbody.2] at hnone
      cases hnone
  have hexcluded : (calls.excludedTargetsOf nodes.site.id).isEmpty = false ↔
      ∃ c, (nodes.site.id, c) ∈ calls.excluded := by
    simp [CallGraph.excludedTargetsOf]
  simp only [Invocation.ofNodes, Bool.or_eq_true, Bool.not_eq_true', List.any_eq_false, hexcluded, htargets]

/-! ## Counts -/

/-- The numbers of edges of each kind add up. -/
theorem totalEdges_eq (g : SystemGraph) : g.totalEdges = g.edges.length := by
  simp only [totalEdges, count, DependenceKind.all, List.foldr_cons, List.foldr_nil]
  induction g.edges with
  | nil => rfl
  | cons e edges ih =>
    simp only [List.countP_cons, List.length_cons]
    cases e.dependence.kind <;> simp <;> omega

/-! ## Building -/

/-- All edges that are put together join nodes, so that none is left out. -/
theorem assemble_edges_eq (hsep : Separate graphs) (hg : assemble h calls graphs = .ok g) : ∃ links,
    List.Forall₂ (fun edge es => ∃ i p, g.Links edge i p ∧ es = interfaceEdges i p) calls.edges links ∧
      g.edges = graphs.flatMap (·.edges) ++ links.flatten := by
  obtain ⟨links, hlinks, hedges⟩ := assemble_edges hg
  have hassembles := (assemble_eq_ok hg).1
  refine ⟨links, hlinks, hedges.trans (List.filter_eq_self.2 fun e he => ?_)⟩
  obtain he | he := List.mem_append.1 he
  · -- an edge within a callable joins nodes of it
    obtain ⟨p, hp, he⟩ := List.mem_flatMap.1 he
    obtain ⟨hsource, htarget⟩ := owns_of_mem_edges hsep hp he
    exact joins_iff.2 ⟨hassembles.mem_nodeIds_iff.2 ⟨_, hsource⟩, hassembles.mem_nodeIds_iff.2 ⟨_, htarget⟩⟩
  · -- an interface joins nodes of the caller and of the callee
    obtain ⟨es, hes, he⟩ := List.mem_flatten.1 he
    obtain ⟨edge, -, i, p, hlink, rfl⟩ := forall₂_mem_right hlinks hes
    obtain ⟨hi, -⟩ := hassembles.invocation?_eq_some_iff.1 hlink.invocation
    obtain ⟨hp, -⟩ := (hassembles.procedure?_eq_some_iff hsep).1 hlink.procedure
    exact hassembles.joins_of_mem_interfaceEdges hsep hi hp he

/-- What is built of the graphs of analysed callables is exact. -/
theorem build_exact (hgraphs : Analysed graphs) (hg : build config h calls graphs = .ok g) :
    Exact h calls graphs g := by
  have hsep := hgraphs.separate
  obtain ⟨g₀, new, hg₀, hgains, htally⟩ := build_gains hsep hg
  obtain ⟨g₁, hb⟩ := build_eq_ok hsep hg
  have hnone (e : DependenceEdge) (he : e ∈ g₀.edges) := kind_ne_summary_of_assemble hsep hg₀ he
  obtain ⟨links, hlinks, hedges⟩ := assemble_edges_eq hsep hg₀
  have howns {c : CallableId} {n : NodeId} (hn : Owns graphs c n) :
      ∃ node ∈ g.nodes, node.id = n ∧ node.callable = c := by
    obtain ⟨p, hp, rfl, hn⟩ := hn
    obtain ⟨node, hnode, rfl⟩ := List.mem_map.1 hn
    exact ⟨node, hb.assembles.nodes ▸ List.mem_flatMap.2 ⟨p, hp, hnode⟩, rfl,
      hgraphs.callable_of_mem_nodes hp hnode⟩
  refine ⟨hb.assembles.nodes, hb.assembles.nodeIds_eq ▸ hsep.nodes_nodup, ⟨links, ?_, ?_⟩, ?_, ?_, ?_,
    fun p hp s hs => hb.assembles.isOpaqueAt_iff hsep hp hs, totalEdges_eq g, ?_⟩
  · refine hlinks.imp fun edge es hes => ?_
    obtain ⟨i, p, hlink, rfl⟩ := hes
    exact (assemble_eq_ok hg₀).1.interface_of_links hsep (fun p hp => hgraphs.shaped hp) hlink
  · rw [hgains.filter_others hnone, hedges]
  · intro a o site he
    obtain ⟨i, hi, rfl, ha, slot, ho⟩ := hb.isLocal.across a o site he
    obtain ⟨p, hp, s, hs, rfl⟩ := hb.assembles.exists_site hi
    exact ⟨p, hp, s, hs, rfl, ha, slot, ho⟩
  · refine nodup_summaryEdges ?_
    rw [hgains.filter_summary hnone]
    exact hgains.nodup
  · intro e he hd
    obtain ⟨c, hsource, htarget⟩ := hb.isLocal.owns_of_step (localStep_iff.2 ⟨_, he, hd⟩)
    obtain ⟨u, hu, hu', rfl⟩ := howns hsource
    obtain ⟨v, hv, hv', hcallable⟩ := howns htarget
    exact ⟨u, hu, v, hv, hu', hv', hcallable.symm⟩
  · rw [count, List.countP_eq_length_filter, hgains.filter_summary hnone, htally]

end SystemGraph

namespace Analysis

/-- A callable that returns its parameter, and one that calls it with two arguments. -/
def unevenCall : Program where
  types := [⟨⟨0⟩, "T", []⟩]
  callables :=
    [{ id := ⟨0⟩, name := "id", kind := .method, owner := ⟨0⟩, signature := ⟨"id", ["int"]⟩
       isStatic := true, params := [⟨"p", .byValue⟩], returnsValue := true
       body := some [.returnJump ⟨⟨0⟩, "return p", none⟩ (some ⟨[], ["p"], [], []⟩)], span := none },
     { id := ⟨1⟩, name := "f", kind := .method, owner := ⟨0⟩, signature := ⟨"f", ["int"]⟩
       isStatic := true, params := [⟨"a", .byValue⟩], returnsValue := true
       body := some [.returnJump ⟨⟨1⟩, "return id(1, a)", none⟩ (some ⟨[], [],
         [⟨⟨0⟩, "id(1, a)", .declared ⟨0⟩, .direct, [.ofExpr "1" [], .ofVar "a"], true, []⟩], []⟩)]
       span := none }]

/-- Only the first argument is handed over, and only for it there is a summary edge. -/
theorem unevenCall_exact : ∃ a, run (.ofPreset .thorough) unevenCall = .ok a ∧
    a.system.count .parameterIn = 1 ∧ a.system.summaryEdges.length = 1 ∧
    SystemGraph.Exact ⟨unevenCall.types, unevenCall.callables⟩ a.callGraph
      (procedureGraphs ⟨unevenCall.types, unevenCall.callables⟩ unevenCall.callables) a.system := by
  obtain ⟨a, ha, hcount, hsummaries⟩ : ∃ a, run (.ofPreset .thorough) unevenCall = .ok a ∧
      a.system.count .parameterIn = 1 ∧ a.system.summaryEdges.length = 1 :=
    SystemGraph.exists_ok_of_any (by cbv)
  exact ⟨a, ha, hcount, hsummaries, SystemGraph.build_exact (analysed _ _) (run_eq_ok ha)⟩

end Analysis

end Slicing
