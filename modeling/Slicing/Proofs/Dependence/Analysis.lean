import Slicing.Analysis
import Slicing.Proofs.Dependence.Summaries
import Slicing.Proofs.Flow.Numbers

/-!
# Analysed programs

The graphs of the callables that an analysis hands on are separate, and their nodes are what
they are taken for (`ProcedureGraph.Shaped`): entries, formals, calls and actuals are nodes of
these kinds. A call reads no variable, so that it only depends on what decides about it, and
what decides about a call decides about its actual-outs, unless the call does.

All this holds of any graphs that were made of flow graphs without a common node
(`ProcedureGraph.Analysed`), such as those of a program (`Analysis.analysed`).
`Analysis.run_eq_ok` says what the dependence graph of a program is built of.
-/

namespace Slicing

namespace ProcedureGraph

/-- A node of a kind. -/
def HasKind (p : ProcedureGraph) (id : NodeId) (kind : NodeKind) : Prop :=
  ∃ node ∈ p.nodes, node.id = id ∧ node.kind = kind

/-- The nodes of a graph are of the kinds that they are taken for, and what a call depends on
    its actual-outs depend on, or the call itself decides about them. -/
structure Shaped (p : ProcedureGraph) : Prop where
  entry : p.HasKind p.entry .entry
  formalIn : ∀ x ∈ p.formalIns, ∃ position, p.HasKind x (.formalIn position)
  formalOut : ∀ o ∈ p.formalOuts, p.HasKind o.2 (.formalOut o.1)
  call : ∀ r ∈ p.callSites, p.HasKind r.callNode (.call r.site.id)
  actualIn : ∀ r ∈ p.callSites, ∀ x ∈ r.actualIns, ∃ position, p.HasKind x (.actualIn r.site.id position)
  actualOut : ∀ r ∈ p.callSites, ∀ o ∈ r.actualOuts, p.HasKind o.2 (.actualOut r.site.id o.1)
  slots : ∀ r ∈ p.callSites, (r.actualOuts.map (·.1)).Nodup
  data : ∀ e ∈ p.edges, ∀ r ∈ p.callSites, e.target = r.callNode → e.dependence = .control
  control : ∀ r ∈ p.callSites, ∀ o ∈ r.actualOuts, ∀ x, x ≠ r.callNode →
    ⟨x, r.callNode, .control⟩ ∈ p.edges →
      ⟨x, o.2, .control⟩ ∈ p.edges ∨ ⟨r.callNode, o.2, .control⟩ ∈ p.edges

theorem HasKind.mem {p : ProcedureGraph} {id : NodeId} {kind : NodeKind} (hk : p.HasKind id kind) :
    id ∈ p.nodeIds := by
  obtain ⟨node, hnode, rfl, -⟩ := hk
  exact List.mem_map_of_mem hnode

end ProcedureGraph

/-! ## Dependences within a callable -/

namespace FlowGraph

variable {g : FlowGraph}

/-- A data dependence leads from a node to one that reads the variable. -/
theorem mem_dependences {d : DataDependence} (hd : d ∈ g.reachingDefinitions.dependences g) :
    d.source ∈ g.ids ∧ ∃ node ∈ g.nodes, node.id = d.target ∧ d.var ∈ node.uses := by
  obtain ⟨node, hnode, hd⟩ := List.mem_flatMap.1 hd
  obtain ⟨var, hvar, hd⟩ := List.mem_flatMap.1 hd
  obtain ⟨def₀, hdef, rfl⟩ := List.mem_map.1 hd
  refine ⟨?_, node, hnode, rfl, List.mem_eraseDups.1 hvar⟩
  have hdef := (List.mem_filter.1 hdef).1
  have hmem : def₀ ∈ g.definitions := by
    split at hdef
    · obtain ⟨⟨_, i⟩, hmem, rfl⟩ := List.mem_map.1 hdef
      exact List.fst_mem_of_mem_zipIdx (List.mem_filter.1 hmem).1
    · cases hdef
  obtain ⟨⟨source, position⟩, hsource, hmem⟩ := List.mem_flatMap.1 hmem
  obtain ⟨var, -, rfl⟩ := List.mem_map.1 hmem
  exact List.mem_map_of_mem (List.fst_mem_of_mem_zipIdx hsource)

end FlowGraph

namespace LocalAnalysis

variable {h : Hierarchy} {decl : CallableDecl} {n : Nat} {g : FlowGraph} {a : LocalAnalysis}

/-- An analysis that succeeds holds the flow graph and its dependences. -/
theorem ofGraph_eq_ok (ha : ofGraph g = .ok a) :
    a.graph = g ∧ g.controlDependences = .ok a.control ∧
      a.data = g.reachingDefinitions.dependences g := by
  simp only [ofGraph, bind_eq_ok_iff] at ha
  obtain ⟨-, -, control, hcontrol, ha⟩ := ha
  cases ha
  exact ⟨rfl, hcontrol, rfl⟩

/-- The edges of a callable are its control and its data dependences. -/
theorem mem_edges_iff {e : DependenceEdge} : e ∈ a.toProcedureGraph.edges ↔
    (∃ d ∈ a.control, d.toEdge = e) ∨ ∃ d ∈ a.data, d.toEdge = e := by
  rw [toProcedureGraph, ProcedureGraph.assemble, List.mem_append, List.mem_map, List.mem_map]

theorem mem_control_iff {x y : NodeId} :
    ⟨x, y, .control⟩ ∈ a.toProcedureGraph.edges ↔ ⟨x, y⟩ ∈ a.control := by
  rw [mem_edges_iff]
  constructor
  · rintro (⟨d, hd, heq⟩ | ⟨d, -, heq⟩)
    · cases heq
      exact hd
    · cases heq
  · exact fun hd => .inl ⟨_, hd, rfl⟩

/-- The dependences of a callable that was built have the shape that the system asks for. -/
theorem shaped (hg : (FlowGraph.build h decl n).1 = .ok g) (ha : ofGraph g = .ok a) :
    a.toProcedureGraph.Shaped := by
  have hformed := FlowGraph.build_formed hg
  have horderly := FlowGraph.build_orderly hg
  obtain ⟨rfl, hcontrol, hdata⟩ := ofGraph_eq_ok ha
  have hline {r : CallSiteNodes} (hr : r ∈ a.graph.callSites) := (horderly.inLine.calls r hr).line
  refine ⟨⟨a.graph.entry, List.mem_cons_self, rfl, horderly.bounded.entry⟩, fun x hx => ?_,
    horderly.bounded.formalOuts, fun r hr => ?_, fun r hr x hx => ?_, fun r hr o ho => ?_,
    fun r hr => (horderly.inLine.calls r hr).slots, fun e he r hr htarget => ?_,
    fun r hr o ho x hne he => ?_⟩
  · obtain ⟨node, hnode, hid, position, hkind⟩ := horderly.bounded.formalIns x hx
    exact ⟨position, node, hnode, hid, hkind⟩
  · obtain ⟨call, outs, hwithin, hid, hkind, -⟩ := hline hr
    exact ⟨call, hwithin.subset List.mem_cons_self, hid, hkind⟩
  · obtain ⟨node, hnode, hid, position, hkind⟩ := (horderly.inLine.calls r hr).ins x hx
    exact ⟨position, node, hnode, hid, hkind⟩
  · obtain ⟨call, outs, hwithin, -, -, -, houts, -⟩ := hline hr
    obtain ⟨node, hnode, hid, hkind⟩ := forall₂_mem_right houts ho
    exact ⟨node, hwithin.subset (List.mem_cons_of_mem _ hnode), hid, hkind⟩
  · -- a call reads no variable
    rcases mem_edges_iff.1 he with ⟨d, -, rfl⟩ | ⟨d, hd, rfl⟩
    · rfl
    · obtain ⟨-, node, hnode, hid, hvar⟩ := FlowGraph.mem_dependences (hdata ▸ hd)
      obtain ⟨call, outs, hwithin, hcall, -, huses, -⟩ := hline hr
      obtain rfl : node = call := List.inj_on_of_nodup_map hformed.nodup hnode
        (hwithin.subset List.mem_cons_self) (hid.trans (htarget.trans hcall.symm))
      rw [huses] at hvar
      cases hvar
  · rw [mem_control_iff] at he ⊢
    rw [mem_control_iff]
    exact horderly.control_actualOut hformed hcontrol hr ho he hne

/-- The dependences of a callable that was built are between its own nodes. -/
theorem wellFormed (hg : (FlowGraph.build h decl n).1 = .ok g) (ha : ofGraph g = .ok a) :
    a.toProcedureGraph.WellFormed := by
  have hformed := FlowGraph.build_formed hg
  have hshaped := shaped hg ha
  have horderly := FlowGraph.build_orderly hg
  obtain ⟨rfl, hcontrol, hdata⟩ := ofGraph_eq_ok ha
  have hends (e : DependenceEdge) (he : e ∈ a.toProcedureGraph.edges) :
      e.source ∈ a.graph.ids ∧ e.target ∈ a.graph.ids := by
    rcases mem_edges_iff.1 he with ⟨d, hd, rfl⟩ | ⟨d, hd, rfl⟩
    · obtain ⟨v, w, ⟨x, hx, hpost, -⟩, rfl⟩ := (hformed.mem_controlDependences_iff hcontrol).1 hd
      have hv := (hformed.proper.controlSteps_inRange.steps _ hx).1
      have hw := hpost.exits.lt hformed.proper.controlSteps_inRange
      exact ⟨FlowGraph.idAt_mem hv, FlowGraph.idAt_mem hw⟩
    · obtain ⟨hsource, node, hnode, hid, -⟩ := FlowGraph.mem_dependences (hdata ▸ hd)
      have htarget : d.target ∈ a.graph.ids := hid ▸ List.mem_map_of_mem hnode
      exact ⟨hsource, htarget⟩
  refine ⟨fun e he => ?_, fun e he => (hends e he).1, fun e he => (hends e he).2, hshaped.entry.mem,
    fun x hx => ?_, fun o ho => (hshaped.formalOut o ho).mem, horderly.bounded.slots,
    fun r hr => (hshaped.call r hr).mem, fun r hr x hx => ?_,
    fun r hr o ho => (hshaped.actualOut r hr o ho).mem⟩
  · rcases mem_edges_iff.1 he with ⟨d, -, rfl⟩ | ⟨d, -, rfl⟩
    exacts [.inl rfl, .inr ⟨d.var, rfl⟩]
  · obtain ⟨position, hkind⟩ := hshaped.formalIn x hx
    exact hkind.mem
  · obtain ⟨position, hkind⟩ := hshaped.actualIn r hr x hx
    exact hkind.mem

end LocalAnalysis

/-! ## Graphs of analysed callables -/

namespace ProcedureGraph

/-- The graphs of different callables, made of flow graphs that share no node. -/
structure Analysed (graphs : List ProcedureGraph) : Prop where
  built : ∀ p ∈ graphs, ∃ h decl n g a, (FlowGraph.build h decl n).1 = .ok g ∧
    LocalAnalysis.ofGraph g = .ok a ∧ a.toProcedureGraph = p
  callables_nodup : (graphs.map (·.callable)).Nodup
  nodes_nodup : (graphs.flatMap (·.nodeIds)).Nodup

variable {graphs : List ProcedureGraph} {p : ProcedureGraph}

theorem Analysed.shaped (hgraphs : Analysed graphs) (hp : p ∈ graphs) : p.Shaped := by
  obtain ⟨h, decl, n, g, a, hg, hof, rfl⟩ := hgraphs.built p hp
  exact LocalAnalysis.shaped hg hof

/-- The nodes of an analysed callable belong to it. -/
theorem Analysed.callable_of_mem_nodes (hgraphs : Analysed graphs) (hp : p ∈ graphs) {node : Node}
    (hnode : node ∈ p.nodes) : node.callable = p.callable := by
  obtain ⟨h, decl, n, g, a, hg, hof, rfl⟩ := hgraphs.built p hp
  obtain ⟨rfl, -⟩ := LocalAnalysis.ofGraph_eq_ok hof
  exact (FlowGraph.callable_of_mem_nodes hg node hnode).trans (FlowGraph.build_callable hg).symm

/-- No node belongs to two analysed callables. -/
theorem Analysed.separate (hgraphs : Analysed graphs) : Separate graphs := by
  refine ⟨fun p hp => ?_, hgraphs.callables_nodup, hgraphs.nodes_nodup⟩
  obtain ⟨h, decl, n, g, a, hg, hof, rfl⟩ := hgraphs.built p hp
  exact LocalAnalysis.wellFormed hg hof

/-- Flow graphs that are numbered one after another share no node. -/
theorem Analysed.of_buildAll {h : Hierarchy} {decls : List CallableDecl} {start : Nat}
    (hcallables : (graphs.map (·.callable)).Nodup)
    (hbuilt : ∀ p ∈ graphs, ∃ decl g a, (decl, .ok g) ∈ (FlowGraph.buildAll h decls start).1 ∧
      LocalAnalysis.ofGraph g = .ok a ∧ a.toProcedureGraph = p) : Analysed graphs := by
  have hbuild {p : ProcedureGraph} (hp : p ∈ graphs) : ∃ decl n a,
      (decl, .ok a.graph) ∈ (FlowGraph.buildAll h decls start).1 ∧
      (FlowGraph.build h decl n).1 = .ok a.graph ∧ LocalAnalysis.ofGraph a.graph = .ok a ∧
      a.toProcedureGraph = p := by
    obtain ⟨decl, g, a, hmem, hof, rfl⟩ := hbuilt p hp
    obtain ⟨rfl, -⟩ := LocalAnalysis.ofGraph_eq_ok hof
    obtain ⟨-, n, -, hg⟩ := FlowGraph.mem_buildAll hmem
    exact ⟨decl, n, a, hmem, hg.symm, hof, rfl⟩
  refine ⟨fun p hp => ?_, hcallables, ?_⟩
  · obtain ⟨decl, n, a, -, hg, hof, rfl⟩ := hbuild hp
    exact ⟨h, decl, n, a.graph, a, hg, hof, rfl⟩
  · rw [List.nodup_flatMap]
    refine ⟨fun p hp => ?_, (List.pairwise_map.1 hcallables).imp_of_mem fun {p q} hp hq hne => ?_⟩
    · obtain ⟨decl, n, a, -, hg, -, rfl⟩ := hbuild hp
      exact (FlowGraph.build_formed hg).nodup
    · obtain ⟨decl₁, n₁, a₁, hmem₁, hg₁, -, rfl⟩ := hbuild hp
      obtain ⟨decl₂, n₂, a₂, hmem₂, hg₂, -, rfl⟩ := hbuild hq
      refine FlowGraph.buildAll_disjoint hmem₁ hmem₂ fun heq => hne ?_
      exact (FlowGraph.build_callable hg₁).trans (heq.trans (FlowGraph.build_callable hg₂).symm)

end ProcedureGraph

/-! ## Programs -/

namespace Analysis

variable {h : Hierarchy} {decls : List CallableDecl}

/-- An analysis that succeeded is that of the graph of a declared callable. -/
theorem exists_build {a : LocalAnalysis} (ha : a ∈ successes (h.analyseCallables decls)) :
    ∃ decl g, (decl, .ok g) ∈ (FlowGraph.buildAll h decls 0).1 ∧ LocalAnalysis.ofGraph g = .ok a := by
  obtain ⟨before, after, hitems, -⟩ := mem_latest_iff.1 ha
  have hmem : a ∈ before ++ a :: after := by simp
  rw [← hitems] at hmem
  obtain ⟨⟨c, outcome⟩, houtcome, hok⟩ := List.mem_filterMap.1 hmem
  obtain ⟨⟨decl, graph⟩, hgraph, heq⟩ := List.mem_map.1 houtcome
  obtain ⟨rfl, rfl⟩ := Prod.mk.inj heq
  cases hresult : graph >>= LocalAnalysis.ofGraph with
  | error e =>
    rw [hresult] at hok
    cases hok
  | ok a' =>
    rw [hresult] at hok
    cases hok
    obtain ⟨g, rfl, hof⟩ := bind_eq_ok_iff.1 hresult
    exact ⟨decl, g, hgraph, hof⟩

/-- The dependence graphs of the callables that were analysed. -/
def procedureGraphs (h : Hierarchy) (decls : List CallableDecl) : List ProcedureGraph :=
  (successes (h.analyseCallables decls)).map (·.toProcedureGraph)

/-- Each graph of the analysis comes from a callable that was built. -/
theorem exists_build_of_graph {p : ProcedureGraph} (hp : p ∈ procedureGraphs h decls) :
    ∃ decl g a, (decl, .ok g) ∈ (FlowGraph.buildAll h decls 0).1 ∧ LocalAnalysis.ofGraph g = .ok a ∧
      a.toProcedureGraph = p := by
  obtain ⟨a, ha, rfl⟩ := List.mem_map.1 hp
  obtain ⟨decl, g, hmem, hof⟩ := exists_build ha
  exact ⟨decl, g, a, hmem, hof, rfl⟩

theorem analysed (h : Hierarchy) (decls : List CallableDecl) :
    ProcedureGraph.Analysed (procedureGraphs h decls) := by
  refine .of_buildAll ?_ fun p hp => exists_build_of_graph hp
  rw [procedureGraphs, List.map_map]
  -- the ranks of the callables go up
  refine List.pairwise_map.2 ((pairwise_latest _ _).imp fun {a b} hlt heq => ?_)
  exact Nat.ne_of_lt hlt (congrArg Ident.rank heq)

theorem shaped {p : ProcedureGraph} (hp : p ∈ procedureGraphs h decls) : p.Shaped :=
  (analysed h decls).shaped hp

/-- The graphs of the callables of a program are separate. -/
theorem separate (h : Hierarchy) (decls : List CallableDecl) :
    ProcedureGraph.Separate (procedureGraphs h decls) :=
  (analysed h decls).separate

/-- A callable that is declared without a body has no nodes for its parameters. -/
theorem formalIns_eq_nil {types : List TypeDecl} (hids : (decls.map (·.id)).Nodup) {p : ProcedureGraph}
    (hp : p ∈ procedureGraphs ⟨types, decls⟩ decls) {decl : CallableDecl}
    (hdecl : (Hierarchy.mk types decls).callable? p.callable = some decl) (hbody : decl.hasBody = false) :
    p.formalIns = [] := by
  obtain ⟨decl', g, a, hbuilt, hof, rfl⟩ := exists_build_of_graph hp
  obtain ⟨hdecl', n, -, hg⟩ := FlowGraph.mem_buildAll hbuilt
  have hg := hg.symm
  obtain ⟨rfl, -⟩ := LocalAnalysis.ofGraph_eq_ok hof
  have hmem : decl ∈ decls := List.mem_reverse.1 (List.mem_of_find?_eq_some hdecl)
  have hid : decl.id = decl'.id := by
    have hfound : decl.id = a.toProcedureGraph.callable := by simpa using List.find?_some hdecl
    exact hfound.trans (FlowGraph.build_callable hg)
  obtain rfl := List.inj_on_of_nodup_map hids hmem hdecl' hid
  refine (FlowGraph.build_bodyless ?_ hg).1
  simpa [CallableDecl.hasBody] using hbody

/-- What the dependence graph of a program is built of. -/
theorem run_eq_ok {config : Config} {program : Program} {a : Analysis} (ha : run config program = .ok a) :
    SystemGraph.build config.summaries ⟨program.types, program.callables⟩ a.callGraph
      (procedureGraphs ⟨program.types, program.callables⟩ program.callables) = .ok a.system := by
  simp only [run, bind_eq_ok_iff, mapError_eq_ok_iff] at ha
  obtain ⟨-, -, h, hh, -, -, calls, hcalls, system, hsystem, ha⟩ := ha
  cases ha
  unfold Hierarchy.ofProgram at hh
  split at hh
  · cases hh
  · cases hh
    rw [procedureGraphs]
    exact hsystem

end Analysis

end Slicing
