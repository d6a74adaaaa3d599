import Slicing.Proofs.Dependence.Assembly
import Slicing.Proofs.Dependence.Rounds
import Slicing.Proofs.Renumbering.Flow

/-!
# Renumbered dependence graphs

The graph of a program goes along with the numbers of the nodes of its callables. Procedures,
invocations and calls are found by the numbers of callables and call sites, which stay; those of
nodes are only compared. So what is assembled, the summary edges of each round and the number of
rounds are the same up to the numbers of nodes (`SystemGraph.build_renumber`).
-/

namespace Slicing

open Function

variable {f : NodeId → NodeId}

/-! ## Lists -/

/-- What a step does to the numbers goes along with what follows. -/
theorem Except.map_bind {α β γ δ ε : Type} {r : α → γ} {r' : β → δ} {x : Except ε α}
    {next : α → Except ε β} {next' : γ → Except ε δ} (hnext : ∀ a, next' (r a) = (next a).map r') :
    x.map r >>= next' = (x >>= next).map r' := by
  cases x with
  | error e => rfl
  | ok a => exact hnext a

/-- Steps for each of some items, with other numbers. -/
theorem mapM_map {α β γ δ ε : Type} {r : α → γ} {r' : β → δ} {step : α → Except ε β}
    {step' : γ → Except ε δ} (hstep : ∀ a, step' (r a) = (step a).map r') (as : List α) :
    (as.map r).mapM step' = (as.mapM step).map (List.map r') := by
  induction as with
  | nil => rfl
  | cons a as ih =>
    rw [List.map_cons, List.mapM_cons, List.mapM_cons, hstep, ih]
    exact Except.map_bind fun b => Except.map_bind fun bs => rfl

theorem lastByRank_map {α β : Type} {rank : β → Nat} {r : α → β} (items : List α) :
    lastByRank rank (items.map r) = (lastByRank (fun a => rank (r a)) items).map r := by
  induction items with
  | nil => rfl
  | cons item items ih =>
    rw [List.map_cons, lastByRank_cons, ih, List.any_map, lastByRank_cons]
    simp only [comp_def]
    split <;> rfl

/-- A table of renumbered items is the table of the items, renumbered. -/
theorem latest_map {α β : Type} {rank : β → Nat} {r : α → β} (items : List α) :
    latest rank (items.map r) = (latest (fun a => rank (r a)) items).map r := by
  rw [latest, latest, lastByRank_map]
  -- the order is that of the ranks, which are the same before and after
  refine (List.map_mergeSort ?_).symm
  exact fun _ _ _ _ => rfl

/-! ## Reachability -/

namespace Digraph

variable {α β : Type} [DecidableEq α] [DecidableEq β] {r : α → β} {g : Digraph α} {g' : Digraph β}

/-- What is discovered under other numbers. -/
theorem discoverAll_map (hr : Injective r) (hvertices : g'.vertices = g.vertices.map r)
    (e : Exploration α) (vs : List α) : g'.discoverAll ⟨e.queue.map r, e.met.map r⟩ (vs.map r) =
      ⟨(g.discoverAll e vs).queue.map r, (g.discoverAll e vs).met.map r⟩ := by
  induction vs generalizing e with
  | nil => rfl
  | cons v vs ih =>
    have hdiscover : g'.discover ⟨e.queue.map r, e.met.map r⟩ (r v) =
        ⟨(g.discover e v).queue.map r, (g.discover e v).met.map r⟩ := by
      simp only [discover, hvertices, List.mem_map_of_injective hr]
      split <;> simp
    exact (congrArg (g'.discoverAll · (vs.map r)) hdiscover).trans (ih _)

/-- What is reached goes along with other names of the vertices. -/
theorem reachAll_map (hr : Injective r) (hvertices : g'.vertices = g.vertices.map r)
    (hnext : ∀ v, g'.next (r v) = (g.next v).map r) (starts : List α) :
    g'.reachAll (starts.map r) = (g.reachAll starts).map r := by
  have hexplore (e : Exploration α) :
      g'.explore ⟨e.queue.map r, e.met.map r⟩ = (g.explore e).map r := by
    induction e using explore.induct g with
    | case1 met => simp [explore]
    | case2 v queue met ih =>
      rw [explore]
      rw [← discoverAll_map hr hvertices] at ih
      rw [List.map_cons, explore, hnext]
      exact ih
  rw [reachAll, reachAll, ← List.map_reverse]
  exact hexplore ⟨starts, starts.reverse⟩

/-- What is reached under other numbers. -/
theorem reach_map (hr : Injective r) (hvertices : g'.vertices = g.vertices.map r)
    (hnext : ∀ v, g'.next (r v) = (g.next v).map r) (start : α) :
    g'.reach (r start) = (g.reach start).map r :=
  reachAll_map hr hvertices hnext [start]

end Digraph

/-! ## Procedures -/

/-- A dependence between nodes with other numbers. -/
def DependenceEdge.renumber (f : NodeId → NodeId) (e : DependenceEdge) : DependenceEdge :=
  ⟨f e.source, f e.target, e.dependence⟩

theorem DependenceEdge.renumber_injective (hf : Injective f) : Injective (DependenceEdge.renumber f) := by
  intro e e' heq
  cases e
  cases e'
  simp only [renumber, mk.injEq] at heq ⊢
  exact ⟨hf heq.1, hf heq.2.1, heq.2.2⟩

namespace ProcedureGraph

/-- The dependences within a callable, with other numbers. -/
def renumber (f : NodeId → NodeId) (p : ProcedureGraph) : ProcedureGraph where
  callable := p.callable
  entry := f p.entry
  exit := f p.exit
  nodes := p.nodes.map (·.renumber f)
  edges := p.edges.map (·.renumber f)
  formalIns := p.formalIns.map f
  formalOuts := p.formalOuts.map (Prod.map id f)
  callSites := p.callSites.map (·.renumber f)

/-- The nodes of a callable under other numbers. -/
theorem nodeIds_renumber (p : ProcedureGraph) : (p.renumber f).nodeIds = p.nodeIds.map f := by
  simp [nodeIds, renumber, Node.renumber]

/-- Other numbers twice. -/
theorem renumber_renumber (f' : NodeId → NodeId) (p : ProcedureGraph) :
    (p.renumber f).renumber f' = p.renumber (f' ∘ f) := by
  simp [renumber, Node.renumber, DependenceEdge.renumber, CallSiteNodes.renumber, comp_def]

/-- Only the numbers of the nodes of a graph matter. -/
theorem WellFormed.renumber_congr {p : ProcedureGraph} (hp : p.WellFormed) (hexit : p.exit ∈ p.nodeIds)
    {f' : NodeId → NodeId} (hff' : ∀ id ∈ p.nodeIds, f id = f' id) : p.renumber f = p.renumber f' := by
  have houts {outs : List (OutputSlot × NodeId)} (hmem : ∀ o ∈ outs, o.2 ∈ p.nodeIds) :
      outs.map (Prod.map id f) = outs.map (Prod.map id f') :=
    List.map_congr_left fun o ho => congrArg (Prod.mk o.1) (hff' _ (hmem o ho))
  have hnodes : p.nodes.map (·.renumber f) = p.nodes.map (·.renumber f') := by
    refine List.map_congr_left fun node hnode => ?_
    rw [Node.renumber, hff' _ (List.mem_map_of_mem hnode), Node.renumber]
  have hedges : p.edges.map (·.renumber f) = p.edges.map (·.renumber f') := by
    refine List.map_congr_left fun e he => ?_
    rw [DependenceEdge.renumber, hff' _ (hp.source_mem e he), hff' _ (hp.target_mem e he),
      DependenceEdge.renumber]
  have hsites : p.callSites.map (·.renumber f) = p.callSites.map (·.renumber f') := by
    refine List.map_congr_left fun s hs => ?_
    have hins : s.actualIns.map f = s.actualIns.map f' :=
      List.map_congr_left fun x hx => hff' _ (hp.actualIn_mem s hs x hx)
    rw [CallSiteNodes.renumber, hff' _ (hp.callNode_mem s hs), hins, houts (hp.actualOut_mem s hs),
      CallSiteNodes.renumber]
  have hins : p.formalIns.map f = p.formalIns.map f' :=
    List.map_congr_left fun x hx => hff' _ (hp.formalIn_mem x hx)
  rw [renumber, hff' _ hp.entry_mem, hff' _ hexit, hnodes, hedges, hins, houts hp.formalOut_mem, hsites,
    renumber]

end ProcedureGraph

/-- The graph of an analysed callable under other numbers. -/
theorem LocalAnalysis.toProcedureGraph_renumber (a : LocalAnalysis) :
    (a.renumber f).toProcedureGraph = a.toProcedureGraph.renumber f := by
  simp [toProcedureGraph, ProcedureGraph.assemble, renumber, ProcedureGraph.renumber,
    ControlDependence.toEdge, DataDependence.toEdge, DependenceEdge.renumber, comp_def]
  exact ⟨rfl, rfl, rfl, rfl, rfl, rfl⟩

/-! ## Calls -/

/-- A call at a node with another number. -/
def CallEdge.renumber (f : NodeId → NodeId) (e : CallEdge) : CallEdge := { e with node := f e.node }

/-- The calls that a call site of a callable makes. -/
def Hierarchy.callsAt (h : Hierarchy) (caller : CallableDecl) (nodes : CallSiteNodes) :
    Except ResolutionError (List CallEdge) := do
  let callees ← h.resolve caller nodes.site
  return callees.map fun callee => (⟨caller.id, callee, nodes.site.id, nodes.callNode⟩ : CallEdge)

/-- The calls that a callable makes. -/
def ProcedureGraph.callEdges (h : Hierarchy) (p : ProcedureGraph) :
    Except ResolutionError (List CallEdge) :=
  match h.callable? p.callable with
  | none => .error (.unknownCallable p.callable)
  | some caller => do
    let calls ← p.callSites.mapM (h.callsAt caller)
    return calls.flatten

/-- The calls at a site under other numbers. -/
theorem Hierarchy.callsAt_renumber (h : Hierarchy) (caller : CallableDecl) (nodes : CallSiteNodes) :
    h.callsAt caller (nodes.renumber f) =
      (h.callsAt caller nodes).map (List.map (CallEdge.renumber f)) := by
  rw [callsAt, callsAt]
  change h.resolve caller nodes.site >>= _ = _
  cases h.resolve caller nodes.site with
  | error e => rfl
  | ok callees =>
    refine congrArg Except.ok ?_
    rw [List.map_map]
    rfl

/-- The call edges of a callable under other numbers. -/
theorem ProcedureGraph.callEdges_renumber (h : Hierarchy) (p : ProcedureGraph) :
    (p.renumber f).callEdges h = (p.callEdges h).map (List.map (CallEdge.renumber f)) := by
  have hcallable : (p.renumber f).callable = p.callable := rfl
  rw [callEdges, callEdges, hcallable]
  cases h.callable? p.callable with
  | none => rfl
  | some caller =>
    dsimp only [renumber]
    rw [mapM_map fun nodes => h.callsAt_renumber caller nodes]
    refine Except.map_bind fun calls => congrArg Except.ok ?_
    exact List.map_flatten.symm

namespace CallGraph

variable (g : CallGraph)

/-- A call graph at nodes with other numbers. -/
def renumber (f : NodeId → NodeId) : CallGraph := { g with edges := g.edges.map (·.renumber f) }

theorem addVertex_renumber (c : CallableId) : (g.renumber f).addVertex c = (g.addVertex c).renumber f := by
  rw [addVertex, addVertex]
  change (if g.containsVertex c then _ else _) = _
  split <;> rfl

/-- A call edge is added under other numbers. -/
theorem addEdge_renumber (e : CallEdge) :
    (g.renumber f).addEdge (e.renumber f) = (g.addEdge e).renumber f := by
  have hcontains (caller callee : CallableId) (site : CallSiteId) :
      (g.renumber f).containsEdge caller callee site = g.containsEdge caller callee site := by
    rw [containsEdge, renumber, List.any_map]
    rfl
  rw [addEdge, addEdge, hcontains]
  change (if g.containsEdge e.caller e.callee e.site then _ else _) = _
  split
  · rfl
  · dsimp only
    rw [addVertex_renumber, addVertex_renumber]
    simp [renumber, CallEdge.renumber]

/-- A call is added under other numbers, unless it is excluded. -/
theorem addCall_renumber (excluded : List CallableId) (e : CallEdge) :
    addCall excluded (g.renumber f) (e.renumber f) = (addCall excluded g e).renumber f := by
  rw [addCall, addCall]
  change (if excluded.contains e.callee then _ else _) = _
  split
  · rw [markExcluded, markExcluded]
    change (if g.excluded.contains (e.site, e.callee) then _ else _) = _
    split <;> rfl
  · exact addEdge_renumber g e

/-- Calls are added under other numbers. -/
theorem foldl_addCall_renumber (excluded : List CallableId) (calls : List CallEdge) :
    (calls.map (CallEdge.renumber f)).foldl (addCall excluded) (g.renumber f) =
      (calls.foldl (addCall excluded) g).renumber f := by
  induction calls generalizing g with
  | nil => rfl
  | cons e calls ih => rw [List.map_cons, List.foldl_cons, addCall_renumber, ih, List.foldl_cons]

@[simp]
theorem targetsOf_renumber (site : CallSiteId) : (g.renumber f).targetsOf site = g.targetsOf site := by
  rw [targetsOf, renumber, List.filter_map, List.map_map]
  rfl

end CallGraph

/-! ## Assembly -/

/-- A procedure with other numbers. -/
def Procedure.renumber (f : NodeId → NodeId) (p : Procedure) : Procedure :=
  ⟨p.callable, f p.entry, f p.exit, p.hasBody, p.formalIns.map f, p.formalOuts.map (Prod.map id f)⟩

/-- An invocation with other numbers. -/
def Invocation.renumber (f : NodeId → NodeId) (i : Invocation) : Invocation where
  site := i.site
  caller := i.caller
  callNode := f i.callNode
  actualIns := i.actualIns.map f
  actualOuts := i.actualOuts.map (Prod.map id f)
  targets := i.targets
  excludedTargets := i.excludedTargets
  isOpaque := i.isOpaque

/-- What is looked up in a list with other values. -/
theorem lookup_map {α β γ : Type} [BEq α] (r : β → γ) (l : List (α × β)) (a : α) :
    (l.map (Prod.map id r)).lookup a = (l.lookup a).map r := by
  induction l with
  | nil => rfl
  | cons p l ih =>
    rw [List.map_cons, List.lookup_cons, List.lookup_cons, ih]
    cases hkey : a == p.1 <;> simp [hkey]

theorem Invocation.getElem?_actualIns_renumber (i : Invocation) (position : Nat) :
    (i.renumber f).actualIns[position]? = i.actualIns[position]?.map f :=
  List.getElem?_map

theorem Invocation.actualOut?_renumber (i : Invocation) (slot : OutputSlot) :
    (i.renumber f).actualOut? slot = (i.actualOut? slot).map f :=
  lookup_map f i.actualOuts slot

/-- The interface of a callable under other numbers. -/
theorem Procedure.ofGraph_renumber (h : Hierarchy) (p : ProcedureGraph) :
    ofGraph h (p.renumber f) = (ofGraph h p).map (·.renumber f) := by
  have hcallable : (p.renumber f).callable = p.callable := rfl
  rw [ofGraph, ofGraph, hcallable]
  cases h.callable? p.callable <;> rfl

/-- A call site under other numbers. -/
theorem Invocation.ofNodes_renumber (calls : CallGraph) (procedures : List Procedure) (caller : CallableId)
    (nodes : CallSiteNodes) : ofNodes (calls.renumber f) (procedures.map (·.renumber f)) caller
      (nodes.renumber f) = (ofNodes calls procedures caller nodes).renumber f := by
  have hbody (target : CallableId) : (procedures.map (Procedure.renumber f)).any
      (fun p => p.callable == target && p.hasBody) =
        procedures.any fun p => p.callable == target && p.hasBody := List.any_map
  simp only [ofNodes, CallGraph.targetsOf_renumber, hbody]
  rfl

namespace SystemGraph

/-- The dependences of a program with other numbers. -/
def renumber (f : NodeId → NodeId) (g : SystemGraph) : SystemGraph where
  nodes := g.nodes.map (·.renumber f)
  edges := g.edges.map (·.renumber f)
  procedures := g.procedures.map (·.renumber f)
  invocations := g.invocations.map (·.renumber f)
  tally := g.tally

/-- An edge joins nodes under other numbers if it did. -/
theorem joins_renumber (hf : Injective f) (nodes : List Node) (e : DependenceEdge) :
    joins (nodes.map (·.renumber f)) (e.renumber f) = joins nodes e := by
  simp only [joins, List.any_map, comp_def, Node.renumber, DependenceEdge.renumber, beq_of_injective hf]

/-- The edges for parameters and results under other numbers. -/
theorem interfaceEdges_renumber (i : Invocation) (p : Procedure) :
    interfaceEdges (i.renumber f) (p.renumber f) = (interfaceEdges i p).map (·.renumber f) := by
  have hins : ((i.actualIns.map f).zip (p.formalIns.map f)).zipIdx =
      (i.actualIns.zip p.formalIns).zipIdx.map (Prod.map (Prod.map f f) id) := by
    rw [List.zip_map, List.zipIdx_map]
  have hout (slot : OutputSlot) : (p.renumber f).formalOut? slot = (p.formalOut? slot).map f :=
    lookup_map f p.formalOuts slot
  simp only [interfaceEdges, List.map_append, List.map_map, List.map_filterMap]
  refine congrArg₂ _ (congrArg₂ _ rfl ?_) ?_
  · change (((i.actualIns.map f).zip (p.formalIns.map f)).zipIdx).map _ = _
    rw [hins, List.map_map]
    rfl
  · change (i.actualOuts.map (Prod.map id f)).filterMap _ = _
    rw [List.filterMap_map]
    refine List.filterMap_congr fun out _ => ?_
    simp only [comp_def, Prod.map, hout, Option.map_map]
    rfl

/-- The edges of a call under other numbers. -/
theorem linkEdges_renumber (hf : Injective f) (procedures : List Procedure) (invocations : List Invocation)
    (e : CallEdge) : linkEdges (procedures.map (·.renumber f)) (invocations.map (·.renumber f)) (e.renumber f) =
      (linkEdges procedures invocations e).map (List.map (·.renumber f)) := by
  have hsite : (invocations.map (Invocation.renumber f)).find? (·.site == (e.renumber f).site) =
      (invocations.find? (·.site == e.site)).map (Invocation.renumber f) := List.find?_map
  have hcallee : (procedures.map (Procedure.renumber f)).find? (·.callable == (e.renumber f).callee) =
      (procedures.find? (·.callable == e.callee)).map (Procedure.renumber f) := List.find?_map
  rw [linkEdges, linkEdges, hsite, hcallee]
  cases invocations.find? (·.site == e.site) with
  | none => rfl
  | some i =>
    -- the node of a call is compared with the node of its site, by their new numbers
    have hcall : ((i.renumber f).caller = (e.renumber f).caller ∧
        (i.renumber f).callNode = (e.renumber f).node) ↔ i.caller = e.caller ∧ i.callNode = e.node :=
      and_congr_right fun _ => hf.eq_iff
    simp only [Option.map_some, hcall]
    split
    · cases procedures.find? (·.callable == e.callee) with
      | none => rfl
      | some p => exact congrArg Except.ok (interfaceEdges_renumber i p)
    · rfl

/-- What is assembled goes along with the numbers of the graphs. -/
theorem assemble_renumber (hf : Injective f) (h : Hierarchy) (calls : CallGraph)
    (graphs : List ProcedureGraph) :
    assemble h (calls.renumber f) (graphs.map (·.renumber f)) =
      (assemble h calls graphs).map (·.renumber f) := by
  have hnodes : (graphs.map (·.renumber f)).flatMap (·.nodes) =
      (graphs.flatMap (·.nodes)).map (·.renumber f) := by
    rw [List.flatMap_map, List.map_flatMap]
    rfl
  rw [assemble, assemble, mapM_map fun p => Procedure.ofGraph_renumber h p]
  refine Except.map_bind fun procedures => ?_
  have hinvocations : latest (·.site.rank) ((graphs.map (·.renumber f)).flatMap fun g =>
        g.callSites.map (Invocation.ofNodes (calls.renumber f) (procedures.map (·.renumber f)) g.callable)) =
      (latest (·.site.rank) (graphs.flatMap fun g =>
        g.callSites.map (Invocation.ofNodes calls procedures g.callable))).map (·.renumber f) := by
    refine Eq.trans (congrArg _ ?_) (latest_map _)
    rw [List.flatMap_map, List.map_flatMap]
    refine List.flatMap_congr fun p _ => ?_
    change (p.callSites.map (CallSiteNodes.renumber f)).map _ = _
    rw [List.map_map, List.map_map]
    exact List.map_congr_left fun nodes _ => Invocation.ofNodes_renumber calls procedures p.callable nodes
  dsimp only
  rw [hinvocations]
  -- each call finds its site and its callee by their numbers, which stay
  change (calls.edges.map (CallEdge.renumber f)).mapM _ >>= _ = _
  rw [mapM_map fun e => linkEdges_renumber hf _ _ e]
  refine Except.map_bind fun links => congrArg Except.ok ?_
  have hedges : ((graphs.map (·.renumber f)).flatMap (·.edges) ++
        (links.map (List.map (·.renumber f))).flatten).filter (joins ((graphs.flatMap (·.nodes)).map (·.renumber f))) =
      ((graphs.flatMap (·.edges) ++ links.flatten).filter (joins (graphs.flatMap (·.nodes)))).map
        (·.renumber f) := by
    rw [← List.map_flatten, List.flatMap_map]
    change ((graphs.flatMap fun p => p.edges.map (·.renumber f)) ++ _).filter _ = _
    rw [← List.map_flatMap, ← List.map_append, List.filter_map]
    simp only [comp_def, joins_renumber hf]
  rw [hnodes, hedges]
  rfl

/-! ## Summary edges -/

/-- A summary edge with other numbers. -/
def Proposal.renumber (f : NodeId → NodeId) (q : Proposal) : Proposal := ⟨q.caller, q.edge.renumber f⟩

/-- A graph that edges are being added to, with other numbers. -/
def Growth.renumber (f : NodeId → NodeId) (γ : Growth) : Growth := ⟨γ.graph.renumber f, γ.added, γ.grown⟩

variable (g : SystemGraph)

theorem addEdge_renumber (hf : Injective f) (e : DependenceEdge) :
    (g.renumber f).addEdge (e.renumber f) = (g.addEdge e).renumber f := by
  have hjoins : joins (g.renumber f).nodes (e.renumber f) = joins g.nodes e := joins_renumber hf g.nodes e
  rw [addEdge, addEdge, hjoins]
  split
  · simp [renumber]
  · rfl

/-- A proposed edge is added under other numbers. -/
theorem Growth.add_renumber (hf : Injective f) (γ : Growth) (q : Proposal) :
    (γ.renumber f).add (q.renumber f) = (γ.add q).renumber f := by
  have hcontains : (γ.renumber f).graph.edges.contains (q.renumber f).edge = γ.graph.edges.contains q.edge :=
    contains_map (DependenceEdge.renumber_injective hf) γ.graph.edges q.edge
  rw [add, add, hcontains]
  split
  · rfl
  · exact congrArg (Growth.mk · _ _) (addEdge_renumber γ.graph hf q.edge)

/-- Proposed edges are added under other numbers. -/
theorem addAll_renumber (hf : Injective f) (qs : List Proposal) :
    (g.renumber f).addAll (qs.map (·.renumber f)) = (g.addAll qs).renumber f := by
  have hfold (γ : Growth) : (qs.map (·.renumber f)).foldl Growth.add (γ.renumber f) =
      (qs.foldl Growth.add γ).renumber f := by
    induction qs generalizing γ with
    | nil => rfl
    | cons q qs ih => rw [List.map_cons, List.foldl_cons, Growth.add_renumber hf, ih, List.foldl_cons]
  exact hfold { graph := g }

/-- All that goes through a call under other numbers. -/
theorem allThrough_renumber (i : Invocation) :
    allThrough (i.renumber f) = (allThrough i).map (·.renumber f) := by
  rw [allThrough, allThrough, List.map_flatMap]
  change (i.actualIns.map f).flatMap _ = _
  rw [List.flatMap_map]
  refine List.flatMap_congr fun source _ => ?_
  change (i.actualOuts.map (Prod.map id f)).map _ = _
  rw [List.map_map, List.map_map]
  rfl

/-- The summaries of opaque calls under other numbers. -/
theorem addOpaqueSummaries_renumber (hf : Injective f) :
    (g.renumber f).addOpaqueSummaries = g.addOpaqueSummaries.renumber f := by
  have hproposals : ((g.renumber f).invocations.filter (·.isOpaque)).flatMap allThrough =
      ((g.invocations.filter (·.isOpaque)).flatMap allThrough).map (·.renumber f) := by
    change ((g.invocations.map (Invocation.renumber f)).filter _).flatMap _ = _
    rw [List.filter_map, List.flatMap_map, List.map_flatMap]
    exact List.flatMap_congr fun i _ => allThrough_renumber i
  rw [addOpaqueSummaries, hproposals, addAll_renumber g hf, addOpaqueSummaries]

/-- What influences a node within its callable, under other numbers. -/
theorem localClosure_renumber (hf : Injective f) (id : NodeId) :
    (g.renumber f).localClosure (f id) = (g.localClosure id).map f := by
  refine Digraph.reach_map hf ?_ (fun v => ?_) id
  · change (g.nodes.map (Node.renumber f)).map _ = (g.nodes.map _).map f
    rw [List.map_map, List.map_map]
    rfl
  · change (((g.edges.map (DependenceEdge.renumber f)).filter _).map _) = _
    rw [List.filter_map, List.map_map]
    change _ = ((g.edges.filter _).map _).map f
    rw [List.map_map]
    simp only [comp_def, DependenceEdge.renumber, beq_of_injective hf]

/-- What passes through a procedure is said by positions and slots. -/
theorem transmission_renumber (hf : Injective f) (p : Procedure) :
    (g.renumber f).transmission (p.renumber f) = g.transmission p := by
  rw [transmission, transmission]
  change (p.formalOuts.map (Prod.map id f)).flatMap _ = _
  rw [List.flatMap_map]
  refine List.flatMap_congr fun out _ => ?_
  change ((((p.formalIns.map f).zipIdx).filter fun x =>
    ((g.renumber f).localClosure (f out.2)).contains x.1).map _) = _
  rw [localClosure_renumber g hf, List.zipIdx_map, List.filter_map, List.map_map]
  simp only [comp_def, Prod.map, contains_map hf, id]

/-- The summary edges at a call under other numbers. -/
theorem edgesAt_renumber (i : Invocation) (pairs : List (Nat × OutputSlot)) :
    edgesAt (i.renumber f) pairs = (edgesAt i pairs).map (·.renumber f) := by
  rw [edgesAt, edgesAt, List.map_filterMap]
  refine List.filterMap_congr fun pair _ => ?_
  simp only [i.getElem?_actualIns_renumber, i.actualOut?_renumber]
  cases i.actualIns[pair.1]? <;> cases i.actualOut? pair.2 <;> rfl

theorem procedure?_renumber (c : CallableId) :
    (g.renumber f).procedure? c = (g.procedure? c).map (·.renumber f) := by
  rw [procedure?, renumber, List.find?_map]
  rfl

/-- The summary edges that a callable proposes, under other numbers. -/
theorem proposals_renumber (hf : Injective f) (c : CallableId) :
    (g.renumber f).proposals c = (g.proposals c).map (·.renumber f) := by
  have hcalls : (g.renumber f).invocations.filter (·.targets.contains c) =
      (g.invocations.filter (·.targets.contains c)).map (·.renumber f) := by
    rw [renumber, List.filter_map]
    rfl
  rw [proposals, proposals, procedure?_renumber, hcalls]
  cases g.procedure? c with
  | none => rfl
  | some p =>
    cases g.invocations.filter (·.targets.contains c) with
    | nil => rfl
    | cons i calls =>
      change ((i :: calls).map (Invocation.renumber f)).flatMap
        (edgesAt · ((g.renumber f).transmission (p.renumber f))) =
          ((i :: calls).flatMap (edgesAt · (g.transmission p))).map _
      rw [transmission_renumber g hf, List.flatMap_map, List.map_flatMap]
      exact List.flatMap_congr fun i _ => edgesAt_renumber i _

/-- A round adds the same edges, with other numbers. -/
theorem summaryRound_renumber (hf : Injective f) (callables : List CallableId) :
    (g.renumber f).summaryRound callables = (g.summaryRound callables).renumber f := by
  have hproposals : callables.flatMap (g.renumber f).proposals =
      (callables.flatMap g.proposals).map (·.renumber f) := by
    rw [List.map_flatMap]
    exact List.flatMap_congr fun c _ => proposals_renumber g hf c
  rw [summaryRound, hproposals, addAll_renumber g hf, summaryRound]

/-- The rounds take the same course. -/
theorem runRounds_renumber (hf : Injective f) (limit : Nat) (callables : List CallableId)
    (tally : SummaryTally) (fuel : Nat) : runRounds limit (g.renumber f) callables tally fuel =
      ⟨(runRounds limit g callables tally fuel).graph.renumber f,
        (runRounds limit g callables tally fuel).outcome⟩ := by
  induction fuel generalizing g callables tally with
  | zero => rfl
  | succ fuel ih =>
    rw [runRounds, runRounds, summaryRound_renumber g hf]
    change (if (g.summaryRound callables).added = 0 then _ else _) = _
    split
    · rfl
    · exact ih _ _ _

/-- Summaries are computed under other numbers in as many rounds. -/
theorem computeSummaries_renumber (hf : Injective f) (maxRounds : Nat) :
    (g.renumber f).computeSummaries maxRounds = ⟨(g.computeSummaries maxRounds).graph.renumber f,
      (g.computeSummaries maxRounds).outcome⟩ := by
  have hdefined : (g.renumber f).definedCallables = g.definedCallables := by
    rw [definedCallables, renumber, List.filter_map, List.map_map]
    rfl
  rw [computeSummaries, hdefined, runRounds_renumber g hf, computeSummaries]

/-- Of the declarations of a program it matters only which of them a number finds. -/
theorem build_congr {h h' : Hierarchy} (hcallable : h'.callable? = h.callable?) (config : SummaryConfig)
    (calls : CallGraph) (graphs : List ProcedureGraph) :
    build config h' calls graphs = build config h calls graphs := by
  have hof : Procedure.ofGraph h' = Procedure.ofGraph h := by
    funext p
    rw [Procedure.ofGraph, hcallable, Procedure.ofGraph]
  rw [build, assemble, hof, build, assemble]

/-- What is built goes along with the numbers of the graphs. -/
theorem build_renumber (hf : Injective f) (config : SummaryConfig) (h : Hierarchy) (calls : CallGraph)
    (graphs : List ProcedureGraph) :
    build config h (calls.renumber f) (graphs.map (·.renumber f)) =
      (build config h calls graphs).map (·.renumber f) := by
  have hmap {α β ε ε' : Type} (x : Except ε α) (r : α → β) (e : ε → ε') :
      (x.map r).mapError e = (x.mapError e).map r := by cases x <;> rfl
  rw [build, build, assemble_renumber hf, hmap]
  refine Except.map_bind fun g => ?_
  dsimp only
  have hrun := computeSummaries_renumber g.addOpaqueSummaries.graph hf config.maxRounds.toNat
  rw [addOpaqueSummaries_renumber g hf]
  split
  · dsimp only [Growth.renumber]
    rw [hrun]
    cases (g.addOpaqueSummaries.graph.computeSummaries config.maxRounds.toNat).outcome <;> rfl
  · rfl

/-! ## What can be seen -/

/-- A summary edge says that the argument at a position of a call influences what comes out of the
    call by a slot. -/
def Summarises (g : SystemGraph) (site : CallSiteId) (position : Nat) (slot : OutputSlot) : Prop :=
  ∃ i source target, g.invocation? site = some i ∧ i.actualIns[position]? = some source ∧
    i.actualOut? slot = some target ∧ (source, target, site) ∈ g.summaryEdges

theorem invocation?_renumber (site : CallSiteId) :
    (g.renumber f).invocation? site = (g.invocation? site).map (·.renumber f) := by
  rw [invocation?, renumber, List.find?_map]
  rfl

/-- The summary edges under other numbers. -/
theorem mem_summaryEdges_renumber (hf : Injective f) {source target : NodeId} {site : CallSiteId} :
    (f source, f target, site) ∈ (g.renumber f).summaryEdges ↔
      (source, target, site) ∈ g.summaryEdges :=
  mem_summaries_iff.trans ((List.mem_map_of_injective (DependenceEdge.renumber_injective hf)).trans
    mem_summaries_iff.symm)

/-- What is summarised does not depend on the numbers. -/
theorem summarises_renumber (hf : Injective f) {site : CallSiteId} {position : Nat} {slot : OutputSlot} :
    (g.renumber f).Summarises site position slot ↔ g.Summarises site position slot := by
  rw [Summarises, Summarises, invocation?_renumber]
  constructor
  · rintro ⟨i', source', target', hi', hsource', htarget', hsummary⟩
    obtain ⟨i, hi, rfl⟩ := Option.map_eq_some_iff.1 hi'
    rw [i.getElem?_actualIns_renumber] at hsource'
    rw [i.actualOut?_renumber] at htarget'
    obtain ⟨source, hsource, rfl⟩ := Option.map_eq_some_iff.1 hsource'
    obtain ⟨target, htarget, rfl⟩ := Option.map_eq_some_iff.1 htarget'
    exact ⟨i, source, target, hi, hsource, htarget, (mem_summaryEdges_renumber g hf).1 hsummary⟩
  · rintro ⟨i, source, target, hi, hsource, htarget, hsummary⟩
    refine ⟨i.renumber f, f source, f target, by rw [hi]; rfl, ?_, ?_,
      (mem_summaryEdges_renumber g hf).2 hsummary⟩
    · rw [i.getElem?_actualIns_renumber, hsource, Option.map_some]
    · rw [i.actualOut?_renumber, htarget, Option.map_some]

/-- The statistics do not depend on the numbers. -/
theorem statsJson_renumber : (g.renumber f).statsJson = g.statsJson := by
  have hcount (kind : DependenceKind) : (g.renumber f).count kind = g.count kind := by
    rw [count, renumber, List.countP_map]
    rfl
  simp only [statsJson, hcount]
  simp only [renumber, List.length_map]

end SystemGraph

end Slicing
