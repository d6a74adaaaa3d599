import Slicing.Proofs.Flow.Apart
import Slicing.Proofs.Flow.Balance
import Slicing.Proofs.Flow.Placement

/-!
# What a flow graph records

A flow graph records the numbers of the nodes that stand for parameters, for calls, and for loops
that never end. Each number that is recorded is that of a node of the graph, of the kind, position
and slot under which it is recorded (`FlowGraph.Filed`), and each call has one actual-in for each
of its arguments. Lowering keeps this: it drops no node, and the calls and loops that it adds to
the records are those that it has placed (`Lowered.files`).

With the numbers of a graph in one piece (`FlowGraph.ids_perm`), a number that is recorded names
one node, and never one of another graph (`FlowGraph.build_numbering`).
-/

namespace Slicing

namespace FlowGraph

/-- A node of a kind has a number. -/
def IsNode (g : FlowGraph) (id : NodeId) (kind : NodeKind) : Prop :=
  ∃ node ∈ g.nodes, node.id = id ∧ node.kind = kind

/-- The nodes that are recorded for a call, with one actual-in for each argument. -/
structure FilesCall (g : FlowGraph) (r : CallSiteNodes) : Prop where
  call : g.IsNode r.callNode (.call r.site.id)
  ins : List.Forall₂ (fun id position => g.IsNode id (.actualIn r.site.id position)) r.actualIns
    (List.range' 0 r.site.args.length)
  outs : ∀ out ∈ r.actualOuts, g.IsNode out.2 (.actualOut r.site.id out.1)

/-- What a graph records are nodes of the graph, each of the kind, position and slot under which it
    is recorded. -/
structure Filed (g : FlowGraph) : Prop where
  formalIns : ∀ position id, g.formalIns[position]? = some id → g.IsNode id (.formalIn position)
  formalOuts : ∀ slot id, (slot, id) ∈ g.formalOuts → g.IsNode id (.formalOut slot)
  calls : ∀ r ∈ g.callSites, g.IsNode r.callNode (.call r.site.id)
  actualIns : ∀ r ∈ g.callSites, ∀ position id, r.actualIns[position]? = some id →
    g.IsNode id (.actualIn r.site.id position)
  actualOuts : ∀ r ∈ g.callSites, ∀ slot id, (slot, id) ∈ r.actualOuts →
    g.IsNode id (.actualOut r.site.id slot)
  arguments : ∀ r ∈ g.callSites, r.actualIns.length = r.site.args.length
  nonTerminating : ∀ id ∈ g.nonTerminating, g.IsNode id .predicate

variable {g g' : FlowGraph} {id : NodeId} {kind : NodeKind} {r : CallSiteNodes}

/-- A node stays one of its kind as nodes are added. -/
theorem IsNode.mono (hid : g.IsNode id kind) (hn : g.nodes <+: g'.nodes) : g'.IsNode id kind := by
  obtain ⟨node, hnode, hid⟩ := hid
  exact ⟨node, hn.subset hnode, hid⟩

/-- What is recorded for a call stays recorded as nodes are added. -/
theorem FilesCall.mono (hr : g.FilesCall r) (hn : g.nodes <+: g'.nodes) : g'.FilesCall r :=
  ⟨hr.call.mono hn, hr.ins.imp fun _ _ hid => hid.mono hn, fun out hout => (hr.outs out hout).mono hn⟩

/-- What is recorded in order of positions. -/
theorem isNode_of_getElem? {ids : List NodeId} {n position : Nat} {f : Nat → NodeKind}
    (hids : List.Forall₂ (fun id position => g.IsNode id (f position)) ids (List.range' 0 n))
    (hid : ids[position]? = some id) : g.IsNode id (f position) := by
  obtain ⟨i, hi, hnode⟩ := forall₂_getElem? hids hid
  obtain ⟨hlt, rfl⟩ := List.getElem?_eq_some_iff.1 hi
  simpa using hnode

/-- There is one actual-in for each argument. -/
theorem FilesCall.length_actualIns (hr : g.FilesCall r) : r.actualIns.length = r.site.args.length := by
  rw [hr.ins.length_eq, List.length_range']

/-- A graph drops no node of another one, and the calls that it records besides are those of nodes. -/
structure Files (g g' : FlowGraph) : Prop where
  nodes : g.nodes <+: g'.nodes
  calls : ∀ r ∈ g'.callSites, r ∈ g.callSites ∨ g'.FilesCall r

/-- With the same nodes and calls nothing more is recorded. -/
theorem Files.of_eq (hnodes : g'.nodes = g.nodes) (hcalls : g'.callSites = g.callSites) : g.Files g' :=
  ⟨hnodes ▸ List.prefix_rfl, fun _ hr => .inl (hcalls ▸ hr)⟩

/-- What is recorded in two steps. -/
theorem Files.trans {g'' : FlowGraph} (hg : g.Files g') (hg' : g'.Files g'') : g.Files g'' where
  nodes := hg.nodes.trans hg'.nodes
  calls r hr := by
    rcases hg'.calls r hr with hr | hr
    · exact (hg.calls r hr).imp_right fun hr => hr.mono hg'.nodes
    · exact .inr hr

end FlowGraph

namespace Lowering

open FlowGraph

variable {h : Hierarchy} {decl : CallableDecl} {s s' t u : Lowering}

/-! ## States -/

/-- The records that are kept while a callable is lowered: the loops that are added are predicates. -/
def Files (s s' : Lowering) : Prop :=
  s.graph.Files s'.graph ∧ ∀ id ∈ s'.loopHeads, id ∈ s.loopHeads ∨ s'.graph.IsNode id .predicate

namespace Files

theorem of_eq (hnodes : s'.graph.nodes = s.graph.nodes) (hcalls : s'.graph.callSites = s.graph.callSites)
    (hheads : s'.loopHeads = s.loopHeads) : Files s s' :=
  ⟨.of_eq hnodes hcalls, fun _ hid => .inl (hheads ▸ hid)⟩

theorem refl (s : Lowering) : Files s s := of_eq rfl rfl rfl

/-- What is recorded in two steps of lowering. -/
theorem trans (hst : Files s t) (htu : Files t u) : Files s u := by
  refine ⟨hst.1.trans htu.1, fun id hid => ?_⟩
  rcases htu.2 id hid with hid | hid
  · exact (hst.2 id hid).imp_right fun hid => hid.mono htu.1.nodes
  · exact .inr hid

theorem skipped (s : Lowering) (element : ElementId) : Files s (s.skipped element) := of_eq rfl rfl rfl

theorem withFormals (s : Lowering) (ins : List NodeId) (outs : List (OutputSlot × NodeId)) :
    Files s (s.withFormals ins outs) := of_eq rfl rfl rfl

/-- Arcs are led back to the head of a loop. -/
theorem closed {head : NodeId} {tails : List Pending} (hst : Files s t) : Files s (t.closed head tails) :=
  hst.trans (of_eq (closed_nodes t head tails)
    (foldl_addArc_callSites t.graph fun _ p => (p.source, head, backEdge p.edge)) rfl)

/-- Ways out are sent to where they lead. -/
theorem sentAll {escapes : List (Pending × Escape)} (hst : Files s t) : Files s (t.sentAll h escapes) :=
  hst.trans (of_eq (by rw [sentAll_graph]) (by rw [sentAll_graph]) (sentAll_loopHeads h t escapes))

/-- The head of a loop is recorded, which is a predicate. -/
theorem withLoopHead {head : NodeId} (hst : Files s t) (hhead : t.graph.IsNode head .predicate) :
    Files s (t.withLoopHead head) := by
  refine hst.trans ⟨.of_eq rfl rfl, fun id hid => ?_⟩
  rcases List.mem_append.1 hid with hid | hid
  · exact .inl hid
  · rw [List.mem_singleton.1 hid]
    exact .inr hhead

end Files

/-! ## Constructs -/

/-- The nodes of a call that is recorded on a line are nodes of the line. -/
theorem Emits.filesCall {es es' : List Emission} {r : CallSiteNodes} (he : Emits h s es t)
    (hes : es' <+: es) (hr : Records h es' r) : t.graph.FilesCall r := by
  have hmem (e : Emission) (he' : e ∈ es') : e.node ∈ t.graph.nodes :=
    he.nodes_eq ▸ List.mem_append_right _ (List.mem_map_of_mem (hes.subset he'))
  obtain ⟨before, call, outs, rfl, hid, hkind, -, houts⟩ := hr.line
  refine ⟨⟨call.node, hmem call (by simp), hid, hkind⟩, hr.ins.imp fun id position hin => ?_,
    fun out hout => ?_⟩
  · obtain ⟨e, he', hin⟩ := hin
    exact ⟨e.node, hmem e he', hin⟩
  · obtain ⟨e, he', hid, hstep⟩ := forall₂_mem_right houts hout
    exact ⟨e.node, hmem e (by simp [he']), hid, congrArg (fun step => step.point.kind) hstep⟩

/-- What is recorded along a line of nodes. -/
theorem Emits.files {es : List Emission} (he : Emits h s es t) : Files s t := by
  refine ⟨⟨he.nodes_eq ▸ List.prefix_append _ _, fun r hr => ?_⟩, fun id hid => .inl ?_⟩
  · refine (he.mem_callSites hr).imp_right ?_
    rintro ⟨es', hes, hr⟩
    exact he.filesCall hes hr
  · exact he.loopHeads_eq ▸ hid

/-- What is recorded for a construct. -/
theorem Constructs.files {point : Point} {effects : Effects} {head id : NodeId}
    (hc : Constructs h s point effects head id t) : Files s t := by
  obtain ⟨es, he, -⟩ := hc
  exact he.files

/-- The node of a construct is of the kind of its point. -/
theorem Constructs.isNode {point : Point} {effects : Effects} {head id : NodeId}
    (hc : Constructs h s point effects head id t) : t.graph.IsNode id point.kind := by
  obtain ⟨node, hnode, hid, hpoint⟩ := hc.own_node
  exact ⟨node, hnode, hid, congrArg Point.kind hpoint⟩

/-! ## Derivations -/

/-- Lowering keeps the records. -/
theorem Lowered.files {part : Part} (hl : Lowered h part s s') : Files s s' := by
  -- along the derivation: only constructs place nodes and record calls, and only a loop without a
  -- condition records its head, the node of its test
  induction hl with
  | skip _ _ => exact .skipped _ _
  | simple _ _ hc => exact hc.files
  | branch _ _ hc _ _ ih₁ ih₂ => exact (hc.files.trans ih₁).trans ih₂
  | loopUnentered _ _ _ _ _ ih => exact ih
  | tested _ _ _ _ _ _ hc _ ih₁ ih₂ => exact (ih₁.trans hc.files).trans ih₂
  | endless _ _ _ _ _ _ hc _ ih₁ ih₂ =>
    have hfiles := (ih₁.trans hc.files).trans ih₂
    split
    · exact hfiles.withLoopHead (hc.isNode.mono ih₂.1.nodes)
    · exact hfiles
  | rounds _ _ _ ih₁ ih₂ => exact .closed (Files.trans ih₁ ih₂)
  | updateUnentered _ _ => exact .refl _
  | update _ _ _ ih => exact ih
  | footless _ _ _ _ ih => exact Files.trans ih (.skipped _ _)
  | footed _ _ _ _ hc ih => exact .closed (Files.trans ih hc.files)
  | select _ _ hc _ ih => exact hc.files.trans ih
  | casesEnd _ => exact Files.refl _
  | case _ hc _ _ ih₁ ih₂ => exact (hc.files.trans ih₁).trans ih₂
  | jump _ _ _ hc => exact hc.files
  | tryPlain _ _ _ _ ih₁ ih₂ => exact Files.trans ih₁ ih₂
  | tryNodeless _ _ _ _ _ _ ih₁ ih₂ ih₃ => exact .sentAll ((Files.trans ih₁ ih₂).trans ih₃)
  | tryFinally _ _ _ _ _ _ ih₁ ih₂ ih₃ => exact .sentAll ((Files.trans ih₁ ih₂).trans ih₃)
  | catchesEnd _ => exact .refl _
  | catchesUnhandled _ => exact .refl _
  | catchUnentered _ _ _ ih => exact Files.trans (.skipped _ _) ih
  | «catch» _ _ hc _ _ ih₁ ih₂ => exact (hc.files.trans ih₁).trans ih₂
  | nested _ _ _ ih => exact ih
  | blockEnd _ => exact .refl _
  | blockNext _ _ _ ih₁ ih₂ => exact ih₁.trans ih₂

namespace Builds

variable {body : List Stmt} {n : Nat} {ins es : List Emission} {outs : List (OutputSlot × NodeId)}
  {g : FlowGraph}

/-- What is recorded for the parameters and the body of a callable. -/
theorem files (hb : Builds h decl body n ins t s es outs u g) :
    Files (start decl n) s ∧ Files (start decl n) u := by
  have hbody := (hb.opening.files.trans (.withFormals _ _ _)).trans hb.body.files
  exact ⟨hbody, hbody.trans hb.closing.files⟩

/-- There is one formal-in for each parameter. -/
theorem formalIns_isNode (hb : Builds h decl body n ins t s es outs u g) :
    List.Forall₂ (fun id position => g.IsNode id (.formalIn position)) g.formalIns
      (List.range' 0 decl.params.length) := by
  rw [hb.formals_eq.1, List.forall₂_map_left_iff]
  refine forall₂_of_map_eq hb.inSteps fun e he position _ heq => ?_
  exact ⟨e.node, hb.opening_nodes.subset (List.mem_append_right _ (List.mem_map_of_mem he)), rfl,
    congrArg (fun step => step.point.kind) heq⟩

/-- What the graph of a callable records are nodes of it. -/
theorem filed (hb : Builds h decl body n ins t s es outs u g) : g.Filed := by
  have hnodes : u.graph.nodes <+: g.nodes := hb.nodes_eq ▸ List.prefix_rfl
  have hcalls (r : CallSiteNodes) (hr : r ∈ g.callSites) : g.FilesCall r := by
    rw [hb.callSites_eq] at hr
    exact ((hb.files.2.1.calls r hr).resolve_left List.not_mem_nil).mono hnodes
  refine ⟨fun position id hid => isNode_of_getElem? hb.formalIns_isNode hid,
    fun slot id hout => hb.bounded.formalOuts _ hout, fun r hr => (hcalls r hr).call,
    fun r hr position id hid => isNode_of_getElem? (hcalls r hr).ins hid,
    fun r hr slot id hout => (hcalls r hr).outs _ hout, fun r hr => (hcalls r hr).length_actualIns,
    fun id hid => ?_⟩
  have hhead := hb.files.1.2 id (hb.whole.heads hid)
  exact (hhead.resolve_left List.not_mem_nil).mono hb.whole.part.nodes

end Builds

end Lowering

namespace FlowGraph

variable {h : Hierarchy} {decl : CallableDecl} {n : Nat} {g : FlowGraph}

/-- A callable without a body has nothing on record. -/
theorem bodyless_filed (hbody : decl.body = none) (hg : (build h decl n).1 = .ok g) : g.Filed := by
  simp only [build, hbody, Except.ok.injEq] at hg
  have hframe := SameFrame.addArc (ofDecl decl n) (ofDecl decl n).entry.id (ofDecl decl n).exit.id
    ⟨.unconditional, none⟩
  have hcalls := callSites_addArc (ofDecl decl n) (ofDecl decl n).entry.id (ofDecl decl n).exit.id
    ⟨.unconditional, none⟩
  rw [hg] at hframe hcalls
  constructor
  all_goals simp [hframe.formalIns, hframe.formalOuts, hframe.nonTerminating, hcalls, ofDecl]

/-- What the graph that is built for a callable records are nodes of it. -/
theorem build_filed (hg : (build h decl n).1 = .ok g) : g.Filed := by
  cases hbody : decl.body with
  | none => exact bodyless_filed hbody hg
  | some body =>
    obtain ⟨ins, t, s, es, outs, u, hb⟩ := Lowering.build_eq_ok hbody hg
    exact hb.filed

/-- Numbers are given without loss or repetition: the nodes of a graph have all those from the first
    one on, one each, what is recorded are nodes of the graph, and graphs that are built one after
    another share no number. -/
theorem build_numbering (hg : (build h decl n).1 = .ok g) :
    g.ids.Perm ((List.range' n g.size).map NodeId.mk) ∧ g.ids.Nodup ∧
      (build h decl n).2 = n + g.size ∧ g.Filed ∧
      ∀ decls, (buildAll h (decl :: decls) n).1.Pairwise fun o o' =>
        ∀ g g', o.2 = .ok g → o'.2 = .ok g' → g.ids.Disjoint g'.ids :=
  ⟨ids_perm hg, (build_formed hg).nodup, build_count hg, build_filed hg,
    fun decls => pairwise_buildAll h (decl :: decls) n⟩

/-- A callable that hands its first parameter and the result of a call on to itself, and then does not
    end. -/
def handsOn : CallableDecl :=
  { callableWith [
      .simple ⟨⟨0⟩, "f(x, g(y))", none⟩ ⟨[], [], [⟨⟨0⟩, "f(x, g(y))", .declared ⟨0⟩, .direct,
        [.ofVar "x", .ofCall ⟨⟨1⟩, "g(y)", .external "g", .direct, [.ofVar "y"], true, []⟩], true, []⟩], []⟩,
      .forLoop ⟨⟨1⟩, "for (;;)", none⟩ [] none [] [.simple ⟨⟨2⟩, "skip", none⟩ .none]] with
    params := [⟨"x", .byReference⟩, ⟨"y", .byValue⟩] }

/-- The sixteen nodes of the callable have the numbers from seven on. -/
theorem handsOn_numbering : ∃ g, (build ⟨[], [handsOn]⟩ handsOn 7).1 = .ok g ∧ g.size = 16 ∧
    g.formalOuts.length = 1 ∧ g.callSites.map (·.actualOuts.length) = [1, 2] ∧
    g.nonTerminating.length = 1 ∧ g.ids.Perm ((List.range' 7 16).map NodeId.mk) ∧ g.ids.Nodup ∧
    (build ⟨[], [handsOn]⟩ handsOn 7).2 = 23 ∧ g.Filed ∧
    ∀ decls, (buildAll ⟨[], [handsOn]⟩ (handsOn :: decls) 7).1.Pairwise fun o o' =>
      ∀ g g', o.2 = .ok g → o'.2 = .ok g' → g.ids.Disjoint g'.ids := by
  have hrun : (match (build ⟨[], [handsOn]⟩ handsOn 7).1 with
      | .ok g => decide (g.size = 16 ∧ g.formalOuts.length = 1 ∧
        g.callSites.map (·.actualOuts.length) = [1, 2] ∧ g.nonTerminating.length = 1)
      | .error _ => false) = true := by decide +kernel
  obtain ⟨g, hg⟩ := Lowering.build_ok ⟨[], [handsOn]⟩ handsOn 7 (by decide +kernel)
  rw [hg] at hrun
  obtain ⟨hsize, houts, hcalls, hloops⟩ := of_decide_eq_true hrun
  obtain ⟨hperm, hnodup, hnext, hfiled, hapart⟩ := build_numbering hg
  rw [hsize] at hperm hnext
  exact ⟨g, hg, hsize, houts, hcalls, hloops, hperm, hnodup, hnext, hfiled, hapart⟩

end FlowGraph

end Slicing
