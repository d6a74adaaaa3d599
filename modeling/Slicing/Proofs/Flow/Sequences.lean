import Slicing.Proofs.Flow.Segments

/-!
# Evaluation in sequence

The nodes of a call stand one behind the other, those of its arguments in front of it and what comes
back behind it, and the last of them stands in front of the node that evaluates the call. Control
goes on from each of them to the node behind it, whatever else may happen there
(`FlowGraph.Sequenced`). Every part of a callable keeps this (`Lowered.sequenced`), since the nodes
of a construct are placed in one go.
-/

namespace Slicing

namespace FlowGraph

variable {h : Hierarchy} {g g' : FlowGraph}

/-- Control goes on from each node of a call to the node behind it. -/
def Onward (g : FlowGraph) (nodes : List Node) : Prop :=
  nodes.IsChain fun a b => a.kind.isOfCall = true → g.HasEdge a.id b.id

/-- The nodes of calls are passed in sequence, up to one of another kind, and each call has an
    actual-out for each value that comes back. -/
structure Sequenced (h : Hierarchy) (g : FlowGraph) : Prop where
  onward : g.Onward g.nodes
  last : ∀ node ∈ g.nodes.getLast?, node.kind.isOfCall = false
  slots : ∀ r ∈ g.callSites, r.actualOuts.map (·.1) = r.site.outputs h

/-- Control goes on in a graph with more edges as well. -/
theorem Onward.mono {nodes : List Node} (ho : g.Onward nodes) (hsub : g.edges ⊆ g'.edges) :
    g'.Onward nodes :=
  ho.imp fun _ _ hedge hkind => (hedge hkind).of_subset hsub

/-- Nodes that belong to no call. -/
theorem onward_of_kinds {nodes : List Node} (hnodes : ∀ node ∈ nodes, node.kind.isOfCall = false) :
    g.Onward nodes := by
  induction nodes with
  | nil => exact List.isChain_nil
  | cons node nodes ih =>
    refine List.isChain_cons.2 ⟨fun b _ hkind => ?_, ih fun b hb => hnodes b (List.mem_cons_of_mem _ hb)⟩
    rw [hnodes node List.mem_cons_self] at hkind
    cases hkind

/-- Nodes of calls, and one behind them that control comes to from there. -/
theorem Onward.isChain {nodes : List Node} {last : Node} (ho : g.Onward (nodes ++ [last]))
    (hnodes : ∀ node ∈ nodes, node.kind.isOfCall = true) :
    (nodes ++ [last]).IsChain fun a b => g.HasEdge a.id b.id := by
  induction nodes with
  | nil => exact List.isChain_singleton _
  | cons node nodes ih =>
    obtain ⟨hfirst, hrest⟩ := List.isChain_cons.1 ho
    exact List.isChain_cons.2 ⟨fun b hb => hfirst b hb (hnodes node List.mem_cons_self),
      ih hrest fun b hb => hnodes b (List.mem_cons_of_mem _ hb)⟩

/-- A graph of a callable that calls nothing. -/
theorem sequenced_of_kinds (hnodes : ∀ node ∈ g.nodes, node.kind.isOfCall = false)
    (hcalls : g.callSites = []) : g.Sequenced h :=
  ⟨onward_of_kinds hnodes, fun node hnode => hnodes node (List.mem_of_getLast? hnode), hcalls ▸ nofun⟩

/-- The first nodes of a callable belong to no call. -/
theorem isOfCall_ofDecl (decl : CallableDecl) (n : Nat) :
    ∀ node ∈ (ofDecl decl n).nodes, node.kind.isOfCall = false := by
  simp [ofDecl, nodes, NodeKind.isOfCall]

end FlowGraph

namespace Lowering

variable {h : Hierarchy} {s s' t u : Lowering} {es : List Emission} {point : Point} {effects : Effects}
  {head id : NodeId}

/-- A line goes on from where a node of a call is the frontier, and up to a node of another kind. -/
theorem Emits.sequenced (he : Emits h s es t) (hr : s.graph.InRange) (hs : s.graph.Sequenced h)
    (hlast : ∀ e ∈ es.getLast?, e.node.kind.isOfCall = false) : t.graph.Sequenced h := by
  have hline : t.graph.InRange ∧ t.graph.Onward t.graph.nodes ∧
      (∀ node ∈ t.graph.nodes.getLast?, node.kind.isOfCall = true →
        t.pending = [.plain node.id .unconditional]) ∧
      ∀ r ∈ t.graph.callSites, r.actualOuts.map (·.1) = r.site.outputs h := by
    clear hlast
    induction he with
    | done => exact ⟨hr, hs.onward, fun node hnode hkind => by simp [hs.last node hnode] at hkind, hs.slots⟩
    | number _ ih => exact ih
    | record _ hrec ih =>
      refine ⟨ih.1, ih.2.1, ih.2.2.1, fun r hmem => ?_⟩
      rcases List.mem_append.1 hmem with hmem | hmem
      · exact ih.2.2.2 r hmem
      · rw [List.mem_singleton.1 hmem]
        exact hrec.slots
    | @node _ t e _ _ _ _ _ ih =>
      obtain ⟨hrange, honward, hpend, hslots⟩ := ih
      have hplaced : (t.placed e.node).graph.callSites = t.graph.callSites :=
        foldl_addArc_callSites (t.graph.addNode e.node) fun _ p => (p.source, e.node.id, p.edge)
      rw [sentAll_graph, sentAll_pending]
      refine ⟨placed_inRange hrange _, ?_, fun node hnode _ => ?_, hplaced ▸ hslots⟩
      · rw [FlowGraph.Onward, placed_nodes]
        refine List.isChain_append.2 ⟨honward.mono (placed_graph hrange _).edges, List.isChain_singleton _,
          fun a ha b hb hkind => ?_⟩
        -- behind a node of a call the frontier is that node
        rw [← Option.some.inj hb]
        have hsources : ∀ p ∈ t.pending, p.source ∈ t.graph.ids := by
          rw [hpend a ha hkind, List.forall_mem_singleton]
          exact List.mem_map_of_mem (List.mem_of_getLast? ha)
        refine ⟨⟨.unconditional, none⟩, ?_⟩
        rw [placed_edges hrange hsources, hpend a ha hkind]
        simp [Pending.plain]
      · rw [placed_nodes, List.getLast?_concat] at hnode
        rw [← Option.some.inj hnode]
        rfl
  refine ⟨hline.2.1, fun node hnode => ?_, hline.2.2.2⟩
  rw [he.nodes_eq, List.getLast?_append, List.getLast?_map] at hnode
  cases hes : es.getLast? with
  | none =>
    rw [hes] at hnode
    exact hs.last node hnode
  | some e =>
    rw [hes] at hnode
    rw [← Option.some.inj hnode]
    exact hlast e hes

/-- The nodes of a construct are passed in sequence up to its own one. -/
theorem Constructs.sequenced (hc : Constructs h s point effects head id t) (hr : s.graph.InRange)
    (hpoint : point.kind.isOfCall = false) (hs : s.graph.Sequenced h) : t.graph.Sequenced h := by
  obtain ⟨es, he, hsteps, -, -⟩ := hc
  refine he.sequenced hr hs fun e hmem => ?_
  have hlast : (es.map Emission.step).getLast? = some ⟨point, effects.throws⟩ := by
    rw [hsteps, Effects.steps, List.getLast?_append]
    rfl
  rw [List.getLast?_map, hmem] at hlast
  rw [← congrArg (fun step => step.point.kind) (Option.some.inj hlast)] at hpoint
  exact hpoint

/-- Leading arcs back to the head of a loop keeps the sequences. -/
theorem closed_sequenced (hs : s.graph.Sequenced h) (head : NodeId) (tails : List Pending) :
    (s.closed head tails).graph.Sequenced h := by
  have hcalls : (s.closed head tails).graph.callSites = s.graph.callSites :=
    foldl_addArc_callSites s.graph fun _ p => (p.source, head, backEdge p.edge)
  refine ⟨?_, ?_, hcalls ▸ hs.slots⟩
  · rw [closed_nodes]
    exact hs.onward.mono (closed_graph s head tails).edges
  · rw [closed_nodes]
    exact hs.last

/-- The node of a jump belongs to no call. -/
theorem Stmt.isOfCall_of_jump {stmt : Stmt} {j : Jump} (hj : stmt.jump? = some j) :
    j.kind.isOfCall = false := by
  cases stmt with
  | returnJump _ value => cases value <;> · cases hj; rfl
  | _ => first | cases hj; rfl | cases hj

/-- Lowering keeps the nodes of calls in sequence. -/
theorem Lowered.sequenced {part : Part} (hl : Lowered h part s s') (hs : s.graph.Sequenced h) :
    s'.graph.Sequenced h := by
  induction hl with
  | skip _ _ => exact ⟨hs.onward, hs.last, hs.slots⟩
  | simple hr _ hc => exact hc.sequenced hr.sound.inRange rfl hs
  | branch hr _ hc _ _ ih₁ ih₂ => exact ih₂ (ih₁ (hc.sequenced hr.sound.inRange rfl hs))
  | loopUnentered _ _ _ _ _ ih => exact ih hs
  | tested _ _ _ _ hl₁ _ hc _ ih₁ ih₂ =>
    exact ih₂ (hc.sequenced hl₁.grown.ext.sound.inRange rfl (ih₁ hs))
  | endless _ _ _ _ hl₁ _ hc _ ih₁ ih₂ =>
    have := ih₂ (hc.sequenced hl₁.grown.ext.sound.inRange rfl (ih₁ hs))
    split
    exacts [this, this]
  | rounds _ _ _ ih₁ ih₂ => exact closed_sequenced (s := Lowering.withPending _ _) (ih₂ (ih₁ hs)) _ _
  | updateUnentered _ _ => exact hs
  | update _ _ _ ih => exact ih hs
  | footless _ _ _ _ ih =>
    have hbody := ih hs
    exact ⟨hbody.onward, hbody.last, hbody.slots⟩
  | footed _ _ hl _ hc ih =>
    exact closed_sequenced (hc.sequenced hl.grown.ext.sound.inRange rfl (ih hs)) _ _
  | select hr _ hc _ ih => exact ih (hc.sequenced hr.sound.inRange rfl hs)
  | casesEnd _ => exact hs
  | case hr hc _ _ ih₁ ih₂ => exact ih₂ (ih₁ (hc.sequenced hr.sound.inRange rfl hs))
  | jump hr _ hj hc => exact hc.sequenced hr.sound.inRange (Stmt.isOfCall_of_jump hj) hs
  | tryPlain _ _ _ _ ih₁ ih₂ => exact ih₂ (ih₁ hs)
  | tryNodeless _ _ _ _ _ _ ih₁ ih₂ ih₃ =>
    rw [sentAll_graph]
    exact ih₃ (ih₂ (ih₁ hs))
  | tryFinally _ _ _ _ _ _ ih₁ ih₂ ih₃ =>
    rw [sentAll_graph]
    exact ih₃ (ih₂ (ih₁ hs))
  | catchesEnd _ => exact hs
  | catchesUnhandled _ => exact hs
  | catchUnentered _ _ _ ih => exact ih ⟨hs.onward, hs.last, hs.slots⟩
  | «catch» hr _ hc _ _ ih₁ ih₂ => exact ih₂ (ih₁ (hc.sequenced hr.sound.inRange rfl hs))
  | nested _ _ _ ih => exact ih hs
  | blockEnd _ => exact hs
  | blockNext _ _ _ ih₁ ih₂ => exact ih₂ (ih₁ hs)

namespace Builds

variable {decl : CallableDecl} {body : List Stmt} {n : Nat} {ins : List Emission}
  {outs : List (OutputSlot × NodeId)} {g : FlowGraph}

/-- The nodes of calls are passed in sequence in the graph of a callable. -/
theorem sequenced (hb : Builds h decl body n ins t s es outs u g) : g.Sequenced h := by
  have hstart := FlowGraph.sequenced_of_kinds (h := h) (FlowGraph.isOfCall_ofDecl decl n) rfl
  have hopening := hb.opening.sequenced (start_sound decl n).inRange hstart fun e he => by
    obtain ⟨position, hkind⟩ := hb.ins_kind e (List.mem_of_getLast? he)
    rw [hkind]
    rfl
  have hbody := hb.body.sequenced (s := t.withFormals _ _) ⟨hopening.onward, hopening.last, hopening.slots⟩
  have hclosing := hb.closing.sequenced hb.body.grown.ext.sound.inRange hbody fun e he => by
    obtain ⟨slot, hkind⟩ := hb.outs_kind e (List.mem_of_getLast? he)
    rw [hkind]
    rfl
  refine ⟨?_, hb.nodes_eq ▸ hclosing.last, hb.callSites_eq ▸ hclosing.slots⟩
  rw [hb.nodes_eq]
  exact hclosing.onward.mono (hb.edges_eq ▸ List.subset_append_left _ _)

end Builds

end Lowering

namespace FlowGraph

variable {h : Hierarchy} {decl : CallableDecl} {n : Nat} {g : FlowGraph}

/-- In every flow graph that is built, the nodes of calls are passed in sequence. -/
theorem build_sequenced (hg : (build h decl n).1 = .ok g) : g.Sequenced h := by
  cases hbody : decl.body with
  | none =>
    refine sequenced_of_kinds ?_ (build_bodyless hbody hg).2
    simp only [build, hbody, Except.ok.injEq] at hg
    rw [← hg, nodes_addArc]
    exact isOfCall_ofDecl decl n
  | some body =>
    obtain ⟨ins, t, s, es, outs, u, hb⟩ := Lowering.build_eq_ok hbody hg
    exact hb.sequenced

end FlowGraph

end Slicing
