import Slicing.Proofs.Flow.Stages

/-!
# Calls in line

The nodes of a call stand in line: the call, and behind it the actual-outs, one for each
value that comes back. Control goes along this line. It comes to an actual-out only from the
node in front of it, and leaves it only for the node behind it (`FlowGraph.InLine`): frontiers
and ways out start at other nodes, and so do the heads of loops. This is kept by every step
of lowering (`Lowered.clear`).

So what comes back from a call is there whenever the call is, unless the call itself decides
about it: another node that decides about the call decides about its actual-outs, or the call
does (`FlowGraph.Orderly.control_actualOut`).
-/

namespace Slicing

/-- A node of the kind takes in a value that comes back from a call. -/
def NodeKind.isActualOut : NodeKind → Bool
  | .actualOut .. => true
  | _ => false

/-- What is written back in an argument has the slot of its position. -/
theorem mem_writtenSlots {passing : List Passing} {args : List (Argument CallSite)} {start : Nat}
    {slot : OutputSlot} (hslot : slot ∈ writtenSlots passing start args) :
    ∃ position, start ≤ position ∧ slot = .param position := by
  fun_induction writtenSlots passing start args with
  | case1 => cases hslot
  | case2 start arg args _ _ _ ih =>
    rcases List.mem_cons.1 hslot with rfl | hslot
    · exact ⟨start, le_rfl, rfl⟩
    · obtain ⟨position, hle, rfl⟩ := ih hslot
      exact ⟨position, Nat.le_of_succ_le hle, rfl⟩
  | case3 start arg args _ ih =>
    obtain ⟨position, hle, rfl⟩ := ih hslot
    exact ⟨position, Nat.le_of_succ_le hle, rfl⟩

/-- No two arguments are written back to one slot. -/
theorem writtenSlots_nodup (passing : List Passing) (start : Nat) (args : List (Argument CallSite)) :
    (writtenSlots passing start args).Nodup := by
  fun_induction writtenSlots passing start args with
  | case1 => exact List.nodup_nil
  | case2 start arg args _ _ _ ih =>
    refine List.nodup_cons.2 ⟨fun hslot => ?_, ih⟩
    obtain ⟨position, hle, heq⟩ := mem_writtenSlots hslot
    cases heq
    exact Nat.not_succ_le_self _ hle
  | case3 start arg args _ ih => exact ih

/-- No two values come back from a call in one slot. -/
theorem CallSite.outputs_nodup (h : Hierarchy) (site : CallSite) : (site.outputs h).Nodup := by
  have hwritten := writtenSlots_nodup (site.passing h) 0 site.args
  rw [outputs]
  split
  · refine List.nodup_cons.2 ⟨fun hresult => ?_, hwritten⟩
    obtain ⟨position, -, heq⟩ := mem_writtenSlots hresult
    cases heq
  · exact hwritten

namespace FlowGraph

/-- A node that is no actual-out. -/
def Bare (g : FlowGraph) (id : NodeId) : Prop :=
  ∃ node ∈ g.nodes, node.id = id ∧ node.kind.isActualOut = false

/-- A node was made for a value that comes back from a call. -/
def IsOut (site : CallSiteId) (node : Node) (out : OutputSlot × NodeId) : Prop :=
  node.id = out.2 ∧ node.kind = .actualOut site out.1

/-- The nodes of a call: the call and its actual-outs stand in line, and each leads to the
    next. -/
structure Laid (g : FlowGraph) (r : CallSiteNodes) : Prop where
  line : ∃ call outs, call :: outs <:+: g.nodes ∧ call.id = r.callNode ∧
    call.kind = .call r.site.id ∧ call.uses = [] ∧
    List.Forall₂ (IsOut r.site.id) outs r.actualOuts ∧
    (call :: outs).IsChain fun a b => g.HasEdge a.id b.id
  ins : ∀ x ∈ r.actualIns, ∃ node ∈ g.nodes, node.id = x ∧
    ∃ position, node.kind = .actualIn r.site.id position
  slots : (r.actualOuts.map (·.1)).Nodup

/-- Control comes to an actual-out and leaves it along the line of its call. -/
structure InLine (g : FlowGraph) : Prop where
  edges : ∀ e ∈ g.edges, g.Bare e.1 ∧ g.Bare e.2.1 ∨ [e.1, e.2.1] <:+: g.ids
  calls : ∀ r ∈ g.callSites, g.Laid r

variable {g g' : FlowGraph} {id : NodeId} {r : CallSiteNodes}

theorem callSites_addArc (g : FlowGraph) (u v : NodeId) (edge : FlowEdge) :
    (g.addArc u v edge).callSites = g.callSites := by
  unfold addArc
  split <;> rfl

theorem nodeAt_eq {p : Nat} (hp : p < g.size) : g.nodes[p]? = some (g.nodeAt p) := by
  rw [nodeAt, List.getD_eq_getElem?_getD, List.getElem?_eq_getElem hp]
  rfl

theorem Bare.mem (hb : g.Bare id) : id ∈ g.ids := by
  obtain ⟨node, hnode, rfl, -⟩ := hb
  exact List.mem_map_of_mem hnode

/-- A node that is no actual-out stays one. -/
theorem Bare.mono (hb : g.Bare id) (hn : g.nodes <+: g'.nodes) : g'.Bare id := by
  obtain ⟨node, hnode, hid⟩ := hb
  exact ⟨node, hn.subset hnode, hid⟩

/-- The nodes of a call stay in line in a larger graph. -/
theorem Laid.mono (hr : g.Laid r) (hg : g.PartOf g') : g'.Laid r := by
  obtain ⟨⟨call, outs, hline, hid, hkind, huses, houts, hchain⟩, hins, hslots⟩ := hr
  refine ⟨⟨call, outs, hline.trans hg.nodes.isInfix, hid, hkind, huses, houts,
    hchain.imp fun _ _ => hg.hasEdge⟩, fun x hx => ?_, hslots⟩
  obtain ⟨node, hnode, hx⟩ := hins x hx
  exact ⟨node, hg.nodes.subset hnode, hx⟩

end FlowGraph

/-! ## Steps of constructs -/

/-- Steps that begin with something else than a value that comes back, and in which nothing
    is raised where a value comes back. -/
structure Quiet (steps : List PointStep) : Prop where
  first : ∀ step ∈ steps.head?, step.point.kind.isActualOut = false
  throws : ∀ step ∈ steps, step.point.kind.isActualOut = true → step.throws = []

theorem Quiet.nil : Quiet [] := ⟨nofun, nofun⟩

/-- Quiet steps behind each other are quiet. -/
theorem Quiet.append {steps steps' : List PointStep} (hq : Quiet steps) (hq' : Quiet steps') :
    Quiet (steps ++ steps') := by
  refine ⟨fun step hstep => ?_, fun step hstep => ?_⟩
  · cases steps with
    | nil => exact hq'.first step hstep
    | cons _ _ => exact hq.first step hstep
  · exact (List.mem_append.1 hstep).elim (hq.throws step) (hq'.throws step)

theorem Quiet.single {step : PointStep} (hstep : step.point.kind.isActualOut = false) :
    Quiet [step] := by
  constructor
  · intro step' hmem
    rwa [← Option.some.inj hmem]
  · intro step' hmem hout
    rw [List.mem_singleton.1 hmem, hstep] at hout
    cases hout

/-- The own steps of a call are quiet: it starts with the call. -/
theorem quiet_ownSteps (h : Hierarchy) (site : CallSite) : Quiet (site.ownSteps h) := by
  constructor
  · intro step hmem
    rw [← Option.some.inj hmem]
    rfl
  · intro step hmem hout
    rcases List.mem_cons.1 hmem with rfl | hmem
    · cases hout
    · obtain ⟨slot, -, rfl⟩ := List.mem_map.1 hmem
      rfl

mutual

/-- The steps of a call are quiet. -/
theorem quiet_callSteps (h : Hierarchy) : ∀ site : CallSite, Quiet (callSteps h site)
  | ⟨id, text, target, dispatch, args, resultUsed, throws⟩ => by
    rw [callSteps]
    exact (quiet_argSteps h id 0 args).append (quiet_ownSteps h _)

theorem quiet_argSteps (h : Hierarchy) (site : CallSiteId) (position : Nat) :
    ∀ args : List (Argument CallSite), Quiet (argSteps h site position args)
  | [] => by
    rw [argSteps]
    exact .nil
  | ⟨_, _, calls, _⟩ :: args => by
    rw [argSteps, List.append_cons]
    exact ((quiet_callsSteps h calls).append (.single rfl)).append
      (quiet_argSteps h site (position + 1) args)

theorem quiet_callsSteps (h : Hierarchy) : ∀ sites : List CallSite, Quiet (callsSteps h sites)
  | [] => by
    rw [callsSteps]
    exact .nil
  | site :: sites => by
    rw [callsSteps]
    exact (quiet_callSteps h site).append (quiet_callsSteps h sites)

end

/-- The steps of a construct are quiet, unless it stands for a value that comes back. -/
theorem quiet_steps (h : Hierarchy) (effects : Effects) {point : Point}
    (hpoint : point.kind.isActualOut = false) : Quiet (effects.steps h point) :=
  (quiet_callsSteps h effects.calls).append (.single hpoint)

/-! ## What statements have taken in -/

namespace Scope

variable (scope : Scope)

theorem breaks_subset : scope.breaks ⊆ scope.waiting := by
  cases scope with
  | loop => exact List.subset_append_left _ _
  | select => exact List.Subset.refl _
  | tryBlock => exact List.nil_subset _

theorem continues_subset : scope.continues ⊆ scope.waiting := by
  cases scope with
  | loop => exact List.subset_append_right _ _
  | select => exact List.nil_subset _
  | tryBlock => exact List.nil_subset _

theorem incoming_subset : scope.handlers.flatMap (·.incoming) ⊆ scope.waiting := by
  cases scope with
  | loop => exact List.nil_subset _
  | select => exact List.nil_subset _
  | tryBlock => exact List.subset_append_left _ _

theorem escapes_subset : scope.escapes.map (·.1) ⊆ scope.waiting := by
  cases scope with
  | loop => exact List.nil_subset _
  | select => exact List.nil_subset _
  | tryBlock => exact List.subset_append_right _ _

theorem withoutHandlers_subset : scope.withoutHandlers.waiting ⊆ scope.waiting := by
  cases scope with
  | loop => exact List.Subset.refl _
  | select => exact List.Subset.refl _
  | tryBlock => exact List.subset_append_right _ _

end Scope

/-- The node of a jump is no actual-out. -/
theorem Stmt.kind_of_jump {stmt : Stmt} {j : Jump} (hj : stmt.jump? = some j) :
    j.kind.isActualOut = false := by
  unfold Stmt.jump? at hj
  split at hj <;> cases hj <;> rfl

namespace Lowering

open FlowGraph

variable {h : Hierarchy} {s s' t u v : Lowering} {p : Pending} {ps : List Pending} {id head : NodeId}
  {es : List Emission}

/-! ## Lines -/

/-- Where what waits behind a line comes from. -/
theorem Emits.mem_collected (he : Emits h s es t) (hp : p ∈ t.collected) :
    p ∈ s.collected ∨ ∃ e ∈ es, e.throws ≠ [] ∧ p.source = e.node.id := by
  induction he with
  | done => exact .inl hp
  | number _ ih => exact ih hp
  | record _ _ ih => exact ih hp
  | @node es t e _ _ _ _ _ ih =>
    have hsent : p ∈ t.collected ∨ ∃ w ∈ raises e.node.id e.throws, p = w.1 := by
      refine sentAll_induction h (t.placed e.node) (raises e.node.id e.throws)
        (motive := fun v => p ∈ v.collected →
          p ∈ t.collected ∨ ∃ w ∈ raises e.node.id e.throws, p = w.1) .inl ?_ hp
      intro v w hw ih hp
      exact (Extends.collected_sent_subset h v w.1 w.2 hp).elim ih fun heq => .inr ⟨w, hw, heq⟩
    rcases hsent with hp | ⟨w, hw, rfl⟩
    · refine (ih hp).imp_right ?_
      rintro ⟨e', he', hthrows⟩
      exact ⟨e', List.mem_append_left _ he', hthrows⟩
    · obtain ⟨exceptionType, hmem, rfl⟩ := List.mem_map.1 hw
      exact .inr ⟨e, by simp, List.ne_nil_of_mem hmem, rfl⟩

theorem foldl_addArc_callSites (g : FlowGraph)
    (f : FlowGraph → Pending → NodeId × NodeId × FlowEdge) :
    (ps.foldl (fun g p => g.addArc (f g p).1 (f g p).2.1 (f g p).2.2) g).callSites =
      g.callSites := by
  induction ps generalizing g with
  | nil => rfl
  | cons p ps ih => rw [List.foldl_cons, ih, callSites_addArc]

/-- The calls recorded along a line are those on the line. -/
theorem Emits.mem_callSites (he : Emits h s es t) {r : CallSiteNodes}
    (hr : r ∈ t.graph.callSites) :
    r ∈ s.graph.callSites ∨ ∃ es', es' <+: es ∧ Records h es' r := by
  induction he with
  | done => exact .inl hr
  | number _ ih => exact ih hr
  | record _ hrec ih =>
    rcases List.mem_append.1 hr with hr | hr
    · exact ih hr
    · rw [List.mem_singleton.1 hr]
      exact .inr ⟨_, List.prefix_rfl, hrec⟩
  | @node _ t e _ _ _ _ _ ih =>
    have hplaced : (t.placed e.node).graph.callSites = t.graph.callSites :=
      foldl_addArc_callSites (t.graph.addNode e.node) fun _ p => (p.source, e.node.id, p.edge)
    rw [sentAll_graph, hplaced] at hr
    refine (ih hr).imp_right ?_
    rintro ⟨es', hes', hrec⟩
    exact ⟨es', hes'.trans (List.prefix_append _ _), hrec⟩

/-! ## States -/

/-- What waits for its target, and what loops are led back to, is no actual-out. -/
structure Clear (s : Lowering) : Prop where
  inRange : s.graph.InRange
  graph : s.graph.InLine
  collected : ∀ p ∈ s.collected, s.graph.Bare p.source
  loopHeads : ∀ head ∈ s.loopHeads, s.graph.Bare head

namespace Clear

/-- What waits may be exchanged. -/
theorem withPending (hs : Clear s) (ps : List Pending) : Clear (s.withPending ps) :=
  ⟨hs.inRange, hs.graph, hs.collected, hs.loopHeads⟩

theorem skipped (hs : Clear s) (element : ElementId) : Clear (s.skipped element) :=
  ⟨hs.inRange, ⟨hs.graph.edges, fun r hr => (hs.graph.calls r hr).mono ⟨List.prefix_rfl, fun _ he => he⟩⟩,
    hs.collected, hs.loopHeads⟩

theorem withLoopHead (hs : Clear s) (hhead : s.graph.Bare head) : Clear (s.withLoopHead head) := by
  refine ⟨hs.inRange, hs.graph, hs.collected, fun head' hmem => ?_⟩
  rcases List.mem_append.1 hmem with hmem | hmem
  · exact hs.loopHeads head' hmem
  · exact List.mem_singleton.1 hmem ▸ hhead

/-- A statement may be entered whose arcs start at no actual-outs. -/
theorem entered (hs : Clear s) {scope : Scope} (hscope : ∀ p ∈ scope.waiting, s.graph.Bare p.source) :
    Clear (s.entered scope) := by
  refine ⟨hs.inRange, hs.graph, fun p hp => ?_, hs.loopHeads⟩
  rw [Lowering.collected, entered_scopes, List.flatMap_cons, List.append_assoc] at hp
  exact (List.mem_append.1 hp).elim (hscope p) (hs.collected p)

theorem left (hs : Clear s) : Clear s.left := by
  refine ⟨hs.inRange, hs.graph, fun p hp => hs.collected p ?_, hs.loopHeads⟩
  refine (List.mem_append.1 hp).elim (fun hp => ?_) fun hp => List.mem_append_right _ hp
  obtain ⟨scope, hscope, hp⟩ := List.mem_flatMap.1 hp
  exact List.mem_append_left _ (List.mem_flatMap.2 ⟨scope, List.mem_of_mem_tail hscope, hp⟩)

/-- What a statement has taken in. -/
theorem innermost (hs : Clear s) : ∀ p ∈ s.innermost.waiting, s.graph.Bare p.source := by
  intro p hp
  unfold Lowering.innermost at hp
  cases hscopes : s.scopes with
  | nil =>
    rw [hscopes] at hp
    cases hp
  | cons scope scopes =>
    rw [hscopes] at hp
    refine hs.collected p (List.mem_append_left _ ?_)
    rw [hscopes]
    exact List.mem_append_left _ hp

/-- A loop may be closed at a head that is no actual-out. -/
theorem closed (hs : Clear s) (tails : List Pending) (hhead : s.graph.Bare head)
    (htails : ∀ p ∈ tails, s.graph.Bare p.source) : Clear (s.closed head tails) := by
  have hpart := closed_graph s head tails
  have hids : (s.closed head tails).graph.ids = s.graph.ids := closed_ids s head tails
  refine ⟨closed_inRange hs.inRange _ _, ⟨fun e he => ?_, fun r hr => ?_⟩, fun p hp => ?_, fun x hx => ?_⟩
  · rw [closed_edges head tails hhead.mem fun p hp => (htails p hp).mem] at he
    rw [hids]
    rcases List.mem_append.1 he with he | he
    · exact (hs.graph.edges e he).imp_left fun hb => ⟨hb.1.mono hpart.nodes, hb.2.mono hpart.nodes⟩
    · obtain ⟨p, hp, rfl⟩ := List.mem_map.1 he
      exact .inl ⟨(htails p hp).mono hpart.nodes, hhead.mono hpart.nodes⟩
  · have hcalls : (s.closed head tails).graph.callSites = s.graph.callSites :=
      foldl_addArc_callSites s.graph fun _ p => (p.source, head, backEdge p.edge)
    exact (hs.graph.calls r (hcalls ▸ hr)).mono hpart
  · exact (hs.collected p hp).mono hpart.nodes
  · exact (hs.loopHeads x hx).mono hpart.nodes

/-- A way out may be sent from a node that is no actual-out. -/
theorem sent (hs : Clear s) (hp : s.graph.Bare p.source) (escape : Escape) :
    Clear (s.sent h p escape) := by
  refine ⟨hs.inRange, hs.graph, fun q hq => ?_, hs.loopHeads⟩
  rcases Extends.collected_sent_subset h s p escape hq with hq | rfl
  exacts [hs.collected q hq, hp]

theorem sentAll (hs : Clear s) {escapes : List (Pending × Escape)}
    (hp : ∀ e ∈ escapes, s.graph.Bare e.1.source) : Clear (s.sentAll h escapes) := by
  refine (sentAll_induction h s escapes (motive := fun u => Clear u ∧ u.graph = s.graph) ⟨hs, rfl⟩ ?_).1
  rintro u e hmem ⟨hu, hgraph⟩
  exact ⟨hu.sent (hgraph ▸ hp e hmem) e.2, hgraph⟩

end Clear

/-! ## Constructs -/

/-- Along a line each node leads to the next. -/
theorem Emits.isChain (he : Emits h s es t) (hs : s.graph.InRange)
    (hp : ∀ p ∈ s.pending, p.source ∈ s.graph.ids) :
    (es.map (·.node)).IsChain fun a b => t.graph.HasEdge a.id b.id := by
  obtain ⟨-, -, hedges⟩ := he.edges_eq hs hp
  refine List.isChain_iff_forall_rel_of_append_cons_cons.2 fun a b before after hes => ?_
  have hwithin : [a.id, b.id] <:+: es.map (·.node.id) := by
    have hmap := congrArg (List.map Node.id) hes
    rw [List.map_map, List.map_append] at hmap
    exact ⟨before.map Node.id, after.map Node.id, by rw [List.append_assoc]; exact hmap.symm⟩
  refine ⟨⟨.unconditional, none⟩, hedges ▸ List.mem_append_right _ ?_⟩
  exact mem_lineArcs_iff.2 (.inr ⟨_, _, hwithin, rfl⟩)

/-- A call on a line is laid in the graph with the line. -/
theorem Emits.laid (he : Emits h s es t) (hs : s.graph.InRange)
    (hp : ∀ p ∈ s.pending, p.source ∈ s.graph.ids) {es' : List Emission} (hes : es' <+: es)
    {r : CallSiteNodes} (hr : Records h es' r) : t.graph.Laid r := by
  have hnodes : es.map (·.node) <:+: t.graph.nodes := by
    rw [he.nodes_eq]
    exact (List.suffix_append _ _).isInfix
  obtain ⟨⟨before, call, outs, rfl, hid, hkind, huses, houts⟩, hins, hslots⟩ := hr
  have hcall : call :: outs <:+: es := (List.suffix_append before _).isInfix.trans hes.isInfix
  have hline : call.node :: outs.map (·.node) <:+: es.map (·.node) := hcall.map Emission.node
  refine ⟨⟨call.node, outs.map (·.node), hline.trans hnodes, hid, hkind, huses, ?_,
    List.IsChain.infix (he.isChain hs hp) hline⟩, fun x hx => ?_, hslots ▸ r.site.outputs_nodup h⟩
  · refine List.forall₂_map_left_iff.2 (houts.imp fun e out hout => ⟨hout.1, ?_⟩)
    exact congrArg (fun step => step.point.kind) hout.2
  · obtain ⟨position, -, e, hmem, rfl, hkind⟩ := forall₂_mem_right hins.flip hx
    exact ⟨e.node, hnodes.subset (List.mem_map_of_mem (hes.subset hmem)), rfl, position, hkind⟩

/-- A line that does not start with an actual-out keeps a state clear: what it adds to the graph
    joins neighbours or leads to its first node, and only nodes of other kinds raise. -/
theorem Emits.clear (he : Emits h s es t) (hs : Clear s) (hp : ∀ p ∈ s.pending, s.graph.Bare p.source)
    (hq : Quiet (es.map Emission.step)) : Clear t := by
  have hnodes : s.graph.nodes <+: t.graph.nodes := he.nodes_eq ▸ List.prefix_append _ _
  have hmem (e : Emission) (he' : e ∈ es) : e.node ∈ t.graph.nodes :=
    he.nodes_eq ▸ List.mem_append_right _ (List.mem_map_of_mem he')
  obtain ⟨hrange, -, hedges⟩ := he.edges_eq hs.inRange fun p hmem => (hp p hmem).mem
  have hpart : s.graph.PartOf t.graph := ⟨hnodes, hedges ▸ List.subset_append_left _ _⟩
  refine ⟨hrange, ⟨fun arc harc => ?_, fun r hr => ?_⟩, fun p hp' => ?_, fun x hx => ?_⟩
  · rw [hedges] at harc
    rcases List.mem_append.1 harc with harc | harc
    · exact (hs.graph.edges arc harc).imp (fun hb => ⟨hb.1.mono hnodes, hb.2.mono hnodes⟩)
        fun hwithin => hwithin.trans hpart.ids.isInfix
    · rcases mem_lineArcs_iff.1 harc with ⟨p, hmem', first, hfirst, rfl⟩ | ⟨x, y, hxy, rfl⟩
      · rw [List.head?_map] at hfirst
        obtain ⟨e, he', rfl⟩ := Option.map_eq_some_iff.1 hfirst
        refine .inl ⟨(hp p hmem').mono hnodes, e.node, hmem e (List.mem_of_mem_head? he'), rfl, ?_⟩
        exact hq.first e.step (by rw [List.head?_map, he']; rfl)
      · refine .inr (hxy.trans ?_)
        rw [he.ids_eq]
        exact (List.suffix_append _ _).isInfix
  · rcases he.mem_callSites hr with hr | ⟨es', hes, hr⟩
    · exact (hs.graph.calls r hr).mono hpart
    · exact he.laid hs.inRange (fun p hmem => (hp p hmem).mem) hes hr
  · rcases he.mem_collected hp' with hp' | ⟨e, he', hthrows, hid⟩
    · exact (hs.collected p hp').mono hnodes
    · refine ⟨e.node, hmem e he', hid.symm, ?_⟩
      refine Bool.eq_false_iff.2 fun hout => hthrows ?_
      exact hq.throws e.step (List.mem_map_of_mem he') hout
  · rw [he.loopHeads_eq] at hx
    exact (hs.loopHeads x hx).mono hnodes

/-- The first node that came in between two states is no actual-out. -/
def Begins (s s' : Lowering) : Prop :=
  ∀ node, s'.graph.nodes[s.graph.size]? = some node → node.kind.isActualOut = false

theorem Begins.refl (s : Lowering) : Begins s s := by
  intro node hnode
  simp [size] at hnode

theorem Begins.of_nodes (hst : Begins s t) (hn : u.graph.nodes = t.graph.nodes) : Begins s u := by
  intro node hnode
  exact hst node (hn ▸ hnode)

/-- The first new node is no actual-out. -/
theorem Begins.bare (hst : Begins s t) (hlt : s.graph.size < t.graph.size) :
    t.graph.Bare (t.graph.idAt s.graph.size) :=
  ⟨_, List.mem_of_getElem? (nodeAt_eq hlt), rfl, hst _ (nodeAt_eq hlt)⟩

/-- What comes in between begins as its first part does. -/
theorem Begins.trans (hst : Begins s t) (htu : Begins t u) (hs : s.graph.nodes <+: t.graph.nodes)
    (ht : t.graph.nodes <+: u.graph.nodes) : Begins s u := by
  intro node hnode
  have hsize : s.graph.size ≤ t.graph.size := hs.length_le
  rcases Nat.lt_or_eq_of_le hsize with hlt | heq
  · refine hst node ?_
    obtain ⟨rest, hrest⟩ := ht
    rwa [← hrest, List.getElem?_append_left hlt] at hnode
  · exact htu node (heq ▸ hnode)

theorem bare_plain {g : FlowGraph} {kind : FlowKind} (hid : g.Bare id) :
    ∀ p ∈ [Pending.plain id kind], g.Bare p.source := by
  intro p hp
  rw [List.mem_singleton.1 hp]
  exact hid

section Constructs

variable {point : Point} {effects : Effects}

/-- A construct starts and ends with nodes that are no actual-outs, and leaves nothing behind those.
    -/
theorem Constructs.clear (hc : Constructs h s point effects head id t) (hs : Clear s)
    (hp : ∀ p ∈ s.pending, s.graph.Bare p.source) (hpoint : point.kind.isActualOut = false) :
    Clear t ∧ t.graph.Bare head ∧ t.graph.Bare id ∧ Begins s t := by
  obtain ⟨es, he, hsteps, hhead, hid⟩ := hc
  have hq : Quiet (es.map Emission.step) := hsteps ▸ quiet_steps h effects hpoint
  have hmem (e : Emission) (he' : e ∈ es) : e.node ∈ t.graph.nodes :=
    he.nodes_eq ▸ List.mem_append_right _ (List.mem_map_of_mem he')
  obtain ⟨e, he', rfl⟩ := Option.map_eq_some_iff.1 hhead
  obtain ⟨e₁, he₁, rfl⟩ := Option.map_eq_some_iff.1 hid
  have hfirst : e.node.kind.isActualOut = false := hq.first e.step (by rw [List.head?_map, he']; rfl)
  refine ⟨he.clear hs hp hq, ⟨e.node, hmem e (List.mem_of_mem_head? he'), rfl, hfirst⟩,
    ⟨e₁.node, hmem e₁ (List.mem_of_getLast? he₁), rfl, ?_⟩, fun node hnode => ?_⟩
  · have hlast : (es.map Emission.step).getLast? = some ⟨point, effects.throws⟩ := by
      rw [hsteps, Effects.steps, List.getLast?_append]
      rfl
    rw [List.getLast?_map, he₁] at hlast
    rw [← congrArg (fun step => step.point.kind) (Option.some.inj hlast)] at hpoint
    exact hpoint
  · rw [he.nodes_eq, size, List.getElem?_append_right (Nat.le_refl _), Nat.sub_self, ← List.head?_eq_getElem?,
      List.head?_map, he'] at hnode
    rwa [← Option.some.inj hnode]

theorem Constructs.pending_bare (hc : Constructs h s point effects head id t) (hid : t.graph.Bare id) :
    ∀ p ∈ t.pending, t.graph.Bare p.source := by
  rw [hc.pending_eq]
  exact bare_plain hid

end Constructs

/-! ## Derivations -/

/-- A part can be lowered: what it starts from and leads back to is no actual-out. -/
structure Fed (part : Part) (s : Lowering) : Prop where
  clear : Clear s
  inputs : ∀ p ∈ part.inputs s, s.graph.Bare p.source
  heads : ∀ id, part.heads id → s.graph.Bare id

/-- What a part ends in, and where it begins, is no actual-out. -/
structure Kept (part : Part) (s s' : Lowering) : Prop where
  clear : Clear s'
  outputs : ∀ p ∈ part.outputs s', s'.graph.Bare p.source
  begins : Begins s s'

/-- A block can be lowered from arcs that start at no actual-outs. -/
theorem Fed.block {stmts : List Stmt} (hs : Clear s) (hps : ∀ p ∈ ps, s.graph.Bare p.source) :
    Fed (.block stmts) (s.withPending ps) :=
  ⟨hs.withPending ps, hps, fun _ hf => hf.elim⟩

theorem Fed.from_bare {part : Part} (hf : Fed part s) (hid : From (part.inputs s) id) :
    s.graph.Bare id := by
  obtain ⟨p, hp, rfl⟩ := hid
  exact hf.inputs p hp

/-- Cases are entered from the selector or from what falls through. -/
theorem cases_bare {source : Element} {selector : NodeId} {cases : List (SwitchCase Stmt)}
    (hps : ∀ p ∈ ps, s.graph.Bare p.source) (hid : s.graph.Bare selector) :
    ∀ p ∈ Part.inputs s (.cases source selector ps cases), s.graph.Bare p.source := by
  intro p hp
  rcases List.mem_append.1 hp with hp | hp
  · exact hps p hp
  · rw [selector_mem hp]
    exact hid

/-- The body of a loop, and what its next round starts from. -/
theorem loop_clear {body : List Stmt} (hs : Clear s) (hps : ∀ p ∈ ps, s.graph.Bare p.source)
    (ih : Fed (.block body) ((s.withPending ps).entered (.loop [] [])) →
      Kept (.block body) ((s.withPending ps).entered (.loop [] [])) t) :
    Clear t.left ∧ (∀ p ∈ t.innermost.breaks, t.graph.Bare p.source) ∧
      (∀ p ∈ t.pending ++ t.innermost.continues, t.graph.Bare p.source) ∧ Begins s t := by
  have hk := ih ⟨(hs.withPending ps).entered nofun, hps, fun _ hf => hf.elim⟩
  refine ⟨hk.clear.left, fun p hp => ?_, fun p hp => ?_, hk.begins⟩
  · exact hk.clear.innermost p (Scope.breaks_subset _ hp)
  · rcases List.mem_append.1 hp with hp | hp
    · exact hk.outputs p hp
    · exact hk.clear.innermost p (Scope.continues_subset _ hp)

/-- The test of a loop and its rounds, behind what the loop starts with. -/
theorem rounds_clear {point : Point} {effects : Effects} {init body update : List Stmt}
    {enter : FlowKind} {breaks : List Pending} (hk : Kept (.block init) s t)
    (hl : Lowered h (.block init) s t) (hc : Constructs h t point effects head id u)
    (hpoint : point.kind.isActualOut = false)
    (hl' : Lowered h (.rounds id head enter body update breaks) u v)
    (ih : Fed (.rounds id head enter body update breaks) u →
      Kept (.rounds id head enter body update breaks) u v) :
    Kept (.rounds id head enter body update breaks) u v ∧ v.graph.Bare head ∧ v.graph.Bare id ∧
      Begins s v := by
  obtain ⟨hclear, hhead, hid, hbegins⟩ := hc.clear hk.clear hk.outputs hpoint
  have hk' := ih ⟨hclear, bare_plain hid, fun _ heq => heq ▸ hhead⟩
  have hbegins' := hk.begins.trans hbegins hl.nodes hc.nodes.1
  exact ⟨hk', hhead.mono hl'.nodes, hid.mono hl'.nodes,
    hbegins'.trans hk'.begins (hl.nodes.trans hc.nodes.1) hl'.nodes⟩

/-- The body of a loop and the test behind it. -/
theorem footed_clear {source : Element} {body : List Stmt} {cond : Effects} (hs : Clear s)
    (hp : ∀ p ∈ s.pending, s.graph.Bare p.source)
    (hl : Lowered h (.block body) (s.entered (.loop [] [])) t)
    (hc : Constructs h (t.left.withPending (t.pending ++ t.innermost.continues))
      ⟨.predicate, some source.id⟩ cond head id u)
    (ih : Fed (.block body) (s.entered (.loop [] [])) →
      Kept (.block body) (s.entered (.loop [] [])) t) :
    Kept (.stmt (.doWhile source body cond)) s
      ((u.closed (if s.graph.size < t.graph.size then u.graph.idAt s.graph.size else head)
        [.plain id .loopBack]).withPending (.plain id .falseBranch :: t.innermost.breaks)) := by
  obtain ⟨hclear, hbreaks, hnext, hbegins⟩ := loop_clear hs hp ih
  obtain ⟨hclear', hhead, hid, hbegins'⟩ := hc.clear (hclear.withPending _) hnext rfl
  have hbegins'' := hbegins.trans hbegins' hl.nodes hc.nodes.1
  refine ⟨(hclear'.closed [.plain _ .loopBack] ?_ (bare_plain hid)).withPending _, fun p hp => ?_,
    hbegins''.of_nodes (closed_nodes _ _ _)⟩
  · -- it leads back to the first node of the body, or of its own test
    split
    · rename_i hlt
      exact hbegins''.bare (Nat.lt_trans hlt hc.nodes.2)
    · exact hhead
  · refine FlowGraph.Bare.mono ?_ (closed_graph _ _ _).nodes
    rcases List.mem_cons.1 hp with rfl | hp
    exacts [hid, (hbreaks p hp).mono hc.nodes.1]

/-- What leads out of a `switch`. -/
theorem select_outputs {source : Element} {selector : NodeId} {cases : List (SwitchCase Stmt)}
    (hk : Kept (.cases source selector [] cases) s t) (hid : t.graph.Bare selector) :
    ∀ p ∈ t.pending ++ t.innermost.breaks ++ skipArcs selector cases, t.graph.Bare p.source := by
  simp only [List.forall_mem_append]
  refine ⟨⟨hk.outputs, fun p hp => hk.clear.innermost p (Scope.breaks_subset _ hp)⟩, fun p hp => ?_⟩
  rw [eq_of_mem_skipArcs hp]
  exact hid

/-- The body and the handlers of a `try`. -/
theorem try_clear {body : List Stmt} {catches : List (CatchClause Stmt)} {hasFinalizer : Bool}
    {after : List Pending} (hs : Clear s) (hp : ∀ p ∈ s.pending, s.graph.Bare p.source)
    (hl₁ : Lowered h (.block body) (s.entered (tryScope catches hasFinalizer)) t)
    (hl₂ : Lowered h (.catches t.innermost.handlers catches after)
      ((t.left.withPending []).entered t.innermost.withoutHandlers) u)
    (ih₁ : Fed (.block body) (s.entered (tryScope catches hasFinalizer)) →
      Kept (.block body) (s.entered (tryScope catches hasFinalizer)) t)
    (ih₂ : Fed (.catches t.innermost.handlers catches after)
        ((t.left.withPending []).entered t.innermost.withoutHandlers) →
      Kept (.catches t.innermost.handlers catches after)
        ((t.left.withPending []).entered t.innermost.withoutHandlers) u) :
    Clear u.left ∧ (∀ p ∈ t.pending ++ after, u.graph.Bare p.source) ∧
      (∀ e ∈ u.innermost.escapes, u.graph.Bare e.1.source) ∧ Begins s u := by
  have hnodes : t.graph.nodes <+: u.graph.nodes := hl₂.nodes
  have hk₁ := ih₁ ⟨hs.entered (by simp [tryScope, Scope.waiting]), hp, fun _ hf => hf.elim⟩
  have hk₂ := ih₂ ⟨(hk₁.clear.left.withPending []).entered fun p hp =>
      hk₁.clear.innermost p (Scope.withoutHandlers_subset _ hp),
    fun p hp => hk₁.clear.innermost p (Scope.incoming_subset _ hp), fun _ hf => hf.elim⟩
  refine ⟨hk₂.clear.left, fun p hp => ?_, fun e he => ?_, hk₁.begins.trans hk₂.begins hl₁.nodes hl₂.nodes⟩
  · rcases List.mem_append.1 hp with hp | hp
    · exact (hk₁.outputs p hp).mono hnodes
    · exact hk₂.outputs p hp
  · exact hk₂.clear.innermost e.1 (Scope.escapes_subset _ (List.mem_map_of_mem he))

/-- What a `finally` block starts from. -/
theorem finalizer_bare {g : FlowGraph} {normal : List Pending} {escapes : List (Pending × Escape)}
    (hnormal : ∀ p ∈ normal, g.Bare p.source) (hescapes : ∀ e ∈ escapes, g.Bare e.1.source) :
    ∀ p ∈ normal ++ escapes.map (·.1), g.Bare p.source :=
  List.forall_mem_append.2 ⟨hnormal, List.forall_mem_map.2 hescapes⟩

/-- Lowering keeps control away from actual-outs but for the lines of their calls. -/
theorem Lowered.clear {part : Part} (hl : Lowered h part s s') (hf : Fed part s) : Kept part s s' := by
  -- along the derivation: each part is fed with what the parts before it ended in
  induction hl with
  | skip _ _ => exact ⟨hf.clear.skipped _, hf.inputs, .refl _⟩
  | simple _ _ hc =>
    obtain ⟨hclear, -, hid, hbegins⟩ := hc.clear hf.clear hf.inputs rfl
    exact ⟨hclear, hc.pending_bare hid, hbegins⟩
  | branch _ _ hc hl₁ hl₂ ih₁ ih₂ =>
    obtain ⟨hclear, -, hid, hbegins⟩ := hc.clear hf.clear hf.inputs rfl
    have hk₁ := ih₁ (.block hclear (bare_plain hid))
    have hk₂ := ih₂ (.block hk₁.clear (bare_plain (hid.mono hl₁.nodes)))
    have hthen (p : Pending) (hp : p ∈ _) := (hk₁.outputs p hp).mono hl₂.nodes
    exact ⟨hk₂.clear.withPending _, List.forall_mem_append.2 ⟨hk₂.outputs, hthen⟩,
      (hbegins.trans hk₁.begins hc.nodes.1 hl₁.nodes).trans hk₂.begins (hc.nodes.1.trans hl₁.nodes)
        hl₂.nodes⟩
  | loopUnentered _ _ _ _ _ ih =>
    have hk := ih ⟨hf.clear, hf.inputs, fun _ hf => hf.elim⟩
    exact ⟨hk.clear, hk.outputs, hk.begins⟩
  | tested _ _ _ _ hl₁ _ hc hl₂ ih₁ ih₂ =>
    have hk := ih₁ ⟨hf.clear, hf.inputs, fun _ hf => hf.elim⟩
    obtain ⟨hk', -, hid, hbegins⟩ := rounds_clear hk hl₁ hc rfl hl₂ ih₂
    exact ⟨hk'.clear.withPending _, List.forall_mem_append.2 ⟨hk'.outputs, bare_plain hid⟩, hbegins⟩
  | endless _ _ _ _ hl₁ _ hc hl₂ ih₁ ih₂ =>
    have hk := ih₁ ⟨hf.clear, hf.inputs, fun _ hf => hf.elim⟩
    obtain ⟨hk', hhead, -, hbegins⟩ := rounds_clear hk hl₁ hc rfl hl₂ ih₂
    split
    · exact ⟨hk'.clear.withLoopHead hhead, hk'.outputs, hbegins⟩
    · exact ⟨hk'.clear, hk'.outputs, hbegins⟩
  | rounds _ hl₁ hl₂ ih₁ ih₂ =>
    obtain ⟨hclear, hbreaks, hnext, hbegins⟩ := loop_clear hf.clear hf.inputs ih₁
    have hk := ih₂ ⟨hclear.withPending _, hnext, fun _ hf => hf.elim⟩
    have hhead := ((hf.heads _ rfl).mono hl₁.nodes).mono hl₂.nodes
    refine ⟨((hk.clear.withPending []).closed _ hhead hk.outputs).withPending _, fun p hp => ?_, ?_⟩
    · exact ((hbreaks p hp).mono hl₂.nodes).mono (closed_graph _ _ _).nodes
    · exact (hbegins.trans hk.begins hl₁.nodes hl₂.nodes).of_nodes (closed_nodes _ _ _)
  | updateUnentered _ _ => exact ⟨hf.clear, hf.inputs, .refl _⟩
  | update _ _ _ ih =>
    have hk := ih ⟨hf.clear, hf.inputs, fun _ hf => hf.elim⟩
    exact ⟨hk.clear, hk.outputs, hk.begins⟩
  | footless _ _ hl _ ih =>
    obtain ⟨hclear, hbreaks, -, hbegins⟩ := loop_clear hf.clear hf.inputs ih
    exact ⟨((hclear.withPending _).skipped _).withPending _, hbreaks, hbegins⟩
  | footed _ _ hl _ hc ih => exact footed_clear hf.clear hf.inputs hl hc ih
  | select _ _ hc hl ih =>
    obtain ⟨hclear, -, hid, hbegins⟩ := hc.clear hf.clear hf.inputs rfl
    have hk := ih ⟨hclear.entered nofun, cases_bare nofun hid, fun _ hf => hf.elim⟩
    exact ⟨hk.clear.left.withPending _, select_outputs hk (hid.mono hl.nodes),
      hbegins.trans hk.begins hc.nodes.1 hl.nodes⟩
  | casesEnd _ =>
    exact ⟨hf.clear.withPending _, fun p hp => hf.inputs p (List.mem_append_left _ hp), .refl _⟩
  | case _ hc hl₁ hl₂ ih₁ ih₂ =>
    obtain ⟨hclear, hhead, -, hbegins⟩ := hc.clear (hf.clear.withPending _)
      (fun p hp => hf.from_bare (caseFrontier_from hp)) rfl
    have hk₁ := ih₁ ⟨hclear, hc.pending_bare hhead, fun _ hf => hf.elim⟩
    have hnodes := hc.nodes.1.trans hl₁.nodes
    have hk₂ := ih₂ ⟨hk₁.clear.withPending _,
      cases_bare hk₁.outputs ((hf.from_bare (selector_from (p := .plain _ .unconditional) rfl)).mono hnodes),
      fun _ hf => hf.elim⟩
    exact ⟨hk₂.clear, hk₂.outputs,
      (hbegins.trans hk₁.begins hc.nodes.1 hl₁.nodes).trans hk₂.begins hnodes hl₂.nodes⟩
  | jump _ _ hj hc =>
    obtain ⟨hclear, -, hid, hbegins⟩ := hc.clear hf.clear hf.inputs (Stmt.kind_of_jump hj)
    exact ⟨(hclear.withPending []).sent (p := ⟨_, _⟩) hid _, nofun, hbegins⟩
  | tryPlain _ _ hl₁ hl₂ ih₁ ih₂ =>
    obtain ⟨hclear, hnormal, -, hbegins⟩ := try_clear hf.clear hf.inputs hl₁ hl₂ ih₁ ih₂
    exact ⟨hclear.withPending _, hnormal, hbegins⟩
  | tryNodeless _ _ hl₁ hl₂ hl₃ _ ih₁ ih₂ ih₃ =>
    obtain ⟨hclear, hnormal, hescapes, hbegins⟩ := try_clear hf.clear hf.inputs hl₁ hl₂ ih₁ ih₂
    have hk := ih₃ (.block hclear (finalizer_bare hnormal hescapes))
    refine ⟨(hk.clear.withPending _).sentAll fun e he => (hescapes e he).mono hl₃.nodes, fun p hp => ?_, ?_⟩
    · rw [sentAll_graph]
      exact hk.outputs p (pending_of_nodeless hp)
    · refine (hbegins.trans hk.begins (hl₁.nodes.trans hl₂.nodes) hl₃.nodes).of_nodes ?_
      rw [sentAll_graph]
      rfl
  | tryFinally _ _ hl₁ hl₂ hl₃ _ ih₁ ih₂ ih₃ =>
    obtain ⟨hclear, hnormal, hescapes, hbegins⟩ := try_clear hf.clear hf.inputs hl₁ hl₂ ih₁ ih₂
    have hk := ih₃ (.block hclear (finalizer_bare hnormal hescapes))
    refine ⟨(hk.clear.withPending _).sentAll fun e he => ?_, fun p hp => ?_, ?_⟩
    · obtain ⟨-, tail, htail, heq⟩ := mem_redirected he
      rw [heq]
      exact hk.outputs tail htail
    · rw [sentAll_graph]
      exact hk.outputs p (pending_of_finally hp)
    · refine (hbegins.trans hk.begins (hl₁.nodes.trans hl₂.nodes) hl₃.nodes).of_nodes ?_
      rw [sentAll_graph]
      rfl
  | catchesEnd _ => exact ⟨hf.clear, nofun, .refl _⟩
  | catchesUnhandled _ => exact ⟨hf.clear, nofun, .refl _⟩
  | catchUnentered _ _ _ ih =>
    have hk := ih ⟨hf.clear.skipped _, fun p hp => hf.inputs p (List.mem_append_right _ hp),
      fun _ hf => hf.elim⟩
    exact ⟨hk.clear, hk.outputs, hk.begins⟩
  | «catch» _ _ hc hl₁ hl₂ ih₁ ih₂ =>
    obtain ⟨hclear, hhead, -, hbegins⟩ := hc.clear (hf.clear.withPending _)
      (fun p hp => hf.inputs p (List.mem_append_left _ hp)) rfl
    have hk₁ := ih₁ ⟨hclear, hc.pending_bare hhead, fun _ hf => hf.elim⟩
    have hnodes := hc.nodes.1.trans hl₁.nodes
    have hk₂ := ih₂ ⟨hk₁.clear.withPending _, fun p hp =>
      (hf.inputs p (List.mem_append_right _ hp)).mono hnodes, fun _ hf => hf.elim⟩
    refine ⟨hk₂.clear, fun p hp => ?_,
      (hbegins.trans hk₁.begins hc.nodes.1 hl₁.nodes).trans hk₂.begins hnodes hl₂.nodes⟩
    rcases List.mem_append.1 hp with hp | hp
    exacts [(hk₁.outputs p hp).mono hl₂.nodes, hk₂.outputs p hp]
  | nested _ _ _ ih =>
    have hk := ih ⟨hf.clear, hf.inputs, fun _ hf => hf.elim⟩
    exact ⟨hk.clear, hk.outputs, hk.begins⟩
  | blockEnd _ => exact ⟨hf.clear, hf.inputs, .refl _⟩
  | blockNext _ hl₁ hl₂ ih₁ ih₂ =>
    have hk₁ := ih₁ ⟨hf.clear, hf.inputs, fun _ hf => hf.elim⟩
    have hk₂ := ih₂ ⟨hk₁.clear, hk₁.outputs, fun _ hf => hf.elim⟩
    exact ⟨hk₂.clear, hk₂.outputs, hk₁.begins.trans hk₂.begins hl₁.nodes hl₂.nodes⟩

end Lowering

end Slicing
