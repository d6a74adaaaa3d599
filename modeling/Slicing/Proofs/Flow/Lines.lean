import Slicing.Proofs.Flow.Steps

/-!
# Straight lines of nodes

The nodes of a construct that evaluates calls are a straight line: `Emits` places them
one after another, each with a number of its own and with what it may raise, and
`Constructs` says that they stand for the steps of the construct. A call is recorded
with the nodes that were placed for it (`Records`).
-/

namespace Slicing

/-- A node that is placed, and the exceptions that it may raise. -/
structure Emission where
  node : Node
  throws : List String

/-- The step of an execution that a placed node stands for. -/
def Emission.step (e : Emission) : PointStep := ⟨e.node.point, e.throws⟩

/-- A node was placed for a value that comes back from a call. -/
def Emission.IsOut (site : CallSiteId) (e : Emission) (out : OutputSlot × NodeId) : Prop :=
  e.node.id = out.2 ∧ e.step = ⟨⟨.actualOut site out.1, none⟩, []⟩

/-- A node was placed for the argument of a call at a position. -/
def IsIn (es : List Emission) (site : CallSiteId) (id : NodeId) (position : Nat) : Prop :=
  ∃ e ∈ es, e.node.id = id ∧ e.node.kind = .actualIn site position

/-- The nodes recorded for a call are among those placed: the call and its actual-outs
    stand last, one behind the other. -/
structure Records (h : Hierarchy) (es : List Emission) (r : CallSiteNodes) : Prop where
  line : ∃ before call outs, es = before ++ call :: outs ∧ call.node.id = r.callNode ∧
    call.node.kind = .call r.site.id ∧ call.node.uses = [] ∧
    List.Forall₂ (Emission.IsOut r.site.id) outs r.actualOuts
  ins : List.Forall₂ (IsIn es r.site.id) r.actualIns (List.range' 0 r.site.args.length)
  slots : r.actualOuts.map (·.1) = r.site.outputs h

theorem IsIn.mono {es es' : List Emission} (hes : es ⊆ es') {site : CallSiteId} {id : NodeId}
    {position : Nat} (hid : IsIn es site id position) : IsIn es' site id position :=
  let ⟨e, he, hid⟩ := hid
  ⟨e, hes he, hid⟩

/-- A recorded call is recorded behind other nodes as well. -/
theorem Records.prepend {h : Hierarchy} {es es' : List Emission} {r : CallSiteNodes}
    (hr : Records h es' r) : Records h (es ++ es') r := by
  obtain ⟨before, call, outs, rfl, hcall⟩ := hr.line
  exact ⟨⟨es ++ before, call, outs, by simp, hcall⟩,
    hr.ins.imp fun _ _ => IsIn.mono (List.subset_append_right _ _), hr.slots⟩

namespace Lowering

variable {h : Hierarchy} {s s' t u : Lowering}

/-- The numbers of the nodes are in use. -/
def Below (s : Lowering) : Prop := ∀ id ∈ s.graph.ids, id.number < s.nextId

/-- Nodes placed one behind the other, with what they may raise. -/
inductive Emits (h : Hierarchy) (s : Lowering) : List Emission → Lowering → Prop
  | done : Emits h s [] s
  | number {es : List Emission} {t : Lowering} : Emits h s es t → Emits h s es t.numbered
  | record {es : List Emission} {t : Lowering} {r : CallSiteNodes} :
      Emits h s es t → Records h es r → Emits h s es (t.recorded r)
  | node {es : List Emission} {t : Lowering} {e : Emission} :
      Emits h s es t → s.nextId ≤ e.node.id.number → e.node.id.number < t.nextId →
        e.node.id ∉ t.graph.ids → e.node.callable = s.graph.callable →
        Emits h s (es ++ [e]) ((t.placed e.node).sentAll h (raises e.node.id e.throws))

/-! ## Placing -/

section Placing

variable {node : Node} {edge : Pending → FlowEdge} {ps : List Pending} {id : NodeId}

@[simp]
theorem foldl_addArc_nodes (g : FlowGraph) (f : FlowGraph → Pending → NodeId × NodeId × FlowEdge) :
    (ps.foldl (fun g p => g.addArc (f g p).1 (f g p).2.1 (f g p).2.2) g).nodes = g.nodes := by
  induction ps generalizing g with
  | nil => rfl
  | cons p ps ih => rw [List.foldl_cons, ih, FlowGraph.nodes_addArc]

@[simp]
theorem foldl_addArc_callable (g : FlowGraph)
    (f : FlowGraph → Pending → NodeId × NodeId × FlowEdge) :
    (ps.foldl (fun g p => g.addArc (f g p).1 (f g p).2.1 (f g p).2.2) g).callable = g.callable := by
  induction ps generalizing g with
  | nil => rfl
  | cons p ps ih =>
    rw [List.foldl_cons, ih, FlowGraph.addArc]
    split <;> rfl

@[simp]
theorem placed_nodes (s : Lowering) (node : Node) :
    (s.placed node).graph.nodes = s.graph.nodes ++ [node] := by
  rw [placed, ← FlowGraph.nodes_addNode]
  exact foldl_addArc_nodes _ fun _ p => (p.source, node.id, p.edge)

@[simp]
theorem placed_ids (s : Lowering) (node : Node) :
    (s.placed node).graph.ids = s.graph.ids ++ [node.id] := by
  simp [FlowGraph.ids]

@[simp]
theorem placed_callable (s : Lowering) (node : Node) :
    (s.placed node).graph.callable = s.graph.callable :=
  foldl_addArc_callable (s.graph.addNode node) fun _ p => (p.source, node.id, p.edge)

@[simp]
theorem placed_size (s : Lowering) (node : Node) :
    (s.placed node).graph.size = s.graph.size + 1 := by
  simp [FlowGraph.size]

@[simp]
theorem closed_nodes (s : Lowering) (head : NodeId) (tails : List Pending) :
    (s.closed head tails).graph.nodes = s.graph.nodes :=
  foldl_addArc_nodes _ fun _ p => (p.source, head, backEdge p.edge)

@[simp]
theorem closed_ids (s : Lowering) (head : NodeId) (tails : List Pending) :
    (s.closed head tails).graph.ids = s.graph.ids := by
  simp [FlowGraph.ids]

@[simp]
theorem closed_size (s : Lowering) (head : NodeId) (tails : List Pending) :
    (s.closed head tails).graph.size = s.graph.size := by
  simp [FlowGraph.size]

@[simp]
theorem foldl_addArc_unreachable (g : FlowGraph) (f : FlowGraph → Pending → NodeId × NodeId × FlowEdge) :
    (ps.foldl (fun g p => g.addArc (f g p).1 (f g p).2.1 (f g p).2.2) g).unreachable =
      g.unreachable := by
  induction ps generalizing g with
  | nil => rfl
  | cons p ps ih =>
    rw [List.foldl_cons, ih, FlowGraph.addArc]
    split <;> rfl

@[simp]
theorem placed_unreachable (s : Lowering) (node : Node) :
    (s.placed node).graph.unreachable = s.graph.unreachable :=
  foldl_addArc_unreachable (s.graph.addNode node) fun _ p => (p.source, node.id, p.edge)

@[simp]
theorem closed_unreachable (s : Lowering) (head : NodeId) (tails : List Pending) :
    (s.closed head tails).graph.unreachable = s.graph.unreachable :=
  foldl_addArc_unreachable s.graph fun _ p => (p.source, head, backEdge p.edge)

@[simp]
theorem recorded_nodes (s : Lowering) (r : CallSiteNodes) :
    (s.recorded r).graph.nodes = s.graph.nodes := rfl

@[simp]
theorem recorded_ids (s : Lowering) (r : CallSiteNodes) :
    (s.recorded r).graph.ids = s.graph.ids := rfl

@[simp]
theorem skipped_nodes (s : Lowering) (element : ElementId) :
    (s.skipped element).graph.nodes = s.graph.nodes := rfl

@[simp]
theorem skipped_ids (s : Lowering) (element : ElementId) :
    (s.skipped element).graph.ids = s.graph.ids := rfl

@[simp]
theorem skipped_size (s : Lowering) (element : ElementId) :
    (s.skipped element).graph.size = s.graph.size := rfl

end Placing

/-! ## Straight lines -/

namespace Emits

variable {es es' : List Emission}

theorem nextId_le (he : Emits h s es t) : s.nextId ≤ t.nextId := by
  induction he with
  | done => exact Nat.le_refl _
  | number _ ih => rw [numbered_nextId]; omega
  | record _ _ ih => exact ih
  | node _ _ _ _ _ ih => simpa using ih

/-- The nodes of a line are added behind the others. -/
theorem nodes_eq (he : Emits h s es t) : t.graph.nodes = s.graph.nodes ++ es.map (·.node) := by
  induction he with
  | done => simp
  | number _ ih => exact ih
  | record _ _ ih => exact ih
  | node _ _ _ _ _ ih => simp [ih]

/-- The numbers of a line of nodes are added behind the others. -/
theorem ids_eq (he : Emits h s es t) : t.graph.ids = s.graph.ids ++ es.map (·.node.id) := by
  simp [FlowGraph.ids, he.nodes_eq]

theorem callable_eq (he : Emits h s es t) : t.graph.callable = s.graph.callable := by
  induction he with
  | done => rfl
  | number _ ih => exact ih
  | record _ _ ih => exact ih
  | node _ _ _ _ _ ih => simp [ih]

/-- Nothing is reported along a line of nodes. -/
theorem unreachable_eq (he : Emits h s es t) : t.graph.unreachable = s.graph.unreachable := by
  induction he with
  | done => rfl
  | number _ ih => exact ih
  | record _ _ ih => exact ih
  | node _ _ _ _ _ ih => simpa using ih

/-- A line behind another one. -/
theorem trans (he : Emits h s es t) (he' : Emits h t es' u) : Emits h s (es ++ es') u := by
  induction he' with
  | done => simpa using he
  | number _ ih => exact .number ih
  | record _ hr ih => exact .record ih hr.prepend
  | node _ hle hlt hid hcallable ih =>
    rw [← List.append_assoc]
    exact .node ih (Nat.le_trans he.nextId_le hle) hlt hid (hcallable.trans he.callable_eq)

/-- The numbers of the nodes stay in use along a line. -/
theorem keepsBelow (he : Emits h s es t) (hs : s.Below) : t.Below := by
  induction he with
  | done => exact hs
  | number _ ih => exact fun id hid => Nat.lt_succ_of_lt (ih id hid)
  | record _ _ ih => exact ih
  | node _ _ hlt _ _ ih =>
    intro id hid
    simp only [sentAll_graph, placed_ids, List.mem_append, List.mem_singleton] at hid
    simp only [sentAll_nextId, placed_nextId]
    rcases hid with hid | rfl
    exacts [ih id hid, hlt]

/-- No number is given to two nodes along a line. -/
theorem nodup (he : Emits h s es t) (hs : s.graph.ids.Nodup) : t.graph.ids.Nodup := by
  induction he with
  | done => exact hs
  | number _ ih => exact ih
  | record _ _ ih => exact ih
  | node _ _ _ hid _ ih =>
    rw [sentAll_graph, placed_ids]
    refine List.nodup_append.2 ⟨ih, List.nodup_singleton _, fun a ha b hb heq => hid ?_⟩
    rwa [← List.mem_singleton.1 hb, ← heq]

/-- The nodes of a line have new numbers. -/
theorem le_of_mem (he : Emits h s es t) : ∀ e ∈ es, s.nextId ≤ e.node.id.number := by
  induction he with
  | done => simp
  | number _ ih => exact ih
  | record _ _ ih => exact ih
  | node _ hle _ _ _ ih =>
    intro e he
    rcases List.mem_append.1 he with he | he
    · exact ih e he
    · rwa [List.mem_singleton.1 he]

/-- The nodes of a line are nodes of the callable. -/
theorem callable_of_mem (he : Emits h s es t) : ∀ e ∈ es, e.node.callable = s.graph.callable := by
  induction he with
  | done => simp
  | number _ ih => exact ih
  | record _ _ ih => exact ih
  | node _ _ _ _ hcallable ih =>
    intro e he
    rcases List.mem_append.1 he with he | he
    · exact ih e he
    · rwa [List.mem_singleton.1 he]

/-- A node that is numbered before the nodes placed in front of it. -/
theorem reserved (hs : s.Below) (he : Emits h s.numbered es t) {e : Emission}
    (hid : e.node.id = ⟨s.nextId⟩) (hcallable : e.node.callable = s.graph.callable) :
    Emits h s (es ++ [e]) ((t.placed e.node).sentAll h (raises e.node.id e.throws)) := by
  have hle : s.nextId + 1 ≤ t.nextId := he.nextId_le
  refine .node (trans (.number .done) he) ?_ ?_ (fun hmem => ?_) hcallable
  · simp [hid]
  · rw [hid]
    exact hle
  · rw [he.ids_eq, hid] at hmem
    rcases List.mem_append.1 hmem with hmem | hmem
    · exact Nat.lt_irrefl _ (hs _ hmem)
    · obtain ⟨e', he', hid'⟩ := List.mem_map.1 hmem
      have := he.le_of_mem e' he'
      rw [hid'] at this
      exact Nat.not_succ_le_self _ this

/-- A node that is numbered just before it is placed. -/
theorem fresh (he : Emits h s es t) (hs : s.Below) {e : Emission} (hid : e.node.id = ⟨t.nextId⟩)
    (hcallable : e.node.callable = t.graph.callable) :
    Emits h s (es ++ [e]) ((t.numbered.placed e.node).sentAll h (raises e.node.id e.throws)) :=
  he.trans (reserved (he.keepsBelow hs) .done hid hcallable)

/-- The frontier behind a line is its last node. -/
theorem pending_eq (he : Emits h s es t) :
    t.pending = match es.getLast? with
      | some e => [.plain e.node.id .unconditional]
      | none => s.pending := by
  induction he with
  | done => rfl
  | number _ ih => exact ih
  | record _ _ ih => exact ih
  | node _ _ _ _ _ _ => simp

end Emits

/-! ## Constructs -/

/-- A construct is placed behind the calls it evaluates: where control enters it, its
    own node, and the state behind it. -/
def Constructs (h : Hierarchy) (s : Lowering) (point : Point) (effects : Effects)
    (head id : NodeId) (s' : Lowering) : Prop :=
  ∃ es, Emits h s es s' ∧ es.map Emission.step = effects.steps h point ∧
    es.head?.map (·.node.id) = some head ∧ es.getLast?.map (·.node.id) = some id

/-- Behind a construct its own node waits, for what comes next. -/
theorem Constructs.pending_eq {point : Point} {effects : Effects} {head id : NodeId}
    (hc : Constructs h s point effects head id s') :
    s'.pending = [.plain id .unconditional] := by
  obtain ⟨es, he, -, -, hlast⟩ := hc
  obtain ⟨e, he', rfl⟩ := Option.map_eq_some_iff.1 hlast
  rw [he.pending_eq, he']

theorem Constructs.keepsBelow {point : Point} {effects : Effects} {head id : NodeId}
    (hc : Constructs h s point effects head id s') (hs : s.Below) : s'.Below :=
  let ⟨_, he, _⟩ := hc
  he.keepsBelow hs

end Lowering

end Slicing
