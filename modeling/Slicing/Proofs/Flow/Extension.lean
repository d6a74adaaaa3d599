import Mathlib.Data.List.Chain
import Slicing.Proofs.Flow.Lines

/-!
# Extensions of states

Lowering only ever adds: nodes of its callable with new numbers, arcs, and ways out of
new nodes to the statements around (`Lowering.Extends`). An arc that is added starts at a new node
or at an old one with a given property, and likewise for where it leads. Each step of
lowering extends the states that the steps before it extended, and so does a straight
line of nodes (`Emits.extends`), along which each node leads to the next
(`Emits.chain`).
-/

namespace Slicing

/-! ## Arcs of a frontier -/

namespace FlowGraph

variable {g : FlowGraph}

/-- Arcs added between nodes stay in the range of positions. -/
theorem inRange_foldl_addArc (h : g.InRange) (target : NodeId) (f : FlowEdge → FlowEdge)
    (ps : List Pending) :
    (ps.foldl (fun g p => g.addArc p.source target (f p.edge)) g).InRange := by
  induction ps generalizing g with
  | nil => exact h
  | cons p ps ih => exact ih (h.addArc _ _ _)

/-- Arcs from some nodes to another one are added behind the edges there are. -/
theorem edges_foldl_addArc {target : NodeId} (ht : target ∈ g.ids) (f : FlowEdge → FlowEdge)
    {ps : List Pending} (hps : ∀ p ∈ ps, p.source ∈ g.ids) :
    (ps.foldl (fun g p => g.addArc p.source target (f p.edge)) g).edges =
      g.edges ++ ps.map fun p => (p.source, target, f p.edge) := by
  induction ps generalizing g with
  | nil => simp
  | cons p ps ih =>
    have hp := hps p List.mem_cons_self
    rw [List.foldl_cons, ih (by simpa using ht) fun q hq => by
      simpa using hps q (List.mem_cons_of_mem _ hq), edges_addArc hp ht]
    simp

/-- What lowering the body of a callable leaves alone. -/
structure SameFrame (g g' : FlowGraph) : Prop where
  callable : g'.callable = g.callable
  exitHead : g'.exitHead = g.exitHead
  formalIns : g'.formalIns = g.formalIns
  formalOuts : g'.formalOuts = g.formalOuts
  nonTerminating : g'.nonTerminating = g.nonTerminating

namespace SameFrame

variable {g' g'' : FlowGraph}

theorem refl (g : FlowGraph) : SameFrame g g := ⟨rfl, rfl, rfl, rfl, rfl⟩

theorem trans (h : SameFrame g g') (h' : SameFrame g' g'') : SameFrame g g'' :=
  ⟨h'.1.trans h.1, h'.2.trans h.2, h'.3.trans h.3, h'.4.trans h.4, h'.5.trans h.5⟩

theorem addNode (g : FlowGraph) (node : Node) : SameFrame g (g.addNode node) :=
  ⟨rfl, rfl, rfl, rfl, rfl⟩

theorem addArc (g : FlowGraph) (u v : NodeId) (edge : FlowEdge) :
    SameFrame g (g.addArc u v edge) := by
  unfold FlowGraph.addArc
  split
  exacts [⟨rfl, rfl, rfl, rfl, rfl⟩, refl g]

theorem foldl_addArc (g : FlowGraph) (target : NodeId) (f : FlowEdge → FlowEdge)
    (ps : List Pending) :
    SameFrame g (ps.foldl (fun g p => g.addArc p.source target (f p.edge)) g) := by
  induction ps generalizing g with
  | nil => exact refl g
  | cons p ps ih => exact (addArc g _ _ _).trans (ih _)

end SameFrame

end FlowGraph

namespace Lowering

variable {h : Hierarchy} {s s' t u : Lowering} {P Q H K : NodeId → Prop} {id : NodeId}
  {p : Pending}

/-- Arcs stay in the range of positions when a node is placed. -/
theorem placed_inRange (hs : s.graph.InRange) (node : Node) : (s.placed node).graph.InRange :=
  FlowGraph.inRange_foldl_addArc (hs.addNode node) node.id (fun edge => edge) s.pending

/-- A node that is placed is entered by what waits. -/
theorem placed_edges (hs : s.graph.InRange) (hp : ∀ p ∈ s.pending, p.source ∈ s.graph.ids)
    (node : Node) : (s.placed node).graph.edges =
      s.graph.edges ++ s.pending.map fun p => (p.source, node.id, p.edge) := by
  rw [← FlowGraph.edges_addNode hs node]
  refine FlowGraph.edges_foldl_addArc (by simp) (fun edge => edge) fun p hmem => ?_
  rw [FlowGraph.ids_addNode]
  exact List.mem_append_left _ (hp p hmem)

theorem placed_frame (s : Lowering) (node : Node) : s.graph.SameFrame (s.placed node).graph :=
  (FlowGraph.SameFrame.addNode s.graph node).trans
    (.foldl_addArc (s.graph.addNode node) node.id (fun edge => edge) s.pending)

theorem closed_inRange (hs : s.graph.InRange) (head : NodeId) (tails : List Pending) :
    (s.closed head tails).graph.InRange :=
  FlowGraph.inRange_foldl_addArc hs head backEdge tails

/-- A loop is closed by an edge from each of its tails to its head. -/
theorem closed_edges (head : NodeId) (tails : List Pending) (hhead : head ∈ s.graph.ids)
    (htails : ∀ p ∈ tails, p.source ∈ s.graph.ids) : (s.closed head tails).graph.edges =
      s.graph.edges ++ tails.map fun p => (p.source, head, backEdge p.edge) :=
  FlowGraph.edges_foldl_addArc hhead backEdge htails

/-! ## Extensions -/

/-- A node came in between two states. -/
def Made (s s' : Lowering) (id : NodeId) : Prop := id ∈ s'.graph.ids ∧ s.nextId ≤ id.number

/-- The graph is as it should be, and what waits for its target starts at nodes. -/
structure Sound (s : Lowering) : Prop where
  below : s.Below
  nodup : s.graph.ids.Nodup
  inRange : s.graph.InRange
  collected : ∀ p ∈ s.collected, p.source ∈ s.graph.ids
  loopHeads : ∀ head ∈ s.loopHeads, head ∈ s.graph.ids

/-- A state that came about from another by adding nodes of its callable, arcs and ways
    out. Arcs may start at old nodes with a property, from which all new nodes are
    reached, and lead to old nodes with another. -/
structure Extends (P H : NodeId → Prop) (s s' : Lowering) : Prop where
  sound : s'.Sound
  nextId : s.nextId ≤ s'.nextId
  nodes : s.graph.nodes <+: s'.graph.nodes
  frame : s.graph.SameFrame s'.graph
  fresh : ∀ id ∈ s'.graph.ids, id ∈ s.graph.ids ∨ s.nextId ≤ id.number
  owned : ∀ node ∈ s'.graph.nodes, node ∈ s.graph.nodes ∨ node.callable = s.graph.callable
  edges : Adds (fun e => (Made s s' e.1 ∨ P e.1) ∧ (Made s s' e.2.1 ∨ H e.2.1))
    s.graph.edges s'.graph.edges
  reached : ∀ id, Made s s' id → ∃ x, P x ∧ s'.graph.Leads x id
  scopes : List.Forall₂ (Scope.Grows fun p => Made s s' p.source) s.scopes s'.scopes
  returns : Adds (fun p => Made s s' p.source) s.returns s'.returns
  loopHeads : Adds (Made s s') s.loopHeads s'.loopHeads

theorem Made.mem (hm : Made s s' id) : id ∈ s'.graph.ids := hm.1

/-- A new node stays a new one while others are added. -/
theorem Made.of_nodes (hm : Made s t id) (hn : t.graph.nodes <+: u.graph.nodes) : Made s u id :=
  ⟨List.map_subset _ hn.subset hm.1, hm.2⟩

/-- A new node was not there before. -/
theorem Made.not_mem (hs : s.Below) (hm : Made s s' id) : id ∉ s.graph.ids :=
  fun hmem => Nat.lt_irrefl _ (Nat.lt_of_lt_of_le (hs id hmem) hm.2)

namespace Extends

/-- Nothing has been added. -/
theorem refl (P H : NodeId → Prop) (hs : s.Sound) : Extends P H s s where
  sound := hs
  nextId := Nat.le_refl _
  nodes := List.prefix_rfl
  frame := .refl _
  fresh _ hid := .inl hid
  owned _ hnode := .inl hnode
  edges := .refl _ _
  reached _ hm := (hm.not_mem hs.below hm.mem).elim
  scopes := List.forall₂_same.2 fun a _ => .refl _ a
  returns := .refl _ _
  loopHeads := .refl _ _

theorem graph (he : Extends P H s t) : s.graph.PartOf t.graph := ⟨he.nodes, he.edges.subset⟩

theorem ids_subset (he : Extends P H s t) : s.graph.ids ⊆ t.graph.ids :=
  List.map_subset _ he.nodes.subset

theorem made_of_left (he : Extends P H s t) (hm : Made t u id) : Made s u id :=
  ⟨hm.1, Nat.le_trans he.nextId hm.2⟩

theorem made_of_right (he : Extends P H t u) (hm : Made s t id) : Made s u id :=
  ⟨he.ids_subset hm.1, hm.2⟩

/-- Behind the old positions there are new nodes. -/
theorem made_idAt (he : Extends P H s t) {q : Nat} (hle : s.graph.size ≤ q)
    (hlt : q < t.graph.size) : Made s t (t.graph.idAt q) := by
  refine ⟨FlowGraph.idAt_mem hlt, ?_⟩
  rcases he.fresh _ (FlowGraph.idAt_mem hlt) with hold | hnew
  · obtain ⟨q', hq', heq⟩ := FlowGraph.exists_idAt_of_mem hold
    have hsize := he.graph.size_le
    rw [← he.graph.idAt_eq hq'] at heq
    have := FlowGraph.idAt_injective he.sound.nodup (by omega) hlt heq
    omega
  · exact hnew

/-- A node is an old one or came in between. -/
theorem mem_or_made (he : Extends P H s t) (hid : id ∈ t.graph.ids) :
    id ∈ s.graph.ids ∨ Made s t id :=
  (he.fresh id hid).imp_right fun hle => ⟨hid, hle⟩

/-- Extensions follow each other if the second one starts from what the first one made
    or could start from itself. -/
theorem trans (he : Extends P H s t) (he' : Extends Q K t u) (hQ : ∀ id, Q id → Made s t id ∨ P id)
    (hK : ∀ id, K id → Made s t id ∨ H id) : Extends P H s u where
  sound := he'.sound
  nextId := Nat.le_trans he.nextId he'.nextId
  nodes := he.nodes.trans he'.nodes
  frame := he.frame.trans he'.frame
  fresh id hid := (he'.fresh id hid).elim (he.fresh id) fun hle => .inr (Nat.le_trans he.nextId hle)
  owned node hnode := (he'.owned node hnode).elim (he.owned node) fun hcallable =>
    .inr (hcallable.trans he.frame.callable)
  edges := by
    refine (he.edges.imp fun e hmem => ?_).trans (he'.edges.imp fun e hmem => ?_)
    · exact ⟨hmem.1.imp_left he'.made_of_right, hmem.2.imp_left he'.made_of_right⟩
    · exact ⟨hmem.1.elim (fun hm => .inl (he.made_of_left hm)) fun hq =>
          (hQ _ hq).imp_left he'.made_of_right,
        hmem.2.elim (fun hm => .inl (he.made_of_left hm)) fun hk =>
          (hK _ hk).imp_left he'.made_of_right⟩
  reached id hm := by
    have hsub := he'.edges.subset
    rcases he'.mem_or_made hm.1 with hold | hnew
    · obtain ⟨x, hx, hleads⟩ := he.reached id ⟨hold, hm.2⟩
      exact ⟨x, hx, hleads.of_subset hsub⟩
    · obtain ⟨y, hy, hleads⟩ := he'.reached id hnew
      rcases hQ y hy with hmade | hP
      · obtain ⟨x, hx, hleads'⟩ := he.reached y hmade
        exact ⟨x, hx, (hleads'.of_subset hsub).trans hleads⟩
      · exact ⟨y, hP, hleads⟩
  scopes := forall₂_comp (fun _ _ _ => .trans)
    (he.scopes.imp fun _ _ => .imp fun _ => he'.made_of_right)
    (he'.scopes.imp fun _ _ => .imp fun _ => he.made_of_left)
  returns := (he.returns.imp fun _ => he'.made_of_right).trans
    (he'.returns.imp fun _ => he.made_of_left)
  loopHeads := (he.loopHeads.imp fun _ => he'.made_of_right).trans
    (he'.loopHeads.imp fun _ => he.made_of_left)

/-- Arcs may start at and lead to more old nodes. -/
theorem imp (hP : ∀ id, P id → Q id) (hH : ∀ id, H id → K id) (he : Extends P H s t) :
    Extends Q K s t :=
  { he with
    edges := he.edges.imp fun _ hmem => ⟨hmem.1.imp_right (hP _), hmem.2.imp_right (hH _)⟩
    reached := fun id hm => (he.reached id hm).imp fun x hx => ⟨hP x hx.1, hx.2⟩ }

/-! ### Single steps -/

/-- What waits may be exchanged in the end. -/
theorem withPending (he : Extends P H s t) (ps : List Pending) :
    Extends P H s (t.withPending ps) where
  sound := ⟨he.sound.below, he.sound.nodup, he.sound.inRange, he.sound.collected,
    he.sound.loopHeads⟩
  nextId := he.nextId
  nodes := he.nodes
  frame := he.frame
  fresh := he.fresh
  owned := he.owned
  edges := he.edges
  reached := he.reached
  scopes := he.scopes
  returns := he.returns
  loopHeads := he.loopHeads

/-- What waits may be exchanged in the beginning. -/
theorem of_withPending {ps : List Pending} (he : Extends P H (s.withPending ps) t) :
    Extends P H s t where
  sound := he.sound
  nextId := he.nextId
  nodes := he.nodes
  frame := he.frame
  fresh := he.fresh
  owned := he.owned
  edges := he.edges
  reached := he.reached
  scopes := he.scopes
  returns := he.returns
  loopHeads := he.loopHeads

/-- A number may be given out. -/
theorem numbered (he : Extends P H s t) : Extends P H s t.numbered where
  sound := ⟨fun id hid => Nat.lt_succ_of_lt (he.sound.below id hid), he.sound.nodup,
    he.sound.inRange, he.sound.collected, he.sound.loopHeads⟩
  nextId := Nat.le_succ_of_le he.nextId
  nodes := he.nodes
  frame := he.frame
  fresh := he.fresh
  owned := he.owned
  edges := he.edges
  reached := he.reached
  scopes := he.scopes
  returns := he.returns
  loopHeads := he.loopHeads

/-- The nodes of a call may be recorded. -/
theorem recorded (he : Extends P H s t) (r : CallSiteNodes) : Extends P H s (t.recorded r) where
  sound := ⟨he.sound.below, he.sound.nodup, he.sound.inRange, he.sound.collected,
    he.sound.loopHeads⟩
  nextId := he.nextId
  nodes := he.nodes
  frame := he.frame.trans ⟨rfl, rfl, rfl, rfl, rfl⟩
  fresh := he.fresh
  owned := he.owned
  edges := he.edges
  reached := he.reached
  scopes := he.scopes
  returns := he.returns
  loopHeads := he.loopHeads

/-- A new node may be noted as the head of a loop. -/
theorem withLoopHead (he : Extends P H s t) {head : NodeId} (hhead : Made s t head) :
    Extends P H s (t.withLoopHead head) where
  sound := ⟨he.sound.below, he.sound.nodup, he.sound.inRange, he.sound.collected, by
    intro head' hmem
    rcases List.mem_append.1 hmem with hmem | hmem
    · exact he.sound.loopHeads head' hmem
    · exact List.mem_singleton.1 hmem ▸ hhead.mem⟩
  nextId := he.nextId
  nodes := he.nodes
  frame := he.frame
  fresh := he.fresh
  owned := he.owned
  edges := he.edges
  reached := he.reached
  scopes := he.scopes
  returns := he.returns
  loopHeads := he.loopHeads.trans (.single hhead)

/-- An element may be reported. -/
theorem skipped (he : Extends P H s t) (element : ElementId) :
    Extends P H s (t.skipped element) where
  sound := ⟨he.sound.below, he.sound.nodup, he.sound.inRange, he.sound.collected,
    he.sound.loopHeads⟩
  nextId := he.nextId
  nodes := he.nodes
  frame := he.frame.trans ⟨rfl, rfl, rfl, rfl, rfl⟩
  fresh := he.fresh
  owned := he.owned
  edges := he.edges
  reached := he.reached
  scopes := he.scopes
  returns := he.returns
  loopHeads := he.loopHeads

/-- A way out that is sent is the only arc that is new among those that wait. -/
theorem collected_sent_subset (h : Hierarchy) (s : Lowering) (p : Pending) (escape : Escape)
    {q : Pending} (hq : q ∈ (s.sent h p escape).collected) : q ∈ s.collected ∨ q = p := by
  rcases List.mem_append.1 hq with hq | hq
  · exact (forall₂_flatMap_mem_or (fun _ _ hg _ => hg.waiting_mem_or) (sent_scopes h s p escape)
      hq).imp_left (List.mem_append_left _)
  · exact ((sent_returns h s p escape).mem_or hq).imp_left (List.mem_append_right _)

/-- A way out of a new node may be sent. -/
theorem sent (he : Extends P H s t) (hp : Made s t p.source) (escape : Escape) :
    Extends P H s (t.sent h p escape) := by
  have hmade (q : Pending) (hq : q = p) : Made s t q.source := by
    rw [hq]
    exact hp
  refine ⟨⟨he.sound.below, he.sound.nodup, he.sound.inRange, fun q hq => ?_, he.sound.loopHeads⟩,
    he.nextId, he.nodes, he.frame, he.fresh, he.owned, he.edges, he.reached, ?_, ?_, he.loopHeads⟩
  · rcases collected_sent_subset h t p escape hq with hq | hq
    exacts [he.sound.collected q hq, (hmade q hq).mem]
  · exact forall₂_comp (fun _ _ _ => .trans) he.scopes
      ((sent_scopes h t p escape).imp fun _ _ => .imp hmade)
  · exact he.returns.trans ((sent_returns h t p escape).imp hmade)

/-- Ways out of new nodes may be sent. -/
theorem sentAll (he : Extends P H s t) {escapes : List (Pending × Escape)}
    (hp : ∀ e ∈ escapes, Made s t e.1.source) : Extends P H s (t.sentAll h escapes) := by
  refine (sentAll_induction h t escapes
    (motive := fun u => Extends P H s u ∧ u.graph = t.graph) ⟨he, rfl⟩ ?_).1
  rintro u e hmem ⟨hu, hgraph⟩
  refine ⟨hu.sent ?_ e.2, hgraph⟩
  rw [Made, hgraph]
  exact hp e hmem

theorem made_placed {node : Node} {id : NodeId} (hm : Made s t id) : Made s (t.placed node) id := by
  refine ⟨?_, hm.2⟩
  rw [placed_ids]
  exact List.mem_append_left _ hm.1

/-- A node that has got a number and no place yet keeps a state sound. -/
theorem placed_sound (hs : t.Sound) {node : Node} (hlt : node.id.number < t.nextId)
    (hnew : node.id ∉ t.graph.ids) : (t.placed node).Sound where
  below id hid := by
    rw [placed_ids, List.mem_append, List.mem_singleton] at hid
    rcases hid with hid | rfl
    exacts [hs.below id hid, hlt]
  nodup := by
    rw [placed_ids]
    exact List.nodup_append.2 ⟨hs.nodup, List.nodup_singleton _, by
      rintro a ha b hb rfl
      exact hnew (List.mem_singleton.1 hb ▸ ha)⟩
  inRange := placed_inRange hs.inRange node
  collected p hp := by
    rw [placed_ids]
    exact List.mem_append_left _ (hs.collected p hp)
  loopHeads head hhead := by
    rw [placed_ids]
    exact List.mem_append_left _ (hs.loopHeads head hhead)

/-- What leads to the nodes there are leads to one that is placed behind them. -/
theorem placed_reached (he : Extends P H s t) {node : Node} (hne : t.pending ≠ [])
    (hpend : ∀ p ∈ t.pending, p.source ∈ t.graph.ids ∧ (Made s t p.source ∨ P p.source)) {id : NodeId}
    (hm : Made s (t.placed node) id) : ∃ x, P x ∧ (t.placed node).graph.Leads x id := by
  have hedges := placed_edges he.sound.inRange (fun p hp => (hpend p hp).1) node
  have hsub : t.graph.edges ⊆ (t.placed node).graph.edges := by
    rw [hedges]
    exact List.subset_append_left _ _
  have hid := hm.1
  rw [placed_ids, List.mem_append, List.mem_singleton] at hid
  rcases hid with hid | rfl
  · obtain ⟨x, hx, hleads⟩ := he.reached id ⟨hid, hm.2⟩
    exact ⟨x, hx, hleads.of_subset hsub⟩
  · -- the frontier is not empty, and each of its arcs leads to the node
    obtain ⟨p, hp⟩ := List.exists_mem_of_ne_nil _ hne
    have hedge : (t.placed node).graph.HasEdge p.source node.id := by
      refine ⟨p.edge, ?_⟩
      rw [hedges]
      exact List.mem_append_right _ (List.mem_map.2 ⟨p, hp, rfl⟩)
    rcases (hpend p hp).2 with hmade | hP
    · obtain ⟨x, hx, hleads⟩ := he.reached _ hmade
      exact ⟨x, hx, (hleads.of_subset hsub).tail hedge⟩
    · exact ⟨_, hP, .single hedge⟩

/-- A node is placed that was numbered after the first state. -/
theorem placed (he : Extends P H s t) {node : Node} (hne : t.pending ≠ [])
    (hpend : ∀ p ∈ t.pending, p.source ∈ t.graph.ids ∧ (Made s t p.source ∨ P p.source))
    (hle : s.nextId ≤ node.id.number) (hlt : node.id.number < t.nextId)
    (hnew : node.id ∉ t.graph.ids) (hcallable : node.callable = s.graph.callable) :
    Extends P H s (t.placed node) where
  sound := placed_sound he.sound hlt hnew
  nextId := he.nextId
  nodes := by
    rw [placed_nodes]
    exact he.nodes.trans (List.prefix_append _ _)
  frame := he.frame.trans (placed_frame t node)
  fresh id hid := by
    rw [placed_ids, List.mem_append, List.mem_singleton] at hid
    rcases hid with hid | rfl
    exacts [he.fresh id hid, .inr hle]
  owned node' hnode' := by
    rw [placed_nodes, List.mem_append, List.mem_singleton] at hnode'
    rcases hnode' with hnode' | rfl
    exacts [he.owned node' hnode', .inr hcallable]
  edges := by
    have hnode : Made s (t.placed node) node.id := ⟨by rw [placed_ids]; simp, hle⟩
    rw [placed_edges he.sound.inRange fun p hp => (hpend p hp).1]
    refine (he.edges.imp fun e hmem => ⟨hmem.1.imp_left made_placed, hmem.2.imp_left made_placed⟩).trans
      ⟨_, rfl, fun e hmem => ?_⟩
    obtain ⟨p, hp, rfl⟩ := List.mem_map.1 hmem
    exact ⟨(hpend p hp).2.imp_left made_placed, .inl hnode⟩
  reached _ hm := placed_reached he hne hpend hm
  scopes := he.scopes.imp fun _ _ => .imp fun _ => made_placed
  returns := he.returns.imp fun _ => made_placed
  loopHeads := he.loopHeads.imp fun _ => made_placed

theorem made_closed {head : NodeId} {tails : List Pending} {id : NodeId} (hm : Made s t id) :
    Made s (t.closed head tails) id := by
  rw [Made, closed_ids]
  exact hm

/-- Arcs lead back to the head of a loop. -/
theorem closed (he : Extends P H s t) (head : NodeId) (tails : List Pending)
    (hhead : head ∈ t.graph.ids) (hhead' : Made s t head ∨ H head)
    (htails : ∀ p ∈ tails, p.source ∈ t.graph.ids ∧ (Made s t p.source ∨ P p.source)) :
    Extends P H s (t.closed head tails) where
  sound :=
    { below := fun id hid => he.sound.below id (closed_ids t head tails ▸ hid)
      nodup := by
        rw [closed_ids]
        exact he.sound.nodup
      inRange := closed_inRange he.sound.inRange _ _
      collected := fun p hp => by
        rw [closed_ids]
        exact he.sound.collected p hp
      loopHeads := fun head' hmem => by
        rw [closed_ids]
        exact he.sound.loopHeads head' hmem }
  nextId := he.nextId
  nodes := by
    rw [closed_nodes]
    exact he.nodes
  frame := he.frame.trans (.foldl_addArc t.graph head backEdge tails)
  fresh id hid := he.fresh id (closed_ids t head tails ▸ hid)
  owned node hnode := he.owned node (closed_nodes t head tails ▸ hnode)
  edges := by
    rw [closed_edges head tails hhead fun p hp => (htails p hp).1]
    refine (he.edges.imp fun e hmem => ⟨hmem.1.imp_left made_closed, hmem.2.imp_left made_closed⟩).trans
      ⟨_, rfl, fun e hmem => ?_⟩
    obtain ⟨p, hp, rfl⟩ := List.mem_map.1 hmem
    exact ⟨(htails p hp).2.imp_left made_closed, hhead'.imp_left made_closed⟩
  reached id hm := by
    obtain ⟨x, hx, hleads⟩ := he.reached id ⟨closed_ids t head tails ▸ hm.1, hm.2⟩
    refine ⟨x, hx, hleads.of_subset ?_⟩
    rw [closed_edges head tails hhead fun p hp => (htails p hp).1]
    exact List.subset_append_left _ _
  scopes := he.scopes.imp fun _ _ => .imp fun _ => made_closed
  returns := he.returns.imp fun _ => made_closed
  loopHeads := he.loopHeads.imp fun _ => made_closed

/-! ### Entering and leaving statements -/

theorem left_sound (hs : t.Sound) : t.left.Sound := by
  refine ⟨hs.below, hs.nodup, hs.inRange, fun p hp => hs.collected p ?_, hs.loopHeads⟩
  rcases List.mem_append.1 hp with hp | hp
  · obtain ⟨scope, hscope, hp⟩ := List.mem_flatMap.1 hp
    exact List.mem_append_left _ (List.mem_flatMap.2 ⟨scope, List.mem_of_mem_tail hscope, hp⟩)
  · exact List.mem_append_right _ hp

/-- A statement is left: what it took in, and what happened outside of it. -/
theorem leave {scope : Scope} (he : Extends P H (s.entered scope) t) :
    Extends P H s t.left ∧ Scope.Grows (fun p => Made s t p.source) scope t.innermost := by
  have hscopes := he.scopes
  rw [entered_scopes] at hscopes
  obtain ⟨scope', scopes', hg, hgs, hscopes'⟩ := List.forall₂_cons_left_iff.1 hscopes
  refine ⟨⟨left_sound he.sound, he.nextId, he.nodes, he.frame, he.fresh, he.owned, he.edges, he.reached,
    ?_, he.returns, he.loopHeads⟩, ?_⟩
  · rw [left_scopes, hscopes']
    exact hgs
  · rw [innermost, hscopes']
    exact hg

/-- A statement is entered whose arcs start at nodes. -/
theorem entered_sound (hs : s.Sound) {scope : Scope}
    (hscope : ∀ p ∈ scope.waiting, p.source ∈ s.graph.ids) : (s.entered scope).Sound := by
  refine ⟨hs.below, hs.nodup, hs.inRange, fun p hp => ?_, hs.loopHeads⟩
  rw [collected, entered_scopes, List.flatMap_cons, List.append_assoc] at hp
  rcases List.mem_append.1 hp with hp | hp
  exacts [hscope p hp, hs.collected p hp]

end Extends

/-! ## Straight lines -/

/-- A node is the source of one of some arcs. -/
def From (ps : List Pending) (id : NodeId) : Prop := ∃ p ∈ ps, p.source = id

/-- No node. -/
def Nowhere (_ : NodeId) : Prop := False

/-- Behind nodes that were entered something waits. -/
theorem Emits.pending_ne_nil {es : List Emission} (he : Emits h s es t) (hs : s.pending ≠ []) :
    t.pending ≠ [] := by
  induction he with
  | done => exact hs
  | number _ ih => exact ih
  | record _ _ ih => exact ih
  | node _ _ _ _ _ _ => simp

/-- Nodes placed behind each other are entered from what waited, and something waits behind them. -/
theorem Emits.extends {es : List Emission} (he : Emits h s es t) (hs : s.Sound)
    (hne : s.pending ≠ []) (hp : ∀ p ∈ s.pending, p.source ∈ s.graph.ids) :
    Extends (From s.pending) Nowhere s t ∧ ∀ p ∈ t.pending,
      p.source ∈ t.graph.ids ∧ (Made s t p.source ∨ From s.pending p.source) := by
  induction he with
  | done => exact ⟨.refl _ _ hs, fun p hmem => ⟨hp p hmem, .inr ⟨p, hmem, rfl⟩⟩⟩
  | number _ ih => exact ⟨ih.1.numbered, ih.2⟩
  | record _ _ ih => exact ⟨ih.1.recorded _, ih.2⟩
  | node he hle hlt hnew hcallable ih =>
    rename_i t e
    have hplaced := ih.1.placed (he.pending_ne_nil hne) ih.2 hle hlt hnew hcallable
    have hmade : Made s (t.placed e.node) e.node.id := ⟨by rw [placed_ids]; simp, hle⟩
    refine ⟨hplaced.sentAll fun w hw => ?_, fun p hmem => ?_⟩
    · obtain ⟨_, -, rfl⟩ := List.mem_map.1 hw
      exact hmade
    · rw [sentAll_pending, placed_pending, List.mem_singleton] at hmem
      rw [Made, sentAll_graph, hmem]
      exact ⟨hmade.1, .inl hmade⟩

theorem Emits.frame {es : List Emission} (he : Emits h s es t) :
    s.graph.SameFrame t.graph := by
  induction he with
  | done => exact .refl _
  | number _ ih => exact ih
  | record _ _ ih => exact ih.trans ⟨rfl, rfl, rfl, rfl, rfl⟩
  | node _ _ _ _ _ ih =>
    rw [sentAll_graph]
    exact ih.trans (placed_frame _ _)

/-- A line of nodes, the first of which the frontier leads to. -/
theorem Emits.chain {es : List Emission} (he : Emits h s es t) (hs : s.Sound)
    (hne : s.pending ≠ []) (hp : ∀ p ∈ s.pending, p.source ∈ s.graph.ids) :
    (∀ e ∈ es.head?, ∀ p ∈ s.pending, t.graph.HasEdge p.source e.node.id) ∧
      es.IsChain fun e e' => t.graph.HasEdge e.node.id e'.node.id := by
  induction he with
  | done => simp
  | number _ ih => exact ih
  | record _ _ ih => exact ih
  | node he hle hlt hnew hcallable ih =>
    rename_i es t e
    obtain ⟨hext, hpend⟩ := he.extends hs hne hp
    have hedges := placed_edges hext.sound.inRange (fun p hmem => (hpend p hmem).1) e.node
    rw [sentAll_graph]
    have hsub : t.graph.edges ⊆ (t.placed e.node).graph.edges := by
      rw [hedges]
      exact List.subset_append_left _ _
    have hlast (p : Pending) (hmem : p ∈ t.pending) :
        (t.placed e.node).graph.HasEdge p.source e.node.id := by
      refine ⟨p.edge, ?_⟩
      rw [hedges]
      exact List.mem_append_right _ (List.mem_map.2 ⟨p, hmem, rfl⟩)
    refine ⟨fun first hfirst p hmem => ?_, ?_⟩
    · cases es with
      | nil =>
        simp only [List.nil_append, List.head?_cons, Option.mem_some_iff] at hfirst
        rw [← hfirst]
        refine hlast p ?_
        rw [he.pending_eq]
        exact hmem
      | cons e' es => exact (ih.1 first hfirst p hmem).of_subset hsub
    · refine List.isChain_append.2 ⟨ih.2.imp fun _ _ => .of_subset hsub, by simp, ?_⟩
      intro e' he' e'' he''
      simp only [List.head?_cons, Option.mem_some_iff] at he''
      rw [← he'']
      refine hlast (.plain e'.node.id .unconditional) ?_
      rw [he.pending_eq, he']
      simp

/-- The arcs of a line of nodes that a frontier leads to. -/
def lineArcs (ps : List Pending) : List NodeId → List (NodeId × NodeId × FlowEdge)
  | [] => []
  | id :: ids =>
    ps.map (fun p => (p.source, id, p.edge)) ++ lineArcs [.plain id .unconditional] ids

/-- The frontier behind a line of nodes. -/
def lineEnd (ps : List Pending) : List NodeId → List Pending
  | [] => ps
  | id :: ids => lineEnd [.plain id .unconditional] ids

/-- One more node in a line is entered from its end. -/
theorem lineArcs_concat (ps : List Pending) (ids : List NodeId) (id : NodeId) :
    lineArcs ps (ids ++ [id]) =
      lineArcs ps ids ++ (lineEnd ps ids).map fun p => (p.source, id, p.edge) := by
  induction ids generalizing ps with
  | nil => simp [lineArcs, lineEnd]
  | cons first ids ih => rw [List.cons_append, lineArcs, ih, lineArcs, List.append_assoc, lineEnd]

theorem lineEnd_concat (ps : List Pending) (ids : List NodeId) (id : NodeId) :
    lineEnd ps (ids ++ [id]) = [.plain id .unconditional] := by
  induction ids generalizing ps with
  | nil => rfl
  | cons first ids ih => exact ih _

/-- The arcs of a line start at its frontier and lead to its first node, or they join two
    neighbours. -/
theorem mem_lineArcs_iff {ps : List Pending} {ids : List NodeId} {arc : NodeId × NodeId × FlowEdge} :
    arc ∈ lineArcs ps ids ↔ (∃ p ∈ ps, ∃ first ∈ ids.head?, arc = (p.source, first, p.edge)) ∨
      ∃ x y, [x, y] <:+: ids ∧ arc = (x, y, ⟨.unconditional, none⟩) := by
  induction ids generalizing ps with
  | nil => simp [lineArcs]
  | cons first ids ih =>
    rw [lineArcs, List.mem_append, List.mem_map, ih]
    constructor
    · rintro (⟨p, hp, rfl⟩ | ⟨p, hp, second, hsecond, rfl⟩ | ⟨x, y, hxy, rfl⟩)
      · exact .inl ⟨p, hp, first, rfl, rfl⟩
      · rw [List.mem_singleton.1 hp]
        obtain ⟨rest, rfl⟩ := List.head?_eq_some_iff.1 hsecond
        exact .inr ⟨first, second, ⟨[], rest, rfl⟩, rfl⟩
      · exact .inr ⟨x, y, List.infix_cons hxy, rfl⟩
    · rintro (⟨p, hp, _, hfirst, rfl⟩ | ⟨x, y, hxy, rfl⟩)
      · rw [← Option.some.inj hfirst]
        exact .inl ⟨p, hp, rfl⟩
      · rcases List.infix_cons_iff.1 hxy with hxy | hxy
        · obtain ⟨rfl, hy⟩ := List.cons_prefix_cons.1 hxy
          obtain ⟨rest, rfl⟩ := hy
          exact .inr (.inl ⟨_, List.mem_singleton_self _, y, rfl, rfl⟩)
        · exact .inr (.inr ⟨x, y, hxy, rfl⟩)

/-- Behind a line of nodes its end waits. -/
theorem Emits.lineEnd_eq {es : List Emission} (he : Emits h s es t) :
    t.pending = lineEnd s.pending (es.map (·.node.id)) := by
  induction he with
  | done => rfl
  | number _ ih => exact ih
  | record _ _ ih => exact ih
  | node _ _ _ _ _ _ => rw [List.map_append, List.map_singleton, lineEnd_concat]; simp

/-- The arcs of a line, also where nothing leads to it. -/
theorem Emits.edges_eq {es : List Emission} (he : Emits h s es t) (hs : s.graph.InRange)
    (hp : ∀ p ∈ s.pending, p.source ∈ s.graph.ids) :
    t.graph.InRange ∧ (∀ p ∈ t.pending, p.source ∈ t.graph.ids) ∧
      t.graph.edges = s.graph.edges ++ lineArcs s.pending (es.map (·.node.id)) := by
  induction he with
  | done => exact ⟨hs, hp, by simp [lineArcs]⟩
  | number _ ih => exact ih
  | record _ _ ih => exact ih
  | node he _ _ _ _ ih =>
    obtain ⟨hrange, hpend, hedges⟩ := ih
    refine ⟨by simpa using placed_inRange hrange _, ?_, ?_⟩
    · simp [Pending.plain]
    · rw [sentAll_graph, placed_edges hrange hpend, hedges, List.map_append, List.map_singleton,
        lineArcs_concat, he.lineEnd_eq, List.append_assoc]

section Constructs

variable {point : Point} {effects : Effects} {head : NodeId}

/-- A construct adds nodes that are entered from what waited. -/
theorem Constructs.extends (hc : Constructs h s point effects head id t) (hs : s.Sound)
    (hne : s.pending ≠ []) (hp : ∀ p ∈ s.pending, p.source ∈ s.graph.ids) :
    Extends (From s.pending) Nowhere s t :=
  let ⟨_, he, _⟩ := hc
  (he.extends hs hne hp).1

/-- The first and the last node of a construct are new. -/
theorem Constructs.made (hc : Constructs h s point effects head id t) :
    Made s t head ∧ Made s t id := by
  obtain ⟨es, he, -, hhead, hid⟩ := hc
  have key (e : Emission) (hmem : e ∈ es) : Made s t e.node.id := by
    refine ⟨?_, he.le_of_mem e hmem⟩
    rw [he.ids_eq]
    exact List.mem_append_right _ (List.mem_map_of_mem hmem)
  obtain ⟨e, hmem, rfl⟩ := Option.map_eq_some_iff.1 hhead
  obtain ⟨e', hmem', rfl⟩ := Option.map_eq_some_iff.1 hid
  exact ⟨key e (List.mem_of_mem_head? hmem), key e' (List.mem_of_getLast? hmem')⟩

/-- A construct adds at least one node. -/
theorem Constructs.nodes (hc : Constructs h s point effects head id t) :
    s.graph.nodes <+: t.graph.nodes ∧ s.graph.size < t.graph.size := by
  obtain ⟨es, he, -, hhead, -⟩ := hc
  have hne : es ≠ [] := by
    rintro rfl
    simp at hhead
  have hlen := congrArg List.length he.nodes_eq
  have := List.length_pos_iff.2 hne
  simp only [List.length_append, List.length_map] at hlen
  refine ⟨?_, ?_⟩
  · rw [he.nodes_eq]
    exact List.prefix_append _ _
  · rw [FlowGraph.size, FlowGraph.size]
    omega

end Constructs

theorem Sound.withPending (hs : s.Sound) (ps : List Pending) : (s.withPending ps).Sound :=
  ((Extends.refl Nowhere Nowhere hs).withPending ps).sound

end Lowering

end Slicing
