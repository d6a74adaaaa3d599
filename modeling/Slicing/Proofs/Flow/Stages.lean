import Slicing.Proofs.Flow.Callable
import Slicing.Proofs.Flow.Formed
import Slicing.Proofs.Flow.Progress

/-!
# Flow graphs of callables are well formed

The graph that lowering a callable ends in has the edges of the body, and those of a line
through the formal-outs to the exit, to which everything leads that ends or leaves the
body (`Builds.edges_eq`). Each node of the body is reached, and each leads on: to the line,
or into a loop that nothing ends (`Lowered.onward`). Such a loop is flagged unless the exit
is reached from it, so the graph is well formed (`Builds.formed`).
-/

namespace Slicing

namespace FlowGraph

variable {g : FlowGraph}

/-- Ways along edges are ways along steps. -/
theorem Leads.stepsTo (hg : g.InRange) (hn : g.ids.Nodup) {x y : NodeId} (hl : g.Leads x y)
    {p q : Nat} (hp : p < g.size) (hq : q < g.size) (hx : g.idAt p = x) (hy : g.idAt q = y) :
    g.StepsTo p q := by
  induction hl using Relation.ReflTransGen.head_induction_on generalizing p with
  | refl => rw [idAt_injective hn hp hq (hx.trans hy.symm)]; exact .refl
  | head hedge _ ih =>
    obtain ⟨r, hr, hid⟩ := exists_idAt_of_mem (hedge.mem_right hg)
    rw [← hx, ← hid, hasEdge_idAt_iff hg hn hp hr] at hedge
    exact .head (mem_steps_iff.2 (.inl hedge)) (ih hr hid)

/-- A position is listed as reaching another one only if steps lead there. -/
theorem stepsTo_of_mem_reaching {p q : Nat} (h : p ∈ g.reaching q) : g.StepsTo p q := by
  rw [reaching, Digraph.mem_reach_iff] at h
  induction h with
  | refl => exact .refl
  | step _ hnext _ ih =>
    refine .head ?_ ih
    simpa [stepSources, List.mem_eraseDups] using hnext

/-- Without flagged loops, ways along steps are ways along edges. -/
theorem StepsTo.leads (hg : g.nonTerminating = []) {p q : Nat} (hs : g.StepsTo p q) :
    g.Leads (g.idAt p) (g.idAt q) := by
  induction hs with
  | refl => exact .refl
  | tail _ hstep ih =>
    rcases mem_steps_iff.1 hstep with ⟨arc, harc, rfl, rfl⟩ | ⟨⟨id, hid, -⟩, -⟩
    · exact ih.tail ⟨arc.edge, List.mem_map.2 ⟨arc, harc, rfl⟩⟩
    · rw [hg] at hid
      cases hid

end FlowGraph

namespace Lowering

variable {h : Hierarchy} {decl : CallableDecl} {s s' t u : Lowering} {g : FlowGraph}
  {a x : NodeId} {ids : List NodeId} {ps : List Pending}

/-! ## Lines -/

/-- A node on a line leads to its end, and is reached from its start. -/
theorem line_leads {kind : FlowKind} (hsub : lineArcs [.plain a kind] ids ⊆ g.edges)
    (hx : x ∈ a :: ids) :
    g.Leads a x ∧ ∀ p ∈ lineEnd [.plain a kind] ids, g.Leads x p.source := by
  induction ids generalizing a kind x with
  | nil =>
    rw [List.mem_singleton.1 hx]
    refine ⟨.refl, fun p hp => ?_⟩
    rw [List.mem_singleton.1 hp]
    exact .refl
  | cons b ids ih =>
    obtain ⟨hfirst, hrest⟩ := List.append_subset.1 hsub
    have hedge : g.HasEdge a b := ⟨_, hfirst (List.mem_singleton_self _)⟩
    rcases List.mem_cons.1 hx with rfl | hx
    · exact ⟨.refl, fun p hp => .head hedge ((ih hrest List.mem_cons_self).2 p hp)⟩
    · exact ⟨.head hedge (ih hrest hx).1, (ih hrest hx).2⟩

/-- The arcs of a line start at its frontier or at its nodes but the last, and lead to
    its nodes. -/
theorem mem_lineArcs {last : NodeId} {arc : NodeId × NodeId × FlowEdge}
    (harc : arc ∈ lineArcs ps (ids ++ [last])) :
    (From ps arc.1 ∨ arc.1 ∈ ids) ∧ arc.2.1 ∈ ids ++ [last] := by
  induction ids generalizing ps with
  | nil =>
    rw [List.nil_append, lineArcs, lineArcs, List.append_nil] at harc
    obtain ⟨p, hp, rfl⟩ := List.mem_map.1 harc
    exact ⟨.inl ⟨p, hp, rfl⟩, List.mem_singleton_self _⟩
  | cons b ids ih =>
    rcases List.mem_append.1 harc with harc | harc
    · obtain ⟨p, hp, rfl⟩ := List.mem_map.1 harc
      exact ⟨.inl ⟨p, hp, rfl⟩, List.mem_cons_self⟩
    · obtain ⟨hsource, htarget⟩ := ih harc
      refine ⟨.inr ?_, List.mem_cons_of_mem _ htarget⟩
      rcases hsource with ⟨p, hp, heq⟩ | hmem
      · rw [← heq, List.mem_singleton.1 hp]
        exact List.mem_cons_self
      · exact List.mem_cons_of_mem _ hmem

/-! ## The end of a callable -/

/-- Leading arcs to the exit adds them one after the other. -/
theorem exiting_eq (g : FlowGraph) (tails : List Pending) :
    exiting g tails = tails.foldl (fun g' p => g'.addArc p.source g.exit.id p.edge) g := by
  have key (tails : List Pending) (g' : FlowGraph) (he : g'.exit = g.exit) :
      exiting g' tails = tails.foldl (fun g' p => g'.addArc p.source g.exit.id p.edge) g' := by
    induction tails generalizing g' with
    | nil => rfl
    | cons p tails ih =>
      have hexit : (g'.addArc p.source g'.exit.id p.edge).exit = g.exit := by
        rw [← he]
        unfold FlowGraph.addArc
        split <;> rfl
      change exiting (g'.addArc p.source g'.exit.id p.edge) tails = _
      rw [ih _ hexit, he]
      rfl
  exact key tails g rfl

/-- Leading arcs to the exit adds no nodes. -/
theorem exiting_nodes (g : FlowGraph) (tails : List Pending) :
    (exiting g tails).nodes = g.nodes :=
  foldl_addArc_nodes g fun g p => (p.source, g.exit.id, p.edge)

/-- The edges of the arcs that are led to the exit. -/
theorem exiting_edges {tails : List Pending} (ht : ∀ p ∈ tails, p.source ∈ g.ids) :
    (exiting g tails).edges = g.edges ++ tails.map fun p => (p.source, g.exit.id, p.edge) := by
  rw [exiting_eq]
  exact FlowGraph.edges_foldl_addArc (List.mem_cons_of_mem _ List.mem_cons_self) (fun edge => edge)
    ht

theorem exiting_inRange (hg : g.InRange) (tails : List Pending) : (exiting g tails).InRange := by
  rw [exiting_eq]
  exact FlowGraph.inRange_foldl_addArc hg _ (fun edge => edge) tails

theorem exiting_frame (g : FlowGraph) (tails : List Pending) :
    g.SameFrame (exiting g tails) := by
  rw [exiting_eq]
  exact .foldl_addArc g g.exit.id (fun edge => edge) tails

/-- Looking for the head of the exit changes nothing else. -/
theorem headed_eq (g : FlowGraph) : ∃ p, headed g = { g with exitHead := p } := by
  unfold headed FlowGraph.setExitHead
  split
  · split
    exacts [⟨_, rfl⟩, ⟨g.exitHead, rfl⟩]
  · exact ⟨g.exitHead, rfl⟩

/-- The exit head is the first node of the line to the exit. -/
theorem headed_exitHead (hmem : ∀ out ∈ g.formalOuts, out.2 ∈ g.ids)
    (hhead : g.exitHead = FlowGraph.exitPosition) :
    (headed g).exitHead < g.size ∧
      (g.formalOuts.map (·.2) ++ [g.exit.id]).head? = some (g.idAt (headed g).exitHead) := by
  unfold headed
  split
  · rename_i slot head rest hlist
    obtain ⟨p, hp⟩ := FlowGraph.exists_position? (hmem (slot, head) (hlist ▸ List.mem_cons_self))
    obtain ⟨hlt, hid⟩ := FlowGraph.idAt_of_position?_eq_some hp
    rw [FlowGraph.setExitHead, hp, hlist]
    exact ⟨hlt, congrArg some hid.symm⟩
  · rename_i hlist
    rw [hlist, hhead]
    exact ⟨g.exit_lt_size, rfl⟩

/-- The loops that are flagged are those from which the exit is not reached. -/
theorem mem_flagged_iff {heads : List NodeId} {x : NodeId} :
    x ∈ (flagged g heads).nonTerminating ↔ x ∈ heads ∧
      ∃ p, g.position? x = some p ∧ p ∉ g.reaching FlowGraph.exitPosition := by
  rw [flagged, List.mem_filter]
  refine and_congr_right fun _ => ?_
  cases g.position? x with
  | none => simp
  | some p => simp

/-- The graph of a callable before the exit head is set and loops are flagged. -/
structure Sealed (s : Lowering) (es : List Emission) (outs : List (OutputSlot × NodeId))
    (k : FlowGraph) : Prop where
  nodes : k.nodes = s.graph.nodes ++ es.map (·.node)
  inRange : k.InRange
  edges : k.edges = s.graph.edges ++
    lineArcs (s.pending ++ s.returns) (es.map (·.node.id) ++ [s.graph.exit.id])
  formalOuts : k.formalOuts = outs
  exitHead : k.exitHead = FlowGraph.exitPosition
  nonTerminating : k.nonTerminating = []

/-- The graph of a callable: the body, and the line through the formal-outs to the exit. -/
structure Whole (s : Lowering) (es : List Emission) (g : FlowGraph) : Prop where
  nodes : g.nodes = s.graph.nodes ++ es.map (·.node)
  nodup : g.ids.Nodup
  inRange : g.InRange
  edges : g.edges = s.graph.edges ++
    lineArcs (s.pending ++ s.returns) (es.map (·.node.id) ++ [s.graph.exit.id])
  exitHead : g.exitHead < g.size
  first : (es.map (·.node.id) ++ [s.graph.exit.id]).head? = some (g.idAt g.exitHead)
  /-- A loop that nothing ends is flagged unless the exit is reached from it. -/
  flags : ∀ x ∈ s.loopHeads, x ∈ g.nonTerminating ∨ g.Leads x s.graph.exit.id
  heads : g.nonTerminating ⊆ s.loopHeads

namespace Whole

variable {es : List Emission}

/-- The graph of the body is part of the graph of the callable. -/
theorem part (hw : Whole s es g) : s.graph.PartOf g := by
  refine ⟨?_, ?_⟩
  · rw [hw.nodes]
    exact List.prefix_append _ _
  · rw [hw.edges]
    exact List.subset_append_left _ _

/-- A node of a callable is one of its body or one of the line behind it. -/
theorem mem_ids (hw : Whole s es g) (hx : x ∈ g.ids) :
    x ∈ s.graph.ids ∧ x ≠ s.graph.exit.id ∨ x ∈ es.map (·.node.id) ++ [s.graph.exit.id] := by
  by_cases hexit : x = s.graph.exit.id
  · exact .inr (List.mem_append_right _ (List.mem_singleton.2 hexit))
  · rw [FlowGraph.ids, hw.nodes, List.map_append] at hx
    rcases List.mem_append.1 hx with hx | hx
    · exact .inl ⟨hx, hexit⟩
    · rw [List.map_map] at hx
      exact .inr (List.mem_append_left _ hx)

/-- The line to the exit leads there from the ends of the body. -/
theorem line (hw : Whole s es g) :
    (∀ x, From (s.pending ++ s.returns) x → g.HasEdge x (g.idAt g.exitHead)) ∧
      ∀ x ∈ es.map (·.node.id) ++ [s.graph.exit.id],
        g.Leads (g.idAt g.exitHead) x ∧ g.Leads x s.graph.exit.id := by
  obtain ⟨rest, hline⟩ := List.head?_eq_some_iff.1 hw.first
  have hend : lineEnd (s.pending ++ s.returns) (es.map (·.node.id) ++ [s.graph.exit.id]) =
      [.plain s.graph.exit.id .unconditional] := lineEnd_concat ..
  have hsub : lineArcs (s.pending ++ s.returns) (g.idAt g.exitHead :: rest) ⊆ g.edges := by
    rw [← hline, hw.edges]
    exact List.subset_append_right _ _
  rw [hline] at hend ⊢
  obtain ⟨hfirst, hrest⟩ := List.append_subset.1 hsub
  refine ⟨?_, fun x hx => ?_⟩
  · rintro _ ⟨p, hp, rfl⟩
    exact ⟨p.edge, hfirst (List.mem_map.2 ⟨p, hp, rfl⟩)⟩
  · obtain ⟨hfrom, hto⟩ := line_leads hrest hx
    refine ⟨hfrom, hto (.plain s.graph.exit.id .unconditional) ?_⟩
    rw [show lineEnd [.plain (g.idAt g.exitHead) .unconditional] rest = _ from hend]
    exact List.mem_singleton_self _

end Whole

namespace Builds

variable {body : List Stmt} {n : Nat} {ins es : List Emission}
  {outs : List (OutputSlot × NodeId)}

/-- The head of the exit and the flagged loops are found at the end only. -/
theorem frame (hb : Builds h decl body n ins t s es outs u g) :
    s.graph.exitHead = FlowGraph.exitPosition ∧ s.graph.nonTerminating = [] :=
  ⟨hb.body.grown.ext.frame.exitHead.trans hb.opening.frame.exitHead,
    hb.body.grown.ext.frame.nonTerminating.trans hb.opening.frame.nonTerminating⟩

/-- What ends or leaves the body comes from its nodes. -/
theorem ends_mem (hb : Builds h decl body n ins t s es outs u g) :
    ∀ p ∈ s.pending ++ s.returns, p.source ∈ s.graph.ids := by
  intro p hp
  rcases List.mem_append.1 hp with hp | hp
  · exact hb.body.grown.outputs_mem hb.body.ready p hp
  · exact hb.body.grown.ext.sound.collected p (List.mem_append_right _ hp)

/-- The graph of a callable is one where the exit is led to, with the exit head set and the loops
    flagged. -/
theorem exists_sealed (hb : Builds h decl body n ins t s es outs u g) :
    ∃ k, g = flagged (headed k) s.loopHeads ∧ Sealed s es outs k := by
  obtain ⟨hrange, hpend, hedges⟩ :=
    hb.closing.edges_eq hb.body.grown.ext.sound.inRange hb.ends_mem
  have hexit : u.graph.exit.id = s.graph.exit.id := by
    have hnodes := hb.closing.nodes_eq
    have h₁ : u.graph.nodes[1]? = some u.graph.exit := rfl
    rw [hnodes] at h₁
    exact congrArg Node.id (Option.some.inj h₁).symm
  have hframe := exiting_frame (u.withFormals s.graph.formalIns outs).graph u.pending
  have hrange' : (u.withFormals s.graph.formalIns outs).graph.InRange := hrange
  have hpend' : ∀ p ∈ u.pending,
    p.source ∈ (u.withFormals s.graph.formalIns outs).graph.ids := hpend
  refine ⟨_, hb.graph, ?_, exiting_inRange hrange' _, ?_, hframe.formalOuts, ?_, ?_⟩
  · rw [exiting_nodes]
    exact hb.closing.nodes_eq
  · have hline : u.pending = lineEnd (s.pending ++ s.returns) (es.map (·.node.id)) :=
      hb.closing.lineEnd_eq
    rw [exiting_edges hpend', withFormals_edges, hedges, lineArcs_concat, ← hline,
      List.append_assoc]
    change _ ++ (_ ++ List.map (fun p => (p.source, u.graph.exit.id, p.edge)) u.pending) = _
    rw [hexit]
    rfl
  · exact hframe.exitHead.trans (hb.closing.frame.exitHead.trans hb.frame.1)
  · exact hframe.nonTerminating.trans (hb.closing.frame.nonTerminating.trans hb.frame.2)

/-- The formal-outs are recorded by their numbers. -/
theorem outs_ids (ho : List.Forall₂ Emission.IsFormalOut es outs) :
    outs.map (·.2) = es.map (·.node.id) := by
  induction ho with
  | nil => rfl
  | cons hout _ ih => rw [List.map_cons, List.map_cons, ih, hout.1]

/-- The graph of a callable is its body with the line behind it. -/
theorem whole (hb : Builds h decl body n ins t s es outs u g) : Whole s es g := by
  obtain ⟨k, hg, hk⟩ := hb.exists_sealed
  have hids : k.ids = s.graph.ids ++ es.map (·.node.id) := by simp [FlowGraph.ids, hk.nodes]
  have hnodup : k.ids.Nodup := by
    have := hb.closing.nodup hb.body.grown.ext.sound.nodup
    rwa [hb.closing.ids_eq, withPending_graph, ← hids] at this
  have houts := outs_ids hb.outNodes
  have hmem (out : OutputSlot × NodeId) (hout : out ∈ k.formalOuts) : out.2 ∈ k.ids := by
    rw [hids, ← houts, ← hk.formalOuts]
    exact List.mem_append_right _ (List.mem_map_of_mem hout)
  obtain ⟨hlt, hhead⟩ := headed_exitHead hmem hk.exitHead
  have hexit : k.exit = s.graph.exit := (FlowGraph.ends_eq (hk.nodes ▸ List.prefix_append _ _)).2
  rw [hk.formalOuts, houts, hexit] at hhead
  obtain ⟨p, hp⟩ := headed_eq k
  rw [hp] at hg hlt hhead
  subst hg
  refine ⟨hk.nodes, hnodup, hk.inRange, hk.edges, hlt, hhead, fun x hx => ?_, fun x hx =>
    (mem_flagged_iff.1 hx).1⟩
  -- a head that is not flagged reaches the exit, along edges only
  by_cases hflag : x ∈ (flagged { k with exitHead := p } s.loopHeads).nonTerminating
  · exact .inl hflag
  · refine .inr ?_
    have hxk : x ∈ k.ids := by
      rw [hids]
      exact List.mem_append_left _ (hb.body.grown.ext.sound.loopHeads x hx)
    obtain ⟨q, hq⟩ := FlowGraph.exists_position? hxk
    have hreach : q ∈ FlowGraph.reaching { k with exitHead := p } FlowGraph.exitPosition := by
      by_contra hnot
      exact hflag (mem_flagged_iff.2 ⟨hx, q, hq, hnot⟩)
    have hleads := FlowGraph.StepsTo.leads (g := { k with exitHead := p }) hk.nonTerminating
      (FlowGraph.stepsTo_of_mem_reaching hreach)
    have hid : k.idAt q = x := (FlowGraph.idAt_of_position?_eq_some hq).2
    rw [← hid, ← hexit]
    exact hleads

/-! ### Numbers -/

/-- The entry has the first number, and all nodes but it and the exit have later ones. -/
def Inner (n : Nat) (x : NodeId) : Prop := n + 2 ≤ x.number

/-- The first nodes of a callable are the entry, the exit and the formal-ins. -/
theorem ids_eq (hb : Builds h decl body n ins t s es outs u g) :
    t.graph.ids = [⟨n⟩, ⟨n + 1⟩] ++ ins.map (·.node.id) :=
  hb.opening.ids_eq

/-- The formal-ins are placed behind the entry. -/
theorem opening_ext (hb : Builds h decl body n ins t s es outs u g) :
    Extends (From (start decl n).pending) Nowhere (start decl n) t :=
  (opening_extends hb.opening).1

/-- The nodes of the body have later numbers than the entry and the exit. -/
theorem inner_of_made (hb : Builds h decl body n ins t s es outs u g)
    (hm : Made (t.withFormals (ins.map (·.node.id)) []) s x) : Inner n x :=
  Nat.le_trans hb.opening.nextId_le hm.2

/-- The formal-ins have later numbers than the entry and the exit. -/
theorem inner_of_mem_ins (hb : Builds h decl body n ins t s es outs u g)
    (hx : x ∈ ins.map (·.node.id)) : Inner n x := by
  obtain ⟨e, he, rfl⟩ := List.mem_map.1 hx
  exact hb.opening.le_of_mem e he

/-- The formal-outs have later numbers than the nodes of the body. -/
theorem inner_of_mem_es (hb : Builds h decl body n ins t s es outs u g)
    (hx : x ∈ es.map (·.node.id)) : Inner n x ∧ x ∉ s.graph.ids := by
  obtain ⟨e, he, rfl⟩ := List.mem_map.1 hx
  have hle : s.nextId ≤ e.node.id.number := hb.closing.le_of_mem e he
  refine ⟨Nat.le_trans hb.opening.nextId_le (Nat.le_trans hb.body.grown.ext.nextId hle), ?_⟩
  exact fun hmem => Nat.lt_irrefl _ (Nat.lt_of_lt_of_le (hb.body.grown.ext.sound.below _ hmem) hle)

/-- What the body starts from is the entry, or the last formal-in. -/
theorem from_opening (hb : Builds h decl body n ins t s es outs u g) (hx : From t.pending x) :
    x = ⟨n⟩ ∨ Inner n x := by
  obtain ⟨p, hp, rfl⟩ := hx
  rw [hb.opening.pending_eq] at hp
  split at hp
  · rename_i e he
    rw [List.mem_singleton.1 hp]
    exact .inr (hb.inner_of_mem_ins (List.mem_map_of_mem (List.mem_of_getLast? he)))
  · rw [List.mem_singleton.1 hp]
    exact .inl rfl

/-- No edge leads to the entry or the exit before the callable is left, and none leads on
    from the exit. -/
theorem edge_numbers (hb : Builds h decl body n ins t s es outs u g)
    {edge : NodeId × NodeId × FlowEdge} (he : edge ∈ s.graph.edges) :
    (edge.1 = ⟨n⟩ ∨ Inner n edge.1) ∧ Inner n edge.2.1 := by
  rcases hb.body.grown.ext.edges.mem_or he with he | ⟨hsource, htarget⟩
  · rcases hb.opening_ext.edges.mem_or he with he | ⟨hsource, htarget⟩
    · cases he
    · refine ⟨?_, (htarget.resolve_right fun hf => hf).2⟩
      rcases hsource with hm | ⟨p, hp, heq⟩
      · exact .inr hm.2
      · rw [← heq, List.mem_singleton.1 hp]
        exact .inl rfl
  · refine ⟨?_, hb.inner_of_made (htarget.resolve_right fun hf => hf)⟩
    exact hsource.elim (fun hm => .inr (hb.inner_of_made hm)) hb.from_opening

/-- The body is left from the entry or from a later node. -/
theorem end_numbers (hb : Builds h decl body n ins t s es outs u g)
    (hx : From (s.pending ++ s.returns) x) : x = ⟨n⟩ ∨ Inner n x := by
  obtain ⟨p, hp, rfl⟩ := hx
  rcases List.mem_append.1 hp with hp | hp
  · rcases hb.body.grown.outputs p hp with hm | ⟨hmem, -⟩
    · exact .inr (hb.inner_of_made hm)
    · exact hb.from_opening ⟨p, hmem, rfl⟩
  · rcases hb.body.grown.ext.returns.mem_or hp with hp | hm
    · exact .inr ((hb.opening_ext.returns.mem_or hp).resolve_left (by simp [start])).2
    · exact .inr (hb.inner_of_made hm)

/-- The head of a loop has a later number than the entry and the exit. -/
theorem inner_of_loopHead (hb : Builds h decl body n ins t s es outs u g)
    (hx : x ∈ s.loopHeads) : Inner n x := by
  rcases hb.body.grown.ext.loopHeads.mem_or hx with hx | hm
  · rw [withFormals_loopHeads, hb.opening.loopHeads_eq] at hx
    cases hx
  · exact hb.inner_of_made hm

/-- The entry and the exit have the first two numbers. -/
theorem end_ids (hb : Builds h decl body n ins t s es outs u g) :
    s.graph.entry.id = ⟨n⟩ ∧ s.graph.exit.id = ⟨n + 1⟩ := by
  have hentry : s.graph.ids[0]? = some s.graph.entry.id := rfl
  have hexit : s.graph.ids[1]? = some s.graph.exit.id := rfl
  obtain ⟨rest, hrest⟩ := hb.body.grown.ext.graph.ids
  rw [← hrest, withFormals_ids, hb.ids_eq] at hentry hexit
  exact ⟨(Option.some.inj hentry).symm, (Option.some.inj hexit).symm⟩

/-- The exit has the second number. -/
theorem exit_id (hb : Builds h decl body n ins t s es outs u g) : s.graph.exit.id = ⟨n + 1⟩ :=
  hb.end_ids.2

/-- Behind the body of a callable there are no statements around. -/
theorem scopes_eq (hb : Builds h decl body n ins t s es outs u g) : s.scopes = [] := by
  have hopen : t.scopes = [] := List.forall₂_nil_left_iff.1 hb.opening_ext.scopes
  have hbody := hb.body.grown.ext.scopes
  rwa [withFormals_scopes, hopen, List.forall₂_nil_left_iff] at hbody

/-- What is reported for a callable has been found in its body. -/
theorem unreachable_eq (hb : Builds h decl body n ins t s es outs u g) :
    g.unreachable = s.graph.unreachable := by
  obtain ⟨p, hp⟩ := headed_eq (exiting (u.withFormals s.graph.formalIns outs).graph u.pending)
  rw [hb.graph, hp, exiting_eq]
  exact (foldl_addArc_unreachable _ fun _ p => (p.source, _, p.edge)).trans
    hb.closing.unreachable_eq

/-- Outside of the callable nothing is left to be done. -/
theorem collected_eq (hb : Builds h decl body n ins t s es outs u g) :
    s.collected = s.returns := by
  rw [collected, hb.scopes_eq]
  rfl

/-! ### The body -/

/-- The body starts from the entry or from the last formal-in. -/
theorem mem_opening (hb : Builds h decl body n ins t s es outs u g) (hx : From t.pending x) :
    x ∈ ⟨n⟩ :: ins.map (·.node.id) := by
  obtain ⟨p, hp, rfl⟩ := hx
  rw [hb.opening.pending_eq] at hp
  split at hp
  · rename_i e he
    rw [List.mem_singleton.1 hp]
    exact List.mem_cons_of_mem _ (List.mem_map_of_mem (List.mem_of_getLast? he))
  · rw [List.mem_singleton.1 hp]
    exact List.mem_cons_self

/-- The nodes in front of the body. -/
theorem opening_leads (hb : Builds h decl body n ins t s es outs u g)
    (hx : x ∈ ⟨n⟩ :: ins.map (·.node.id)) :
    s.graph.Leads ⟨n⟩ x ∧ ∃ y, From t.pending y ∧ s.graph.Leads x y := by
  have hedges := (hb.opening.edges_eq (start_sound decl n).inRange
    (fun p hp => by rw [List.mem_singleton.1 hp]; exact List.mem_cons_self)).2.2
  have hsub : lineArcs [.plain ⟨n⟩ .unconditional] (ins.map (·.node.id)) ⊆ s.graph.edges := by
    refine List.Subset.trans ?_ hb.body.graph.edges
    rw [withFormals_edges, hedges]
    exact List.subset_append_right _ _
  obtain ⟨hfrom, hto⟩ := line_leads hsub hx
  have hline : t.pending = lineEnd [.plain ⟨n⟩ .unconditional] (ins.map (·.node.id)) :=
    hb.opening.lineEnd_eq
  rw [← hline] at hto
  obtain ⟨p, hp⟩ := List.exists_mem_of_ne_nil t.pending (hb.opening.pending_ne_nil (by simp [start]))
  exact ⟨hfrom, p.source, ⟨p, hp, rfl⟩, hto p hp⟩

/-- Each node but the exit comes with the opening or with the body. -/
theorem mem_body (hb : Builds h decl body n ins t s es outs u g) (hx : x ∈ s.graph.ids)
    (hne : x ≠ s.graph.exit.id) :
    x ∈ ⟨n⟩ :: ins.map (·.node.id) ∨ Made (t.withFormals (ins.map (·.node.id)) []) s x := by
  refine (hb.body.grown.ext.mem_or_made hx).imp_left fun hmem => ?_
  rw [withFormals_ids, hb.ids_eq] at hmem
  rw [hb.exit_id] at hne
  simpa [hne] using hmem

/-- The nodes of the body are reached from the entry. -/
theorem body_reached (hb : Builds h decl body n ins t s es outs u g) (hx : x ∈ s.graph.ids)
    (hne : x ≠ s.graph.exit.id) : s.graph.Leads ⟨n⟩ x := by
  rcases hb.mem_body hx hne with hmem | hm
  · exact (hb.opening_leads hmem).1
  · obtain ⟨y, hy, hleads⟩ := hb.body.grown.ext.reached x hm
    exact (hb.opening_leads (hb.mem_opening hy)).1.trans hleads

/-- From each node of the body control comes to its end, out of it, or into a loop that
    nothing ends. -/
theorem body_onward (hb : Builds h decl body n ins t s es outs u g) (hx : x ∈ s.graph.ids)
    (hne : x ≠ s.graph.exit.id) :
    s.graph.LeadsInto (fun y => From (s.pending ++ s.returns) y ∨ y ∈ s.loopHeads) x := by
  have honward {y : NodeId} (hy : _) := hb.body.onward trivial y hy
  have htarget (y : NodeId) (hy : Part.Target s (.block body) y) :
      From (s.pending ++ s.returns) y ∨ y ∈ s.loopHeads := by
    rcases hy with hy | hy | hy | hf
    · exact .inl (hy.mono (List.subset_append_left _ _))
    · rw [hb.collected_eq] at hy
      exact .inl (hy.mono (List.subset_append_right _ _))
    · exact .inr hy
    · exact hf.elim
  rcases hb.mem_body hx hne with hmem | hm
  · obtain ⟨-, y, hy, hleads⟩ := hb.opening_leads hmem
    obtain ⟨v, hv, hT⟩ := honward (.inr hy)
    exact ⟨v, hleads.trans hv, htarget v hT⟩
  · obtain ⟨v, hv, hT⟩ := honward (.inl hm)
    exact ⟨v, hv, htarget v hT⟩

/-- The exit is reached only from the line to it and from what leads there. -/
theorem leads_exit (hb : Builds h decl body n ins t s es outs u g)
    (hx : g.Leads x s.graph.exit.id) :
    x ∈ es.map (·.node.id) ++ [s.graph.exit.id] ∨ ∃ y, From (s.pending ++ s.returns) y := by
  induction hx using Relation.ReflTransGen.head_induction_on with
  | refl => exact .inl (List.mem_append_right _ (List.mem_singleton_self _))
  | @head x y hedge _ ih =>
    rcases ih with hline | hsome
    · obtain ⟨edge, hedge⟩ := hedge
      rw [hb.whole.edges] at hedge
      rcases List.mem_append.1 hedge with hedge | hedge
      · -- edges of the body do not lead to the line
        exfalso
        have hmem : y ∈ s.graph.ids :=
          FlowGraph.HasEdge.mem_right hb.body.grown.ext.sound.inRange ⟨edge, hedge⟩
        have hinner := (hb.edge_numbers hedge).2
        rcases List.mem_append.1 hline with hline | hline
        · exact (hb.inner_of_mem_es hline).2 hmem
        · rw [List.mem_singleton.1 hline, hb.exit_id] at hinner
          exact Nat.not_succ_le_self _ hinner
      · rcases (mem_lineArcs hedge).1 with hfrom | hmem
        · exact .inr ⟨x, hfrom⟩
        · exact .inl (List.mem_append_left _ hmem)
    · exact .inr hsome

/-! ### The whole graph -/

theorem idAt_entry (hb : Builds h decl body n ins t s es outs u g) :
    g.idAt FlowGraph.entryPosition = ⟨n⟩ :=
  (congrArg Node.id (FlowGraph.ends_eq hb.whole.part.nodes).1).trans hb.end_ids.1

theorem idAt_exit (hb : Builds h decl body n ins t s es outs u g) :
    g.idAt FlowGraph.exitPosition = s.graph.exit.id :=
  congrArg Node.id (FlowGraph.ends_eq hb.whole.part.nodes).2

/-- An edge starts at the entry or behind it, and leads to the exit or to a node that is
    neither. -/
theorem arc_numbers (hb : Builds h decl body n ins t s es outs u g) {arc : FlowArc}
    (harc : arc ∈ g.arcs) :
    (g.idAt arc.source = ⟨n⟩ ∨ Inner n (g.idAt arc.source)) ∧
      (g.idAt arc.target = ⟨n + 1⟩ ∨ Inner n (g.idAt arc.target)) := by
  have hedge : (g.idAt arc.source, g.idAt arc.target, arc.edge) ∈ g.edges :=
    List.mem_map.2 ⟨arc, harc, rfl⟩
  rw [hb.whole.edges] at hedge
  rcases List.mem_append.1 hedge with hedge | hedge
  · exact ⟨(hb.edge_numbers hedge).1, .inr (hb.edge_numbers hedge).2⟩
  · obtain ⟨hsource, htarget⟩ := mem_lineArcs hedge
    refine ⟨hsource.elim hb.end_numbers fun hmem => .inr (hb.inner_of_mem_es hmem).1, ?_⟩
    rcases List.mem_append.1 htarget with hmem | hmem
    · exact .inr (hb.inner_of_mem_es hmem).1
    · exact .inl ((List.mem_singleton.1 hmem).trans hb.exit_id)

/-- A loop head from which the exit is not reached is led to the exit head. -/
theorem head_steps (hb : Builds h decl body n ins t s es outs u g) {p : Nat} (hp : p < g.size)
    (hx : g.idAt p ∈ s.loopHeads) :
    g.Leads (g.idAt p) s.graph.exit.id ∨ (p, g.exitHead) ∈ g.steps := by
  refine (hb.whole.flags _ hx).symm.imp_right fun hflag => FlowGraph.mem_steps_iff.2 (.inr ?_)
  exact ⟨⟨_, hflag, (FlowGraph.position?_eq_some_iff hb.whole.nodup).2 ⟨hp, rfl⟩⟩, rfl⟩

/-- A way between nodes is one between their positions. -/
theorem leads_stepsTo (hb : Builds h decl body n ins t s es outs u g) {p q : Nat}
    (hp : p < g.size) (hq : q < g.size) (hl : g.Leads (g.idAt p) (g.idAt q)) : g.StepsTo p q :=
  hl.stepsTo hb.whole.inRange hb.whole.nodup hp hq rfl rfl

/-- The head of the exit is reached if the body ends or is left. -/
theorem end_reached (hb : Builds h decl body n ins t s es outs u g)
    (hx : From (s.pending ++ s.returns) x) : g.Leads ⟨n⟩ (g.idAt g.exitHead) := by
  have hmem : x ∈ s.graph.ids := by
    obtain ⟨p, hp, rfl⟩ := hx
    exact hb.ends_mem p hp
  have hne : x ≠ s.graph.exit.id := by
    rw [hb.exit_id]
    rintro rfl
    rcases hb.end_numbers hx with heq | hinner
    · simp at heq
    · exact Nat.not_succ_le_self _ hinner
  exact (hb.whole.part.leads (hb.body_reached hmem hne)).tail (hb.whole.line.1 x hx)

/-- Something leads to the line to the exit: an end of the body, or else a loop that
    nothing ends. -/
theorem exitHead_reached (hb : Builds h decl body n ins t s es outs u g) :
    g.StepsTo FlowGraph.entryPosition g.exitHead := by
  have hw := hb.whole
  by_cases hsome : ∃ x, From (s.pending ++ s.returns) x
  · obtain ⟨x, hx⟩ := hsome
    refine hb.leads_stepsTo g.entry_lt_size hw.exitHead ?_
    rw [hb.idAt_entry]
    exact hb.end_reached hx
  · have hentry : (⟨n⟩ : NodeId) ∈ s.graph.ids := by
      rw [← hb.end_ids.1]
      exact List.mem_cons_self
    obtain ⟨y, hleads, hy⟩ := hb.body_onward hentry (by simp [hb.exit_id])
    have hloop := hy.resolve_left fun hend => hsome ⟨y, hend⟩
    have hmem := hb.body.grown.ext.sound.loopHeads y hloop
    obtain ⟨q, hq, rfl⟩ := FlowGraph.exists_idAt_of_mem (hw.part.ids.subset hmem)
    refine .tail (hb.leads_stepsTo g.entry_lt_size hq ?_) ((hb.head_steps hq hloop).resolve_left
      fun hexits => ?_)
    · rw [hb.idAt_entry]
      exact hw.part.leads hleads
    · -- the line is not reached, and the head is not on it
      have hline := (hb.leads_exit hexits).resolve_right hsome
      have hinner := hb.inner_of_loopHead hloop
      rcases List.mem_append.1 hline with hline | hline
      · exact (hb.inner_of_mem_es hline).2 hmem
      · rw [List.mem_singleton.1 hline, hb.exit_id] at hinner
        exact Nat.not_succ_le_self _ hinner

/-- Every position is reached from the entry. -/
theorem reached (hb : Builds h decl body n ins t s es outs u g) {p : Nat} (hp : p < g.size) :
    g.StepsTo FlowGraph.entryPosition p := by
  have hw := hb.whole
  rcases hw.mem_ids (FlowGraph.idAt_mem hp) with ⟨hmem, hne⟩ | hline
  · refine hb.leads_stepsTo g.entry_lt_size hp ?_
    rw [hb.idAt_entry]
    exact hw.part.leads (hb.body_reached hmem hne)
  · exact hb.exitHead_reached.trans (hb.leads_stepsTo hw.exitHead hp (hw.line.2 _ hline).1)

/-- The exit is reached from every position, with the pseudo steps of endless loops. -/
theorem exits (hb : Builds h decl body n ins t s es outs u g) {p : Nat} (hp : p < g.size) :
    g.StepsTo p FlowGraph.exitPosition := by
  have hw := hb.whole
  have hto {q : Nat} (hq : q < g.size) (hl : g.Leads (g.idAt q) s.graph.exit.id) :
      g.StepsTo q FlowGraph.exitPosition :=
    hb.leads_stepsTo hq g.exit_lt_size (hb.idAt_exit ▸ hl)
  have hhead : g.StepsTo g.exitHead FlowGraph.exitPosition := by
    refine hto hw.exitHead (hw.line.2 _ ?_).2
    exact List.mem_of_mem_head? hw.first
  rcases hw.mem_ids (FlowGraph.idAt_mem hp) with ⟨hmem, hne⟩ | hline
  · obtain ⟨y, hleads, hy⟩ := hb.body_onward hmem hne
    have hleads := hw.part.leads hleads
    rcases hy with hend | hloop
    · exact (hb.leads_stepsTo hp hw.exitHead (hleads.tail (hw.line.1 y hend))).trans hhead
    · have hy : y ∈ g.ids := hw.part.ids.subset (hb.body.grown.ext.sound.loopHeads y hloop)
      obtain ⟨q, hq, rfl⟩ := FlowGraph.exists_idAt_of_mem hy
      refine (hb.leads_stepsTo hp hq hleads).trans ?_
      rcases hb.head_steps hq hloop with hexits | hstep
      exacts [hto hq hexits, .head hstep hhead]
  · exact hto hp (hw.line.2 _ hline).2

/-- The graph of a callable with a body is well formed. -/
theorem formed (hb : Builds h decl body n ins t s es outs u g) : g.Formed where
  nodup := hb.whole.nodup
  inRange := hb.whole.inRange
  exitHead := hb.whole.exitHead
  entry arc harc htarget := by
    have hnumber := (hb.arc_numbers harc).2
    rw [htarget, hb.idAt_entry] at hnumber
    rcases hnumber with heq | hinner
    · simp at heq
    · exact Nat.not_succ_le_self _ (Nat.le_of_succ_le hinner)
  exit q hstep := by
    have hinner : g.idAt FlowGraph.exitPosition = ⟨n⟩ ∨ Inner n (g.idAt FlowGraph.exitPosition) := by
      rcases FlowGraph.mem_steps_iff.1 hstep with ⟨arc, harc, hsource, -⟩ | ⟨⟨id, hid, hpos⟩, -⟩
      · exact hsource ▸ (hb.arc_numbers harc).1
      · rw [(FlowGraph.idAt_of_position?_eq_some hpos).2]
        exact .inr (hb.inner_of_loopHead (hb.whole.heads hid))
    rw [hb.idAt_exit, hb.exit_id] at hinner
    rcases hinner with heq | hinner
    · simp at heq
    · exact Nat.not_succ_le_self _ hinner
  reached _ hp := hb.reached hp
  exits _ hp := hb.exits hp

end Builds

end Lowering

namespace FlowGraph

/-- The graph of a callable without a body. -/
theorem bodyless_formed (decl : CallableDecl) (n : Nat) :
    ((ofDecl decl n).addArc (ofDecl decl n).entry.id (ofDecl decl n).exit.id
      ⟨.unconditional, none⟩).Formed := by
  have hnodup : (ofDecl decl n).ids.Nodup := (Lowering.start_sound decl n).nodup
  have hentry : (ofDecl decl n).position? (ofDecl decl n).entry.id = some entryPosition :=
    (position?_eq_some_iff hnodup).2 ⟨entry_lt_size _, rfl⟩
  have hexit : (ofDecl decl n).position? (ofDecl decl n).exit.id = some exitPosition :=
    (position?_eq_some_iff hnodup).2 ⟨exit_lt_size _, rfl⟩
  rw [addArc, hentry, hexit]
  have hstep : (entryPosition, exitPosition) ∈ steps { ofDecl decl n with
      arcs := (ofDecl decl n).arcs ++ [⟨entryPosition, exitPosition, ⟨.unconditional, none⟩⟩] } :=
    List.mem_cons_self
  have hpos (p : Nat) (hp : p < size { ofDecl decl n with
      arcs := (ofDecl decl n).arcs ++ [⟨entryPosition, exitPosition, ⟨.unconditional, none⟩⟩] }) :
      p = entryPosition ∨ p = exitPosition := by
    change p < 2 at hp
    change p = 0 ∨ p = 1
    omega
  refine ⟨hnodup, ?_, exit_lt_size _, ?_, ?_, fun p hp => ?_, fun p hp => ?_⟩
  · intro arc harc
    rw [List.mem_singleton.1 harc]
    exact ⟨entry_lt_size _, exit_lt_size _⟩
  · intro arc harc
    rw [List.mem_singleton.1 harc]
    decide
  · intro q hq
    have := List.mem_singleton.1 hq
    simp [entryPosition, exitPosition] at this
  · rcases hpos p hp with rfl | rfl
    exacts [.refl, .single hstep]
  · rcases hpos p hp with rfl | rfl
    exacts [.single hstep, .refl]

/-- Every flow graph that is built is well formed. -/
theorem build_formed {h : Hierarchy} {decl : CallableDecl} {n : Nat} {g : FlowGraph}
    (hg : (build h decl n).1 = .ok g) : g.Formed := by
  cases hbody : decl.body with
  | none =>
    simp only [build, hbody, Except.ok.injEq] at hg
    rw [← hg]
    exact bodyless_formed decl n
  | some body =>
    obtain ⟨ins, t, s, es, outs, u, hb⟩ := Lowering.build_eq_ok hbody hg
    exact hb.formed

end FlowGraph

end Slicing
