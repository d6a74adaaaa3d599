import Slicing.Proofs.Flow.Calls

/-!
# What decides about calls

In the flow graph of a callable, control passes the actual-outs of a call one behind the other
(`FlowSteps.Line`). What decides about the call therefore decides about its actual-outs as well,
unless control may leave the call before they are reached, by an exception: then the call does
(`FlowGraph.Orderly.control_actualOut`).
-/

namespace Slicing

namespace FlowSteps

variable {f : FlowSteps} {p k v w : Nat}

/-- The positions behind one, up to a number of them, are passed in line. -/
structure Line (f : FlowSteps) (p k : Nat) : Prop where
  exit : f.exit < p
  into : ∀ x y, (x, y) ∈ f.steps → p < y → y ≤ p + k → y = x + 1
  onward : ∀ x y, (x, y) ∈ f.steps → p < x → x ≤ p + k → y = x + 1
  next : ∀ x, p ≤ x → x < p + k → (x, x + 1) ∈ f.steps

/-- A way around the start of a line that begins elsewhere does not touch the line. -/
theorem Line.avoids (hl : f.Line p k) (he : f.Around p v) (hv : v ≤ p ∨ p + k < v) :
    f.Escapes (fun x => p ≤ x ∧ x ≤ p + k) v := by
  unfold Around at he
  induction he with
  | exit _ =>
    have := hl.exit
    exact .exit (by omega)
  | @step v w hne hstep _ ih =>
    have hw : w ≤ p ∨ p + k < w := by
      by_contra hin
      have := hl.into v w hstep (by omega) (by omega)
      omega
    exact .step (by omega) hstep (ih hw)

/-- A way along a line passes what is behind. -/
theorem Line.passes (hl : f.Line p k) (hv : p < v) (hvw : v ≤ w) (hw : w ≤ p + k) :
    ¬f.Around w v := by
  intro he
  unfold Around at he
  induction he with
  | exit _ =>
    have := hl.exit
    omega
  | step hne hstep _ ih =>
    have := hl.onward _ _ hstep hv (by omega)
    exact ih (by omega) (by omega)

end FlowSteps

namespace FlowGraph

variable {g : FlowGraph} {p k v w x y : Nat}

/-- What decides about the start of a line decides about the positions behind it, unless the
    start does. -/
theorem Formed.controls_line (hg : g.Formed) (hl : g.controlSteps.Line p k)
    (hw : p < w) (hwk : w ≤ p + k) (hc : g.Controls v p) (hv : v ≠ p) :
    g.Controls v w ∨ g.Controls p w := by
  obtain ⟨x, hx, hpx, hnot⟩ := hc
  have hvp : ¬g.controlSteps.PostDominates p v := fun hpv => hnot ⟨hv.symm, hpv⟩
  by_cases hwp : g.controlSteps.PostDominates w p
  · -- every way from the start passes the position, so it is as certain as the start is
    refine .inl ⟨x, hx, hwp.trans hpx, fun ⟨hne, hwv⟩ => ?_⟩
    have haround : g.controlSteps.Around p v := by
      by_contra haround
      exact hvp ⟨hwv.1, haround⟩
    by_cases hline : p < v ∧ v ≤ p + k
    · -- a position in line has one way to go on
      have hstep := hl.onward v x hx hline.1 hline.2
      cases haround with
      | exit _ =>
        have := hl.exit
        omega
      | step _ hstep' he =>
        rw [hl.onward _ _ hstep' hline.1 hline.2, ← hstep] at he
        exact hpx.2 he
    · refine hwv.2 ((hl.avoids haround (by omega)).mono ?_)
      rintro _ rfl
      omega
  · -- the line is left before the position, which only happens at the start
    have hstep := hl.next p (Nat.le_refl _) (by omega)
    have hlt := (hg.proper.controlSteps_inRange.steps _ hstep).2
    refine .inr ⟨p + 1, hstep, ⟨hg.controlSteps_exits hlt, ?_⟩, fun h => hwp h.2⟩
    exact hl.passes (by omega) (by omega) hwk

/-- The nodes through which a callable is entered and left. -/
structure Bounded (g : FlowGraph) : Prop where
  entry : g.entry.kind = .entry
  exit : g.exit.kind = .exit
  formalIns : ∀ x ∈ g.formalIns, ∃ node ∈ g.nodes, node.id = x ∧ ∃ position, node.kind = .formalIn position
  formalOuts : ∀ o ∈ g.formalOuts, ∃ node ∈ g.nodes, node.id = o.2 ∧ node.kind = .formalOut o.1
  slots : (g.formalOuts.map (·.1)).Nodup

/-- A graph in which control comes to actual-outs along the lines of their calls only. -/
structure Orderly (g : FlowGraph) : Prop where
  bounded : g.Bounded
  inLine : g.InLine
  flags : ∀ id ∈ g.nonTerminating, g.Bare id
  exitHead : g.Bare (g.idAt g.exitHead)

/-- The entry is no actual-out. -/
theorem Bounded.bare_entry (hb : g.Bounded) : g.Bare g.entry.id :=
  ⟨g.entry, List.mem_cons_self, rfl, by rw [hb.entry]; rfl⟩

theorem Bounded.bare_exit (hb : g.Bounded) : g.Bare g.exit.id :=
  ⟨g.exit, List.mem_cons_of_mem _ List.mem_cons_self, rfl, by rw [hb.exit]; rfl⟩

/-- What is in the middle of a list, by its position there. -/
theorem getElem?_middle {α : Type} (before mid after : List α) {i : Nat} (hi : i < mid.length) :
    (before ++ mid ++ after)[before.length + i]? = mid[i]? := by
  rw [List.append_assoc, List.getElem?_append_right (Nat.le_add_right _ _), Nat.add_sub_cancel_left,
    List.getElem?_append_left hi]

/-- Neighbours have neighbouring positions. -/
theorem eq_succ_of_adjacent (hg : g.ids.Nodup) (hx : x < g.size) (hy : y < g.size)
    (h : [g.idAt x, g.idAt y] <:+: g.ids) : y = x + 1 := by
  obtain ⟨before, after, hids⟩ := h
  have hsize : before.length + 1 < g.size := by
    rw [← length_ids, ← hids, List.length_append, List.length_append, List.length_cons, List.length_cons]
    omega
  have hat (i : Nat) (hi : i < 2) : some (g.idAt (before.length + i)) = [g.idAt x, g.idAt y][i]? := by
    rw [← idAt_eq (by omega), ← hids]
    exact getElem?_middle before _ after hi
  -- the two numbers stand at these positions, and at no others
  have hx' := idAt_injective hg (by omega) hx (Option.some.inj (hat 0 (by omega)))
  have hy' := idAt_injective hg (by omega) hy (Option.some.inj (hat 1 (by omega)))
  omega

/-- A step leads on in line, or joins two nodes that are no actual-outs. -/
theorem Orderly.step_cases (ho : g.Orderly) (hg : g.Formed) (h : (x, y) ∈ g.controlSteps.steps) :
    y = x + 1 ∨ g.Bare (g.idAt x) ∧ g.Bare (g.idAt y) := by
  rcases List.mem_append.1 h with h | h
  · rcases mem_steps_iff.1 h with ⟨arc, harc, rfl, rfl⟩ | ⟨⟨id, hid, hpos⟩, rfl⟩
    · obtain ⟨hx, hy⟩ := hg.inRange arc harc
      have hedge : (g.idAt arc.source, g.idAt arc.target, arc.edge) ∈ g.edges :=
        List.mem_map.2 ⟨arc, harc, rfl⟩
      exact (ho.inLine.edges _ hedge).symm.imp_left (eq_succ_of_adjacent hg.nodup hx hy)
    · refine .inr ⟨?_, ho.exitHead⟩
      rw [(idAt_of_position?_eq_some hpos).2]
      exact ho.flags id hid
  · obtain ⟨rfl, rfl⟩ := Prod.mk.inj (List.mem_singleton.1 h)
    exact .inr ⟨ho.bounded.bare_entry, ho.bounded.bare_exit⟩

/-- An actual-out is no other node. -/
theorem not_bare (hg : g.ids.Nodup) (hp : p < g.size) (hout : (g.nodeAt p).kind.isActualOut = true) :
    ¬g.Bare (g.idAt p) := by
  rintro ⟨node, hnode, hid, hkind⟩
  have heq := List.inj_on_of_nodup_map hg hnode (List.mem_of_getElem? (nodeAt_eq hp)) hid
  rw [heq, hout] at hkind
  cases hkind

/-- The positions of the nodes of a call. -/
theorem Laid.exists_position {r : CallSiteNodes} (hr : g.Laid r) :
    ∃ p, p + r.actualOuts.length < g.size ∧ (g.nodeAt p).id = r.callNode ∧
      (g.nodeAt p).kind = .call r.site.id ∧
      (∀ i (hi : i < r.actualOuts.length), IsOut r.site.id (g.nodeAt (p + (i + 1))) r.actualOuts[i]) ∧
      ∀ i < r.actualOuts.length, g.HasEdge (g.idAt (p + i)) (g.idAt (p + (i + 1))) := by
  obtain ⟨⟨call, outs, ⟨before, after, hnodes⟩, hid, hkind, -, houts, hchain⟩, -, -⟩ := hr
  have hlen := houts.length_eq
  have hsize : before.length + outs.length < g.size := by
    rw [size, ← hnodes, List.length_append, List.length_append, List.length_cons]
    omega
  -- the nodes of a call stand next to each other
  have hat (i : Nat) (hi : i < (call :: outs).length) :
      g.nodeAt (before.length + i) = (call :: outs)[i] := by
    have hget := getElem?_middle before (call :: outs) after hi
    rw [List.length_cons] at hi
    rw [hnodes, nodeAt_eq (by omega)] at hget
    exact (List.getElem?_eq_some_iff.1 hget.symm).2.symm
  have hcall : g.nodeAt before.length = call := hat 0 (Nat.zero_lt_succ _)
  refine ⟨before.length, by omega, hcall ▸ hid, hcall ▸ hkind, fun i hi => ?_, fun i hi => ?_⟩
  · have hi' : i + 1 < (call :: outs).length := by
      rw [List.length_cons]
      omega
    rw [hat (i + 1) hi', List.getElem_cons_succ]
    exact houts.get (hlen ▸ hi) hi
  · have hi' : i + 1 < (call :: outs).length := by
      rw [List.length_cons]
      omega
    rw [idAt, idAt, hat i (by omega), hat (i + 1) hi']
    exact List.isChain_iff_getElem.1 hchain i hi'

/-- The actual-outs of a call are passed in line. -/
theorem Orderly.exists_line (ho : g.Orderly) (hg : g.Formed) {r : CallSiteNodes}
    (hr : r ∈ g.callSites) : ∃ p, p < g.size ∧ g.idAt p = r.callNode ∧
      g.controlSteps.Line p r.actualOuts.length ∧ ∀ out ∈ r.actualOuts, ∃ w, p < w ∧
        w ≤ p + r.actualOuts.length ∧ g.idAt w = out.2 := by
  obtain ⟨p, hsize, hid, hkind, houts, hnext⟩ := (ho.inLine.calls r hr).exists_position
  have hnot (w : Nat) (hw : p < w) (hwk : w ≤ p + r.actualOuts.length) : ¬g.Bare (g.idAt w) := by
    obtain ⟨i, rfl⟩ := Nat.exists_eq_add_of_lt hw
    have hout := (houts i (by omega)).2
    exact not_bare hg.nodup (by omega) (by rw [Nat.add_assoc, hout]; rfl)
  refine ⟨p, by omega, hid, ⟨?_, ?_, ?_, ?_⟩, ?_⟩
  · -- the first two nodes are of other kinds
    by_contra hle
    change ¬1 < p at hle
    obtain rfl | rfl : p = 0 ∨ p = 1 := by omega
    · cases ho.bounded.entry.symm.trans hkind
    · cases ho.bounded.exit.symm.trans hkind
  · intro x y hstep hy hyk
    exact (ho.step_cases hg hstep).resolve_right fun hb => hnot y hy hyk hb.2
  · intro x y hstep hx hxk
    exact (ho.step_cases hg hstep).resolve_right fun hb => hnot x hx hxk hb.1
  · intro x hx hxk
    refine List.mem_append_left _ (mem_steps_iff.2 (.inl ?_))
    rw [← hasEdge_idAt_iff hg.inRange hg.nodup (by omega) (by omega)]
    obtain ⟨i, rfl⟩ := Nat.exists_eq_add_of_le hx
    exact hnext i (by omega)
  · intro out hmem
    obtain ⟨i, hi, rfl⟩ := List.mem_iff_getElem.1 hmem
    exact ⟨p + (i + 1), by omega, by omega, (houts i hi).1⟩

/-- What another node decides about a call, it decides about the actual-outs of the call, unless
    the call does. -/
theorem Orderly.control_actualOut (ho : g.Orderly) (hg : g.Formed) {ds : List ControlDependence}
    (hds : g.controlDependences = .ok ds) {r : CallSiteNodes} (hr : r ∈ g.callSites)
    {out : OutputSlot × NodeId} (hout : out ∈ r.actualOuts) {id : NodeId}
    (hd : ⟨id, r.callNode⟩ ∈ ds) (hne : id ≠ r.callNode) :
    ⟨id, out.2⟩ ∈ ds ∨ ⟨r.callNode, out.2⟩ ∈ ds := by
  obtain ⟨p, hp, hid, hline, houts⟩ := ho.exists_line hg hr
  obtain ⟨w, hw, hwk, hout⟩ := houts out hout
  obtain ⟨v, c, hc, heq⟩ := (hg.mem_controlDependences_iff hds).1 hd
  obtain ⟨rfl, hcall⟩ := ControlDependence.mk.inj heq
  have hlt : c < g.size := by
    obtain ⟨x, -, hpost, -⟩ := hc
    exact hpost.exits.lt hg.proper.controlSteps_inRange
  obtain rfl := idAt_injective hg.nodup hlt hp (hcall.symm.trans hid.symm)
  have hv : v ≠ c := by
    rintro rfl
    exact hne hid
  rcases hg.controls_line hline hw hwk hc hv with hc | hc
  · exact .inl ((hg.mem_controlDependences_iff hds).2 ⟨v, w, hc, by rw [hout]⟩)
  · exact .inr ((hg.mem_controlDependences_iff hds).2 ⟨c, w, hc, by rw [hout, hid]⟩)

end FlowGraph

/-! ## The graphs of callables -/

/-- A callable hands out each value once. -/
theorem CallableDecl.outputs_nodup (decl : CallableDecl) : decl.outputs.Nodup := by
  have hparams : (((List.range decl.params.length).filter decl.isByReference).map OutputSlot.param).Nodup :=
    (List.nodup_range.filter _).map fun _ _ h => OutputSlot.param.inj h
  rw [outputs]
  split
  · exact List.nodup_cons.2 ⟨by simp, hparams⟩
  · exact hparams

namespace Lowering

open FlowGraph

variable {h : Hierarchy} {decl : CallableDecl} {s t u : Lowering} {g : FlowGraph} {es : List Emission}

/-- A line without actual-outs. -/
theorem Emits.clear_of_plain (he : Emits h s es t) (hs : Clear s)
    (hp : ∀ p ∈ s.pending, s.graph.Bare p.source)
    (hplain : ∀ e ∈ es, e.node.kind.isActualOut = false) :
    Clear t ∧ ∀ p ∈ t.pending, t.graph.Bare p.source := by
  have hquiet : Quiet (es.map Emission.step) := by
    refine ⟨fun step hstep => ?_, fun step hstep hout => ?_⟩
    · rw [List.head?_map] at hstep
      obtain ⟨e, he', rfl⟩ := Option.map_eq_some_iff.1 hstep
      exact hplain e (List.mem_of_mem_head? he')
    · obtain ⟨e, he', rfl⟩ := List.mem_map.1 hstep
      cases (hplain e he').symm.trans hout
  refine ⟨he.clear hs hp hquiet, ?_⟩
  rw [he.pending_eq]
  cases hlast : es.getLast? with
  | none =>
    intro p hp'
    refine (hp p hp').mono ?_
    rw [he.nodes_eq]
    exact List.prefix_append _ _
  | some e =>
    have hmem := List.mem_of_getLast? hlast
    refine bare_plain ⟨e.node, ?_, rfl, hplain e hmem⟩
    rw [he.nodes_eq]
    exact List.mem_append_right _ (List.mem_map_of_mem hmem)

/-- In the beginning nothing waits behind an actual-out. -/
theorem start_clear (decl : CallableDecl) (n : Nat) :
    Clear (start decl n) ∧ ∀ p ∈ (start decl n).pending, (start decl n).graph.Bare p.source := by
  refine ⟨⟨(start_sound decl n).inRange, ⟨nofun, nofun⟩, nofun, nofun⟩, ?_⟩
  exact bare_plain ⟨_, List.mem_cons_self, rfl, rfl⟩

theorem Clear.withFormals (hs : Clear s) (ins : List NodeId) (outs : List (OutputSlot × NodeId)) :
    Clear (s.withFormals ins outs) :=
  ⟨hs.inRange, ⟨hs.graph.edges, fun r hr => (hs.graph.calls r hr).mono ⟨List.prefix_rfl, fun _ he => he⟩⟩,
    hs.collected, hs.loopHeads⟩

namespace Builds

variable {body : List Stmt} {n : Nat} {ins : List Emission} {outs : List (OutputSlot × NodeId)}

/-- The nodes in front of the body are formal-ins. -/
theorem ins_kind (hb : Builds h decl body n ins t s es outs u g) :
    ∀ e ∈ ins, ∃ position, e.node.kind = .formalIn position := by
  intro e he
  have hstep : e.step ∈ ins.map Emission.step := List.mem_map_of_mem he
  rw [hb.inSteps] at hstep
  obtain ⟨position, -, heq⟩ := List.mem_map.1 hstep
  exact ⟨position, congrArg (fun step => step.point.kind) heq.symm⟩

/-- The nodes behind the body are formal-outs. -/
theorem outs_kind (hb : Builds h decl body n ins t s es outs u g) :
    ∀ e ∈ es, ∃ slot, e.node.kind = .formalOut slot := by
  intro e he
  obtain ⟨out, -, hout⟩ := forall₂_mem_right hb.outNodes.flip he
  exact ⟨out.1, congrArg (fun step => step.point.kind) hout.2⟩

/-- What is lowered of a callable, up to its formal-outs. -/
theorem clear (hb : Builds h decl body n ins t s es outs u g) :
    (∀ x ∈ s.loopHeads, s.graph.Bare x) ∧ Clear u ∧ ∀ p ∈ u.pending, u.graph.Bare p.source := by
  obtain ⟨hstart, hpending⟩ := start_clear decl n
  obtain ⟨hopen, hpending⟩ := hb.opening.clear_of_plain hstart hpending fun e he => by
    obtain ⟨position, hkind⟩ := hb.ins_kind e he
    rw [hkind]
    rfl
  have hbody := hb.body.clear ⟨hopen.withFormals _ _, hpending, fun _ hf => hf.elim⟩
  refine ⟨hbody.clear.loopHeads, hb.closing.clear_of_plain (hbody.clear.withPending _) ?_ fun e he => ?_⟩
  · intro p hp
    rcases List.mem_append.1 hp with hp | hp
    · exact hbody.outputs p hp
    · exact hbody.clear.collected p (List.mem_append_right _ hp)
  · obtain ⟨slot, hkind⟩ := hb.outs_kind e he
    rw [hkind]
    rfl

theorem nodes_eq (hb : Builds h decl body n ins t s es outs u g) : g.nodes = u.graph.nodes :=
  hb.whole.nodes.trans hb.closing.nodes_eq.symm

/-- The edges of a callable are those made so far and those to its exit. -/
theorem edges_eq (hb : Builds h decl body n ins t s es outs u g) :
    g.edges = u.graph.edges ++ u.pending.map fun p => (p.source, s.graph.exit.id, p.edge) := by
  obtain ⟨-, -, hedges⟩ := hb.closing.edges_eq hb.body.grown.ext.sound.inRange hb.ends_mem
  rw [hb.whole.edges, lineArcs_concat, hedges, hb.closing.lineEnd_eq, List.append_assoc]
  rfl

theorem callSites_eq (hb : Builds h decl body n ins t s es outs u g) :
    g.callSites = u.graph.callSites := by
  obtain ⟨q, hq⟩ := headed_eq (exiting (u.withFormals s.graph.formalIns outs).graph u.pending)
  rw [hb.graph, hq]
  exact foldl_addArc_callSites _ fun g p => (p.source, g.exit.id, p.edge)

theorem formals_eq (hb : Builds h decl body n ins t s es outs u g) :
    g.formalIns = ins.map (·.node.id) ∧ g.formalOuts = outs := by
  have hframe := exiting_frame (u.withFormals s.graph.formalIns outs).graph u.pending
  obtain ⟨q, hq⟩ := headed_eq (exiting (u.withFormals s.graph.formalIns outs).graph u.pending)
  rw [hb.graph, hq]
  exact ⟨hframe.formalIns.trans hb.body.grown.ext.frame.formalIns, hframe.formalOuts⟩

/-- A callable starts with its entry, its exit and its formal-ins. -/
theorem opening_nodes (hb : Builds h decl body n ins t s es outs u g) :
    (start decl n).graph.nodes ++ ins.map (·.node) <+: g.nodes := by
  rw [← hb.opening.nodes_eq]
  exact List.IsPrefix.trans hb.body.nodes hb.whole.part.nodes

/-- A callable that is built is entered and left through nodes of the right kinds. -/
theorem bounded (hb : Builds h decl body n ins t s es outs u g) : g.Bounded := by
  obtain ⟨hins, houts⟩ := hb.formals_eq
  obtain ⟨hentry, hexit⟩ := ends_eq (List.IsPrefix.trans (List.prefix_append _ _) hb.opening_nodes)
  refine ⟨hentry ▸ rfl, hexit ▸ rfl, fun x hx => ?_, fun o ho => ?_, ?_⟩
  · rw [hins] at hx
    obtain ⟨e, he, rfl⟩ := List.mem_map.1 hx
    exact ⟨e.node, hb.opening_nodes.subset (List.mem_append_right _ (List.mem_map_of_mem he)), rfl,
      hb.ins_kind e he⟩
  · rw [houts] at ho
    obtain ⟨e, he, hid, hstep⟩ := forall₂_mem_right hb.outNodes ho
    refine ⟨e.node, ?_, hid, congrArg (fun step => step.point.kind) hstep⟩
    rw [hb.whole.nodes]
    exact List.mem_append_right _ (List.mem_map_of_mem he)
  · rw [houts, hb.slots]
    exact decl.outputs_nodup

/-- In a callable that is built control comes to actual-outs along the lines of their calls only. -/
theorem orderly (hb : Builds h decl body n ins t s es outs u g) : g.Orderly := by
  obtain ⟨hheads, hclear, hpending⟩ := hb.clear
  have hbounded := hb.bounded
  have hexit : g.exit = s.graph.exit := (ends_eq hb.whole.part.nodes).2
  have hpart : u.graph.PartOf g :=
    ⟨hb.nodes_eq ▸ List.prefix_rfl, hb.edges_eq ▸ List.subset_append_left _ _⟩
  refine ⟨hbounded, ⟨fun e he => ?_, fun r hr => ?_⟩, fun x hx => ?_, ?_⟩
  · rw [hb.edges_eq] at he
    rcases List.mem_append.1 he with he | he
    · exact (hclear.graph.edges e he).imp (fun hb => ⟨hb.1.mono hpart.nodes, hb.2.mono hpart.nodes⟩)
        fun hwithin => hwithin.trans hpart.ids.isInfix
    · obtain ⟨p, hp, rfl⟩ := List.mem_map.1 he
      exact .inl ⟨(hpending p hp).mono hpart.nodes, hexit ▸ hbounded.bare_exit⟩
  · exact (hclear.graph.calls r (hb.callSites_eq ▸ hr)).mono hpart
  · exact (hheads x (hb.whole.heads hx)).mono hb.whole.part.nodes
  · -- the exit head is a formal-out or the exit
    have hhead := List.mem_of_mem_head? hb.whole.first
    rcases List.mem_append.1 hhead with hhead | hhead
    · obtain ⟨e, he, hid⟩ := List.mem_map.1 hhead
      obtain ⟨slot, hkind⟩ := hb.outs_kind e he
      refine ⟨e.node, ?_, hid, by rw [hkind]; rfl⟩
      rw [hb.whole.nodes]
      exact List.mem_append_right _ (List.mem_map_of_mem he)
    · rw [List.mem_singleton.1 hhead, ← hexit]
      exact hbounded.bare_exit

end Builds

end Lowering

namespace FlowGraph

/-- The graph of a callable without a body. -/
theorem bodyless_orderly (decl : CallableDecl) (n : Nat) :
    ((ofDecl decl n).addArc (ofDecl decl n).entry.id (ofDecl decl n).exit.id
      ⟨.unconditional, none⟩).Orderly := by
  have hentry : (ofDecl decl n).entry.id ∈ (ofDecl decl n).ids := List.mem_cons_self
  have hexit : (ofDecl decl n).exit.id ∈ (ofDecl decl n).ids :=
    List.mem_cons_of_mem _ List.mem_cons_self
  have hedges := edges_addArc hentry hexit ⟨.unconditional, none⟩
  have hcalls := callSites_addArc (ofDecl decl n) (ofDecl decl n).entry.id (ofDecl decl n).exit.id
    ⟨.unconditional, none⟩
  have hframe := SameFrame.addArc (ofDecl decl n) (ofDecl decl n).entry.id (ofDecl decl n).exit.id
    ⟨.unconditional, none⟩
  have hends := ends_eq (PartOf.addArc (ofDecl decl n) (ofDecl decl n).entry.id (ofDecl decl n).exit.id
    ⟨.unconditional, none⟩).nodes
  -- of the graph matters only what the arc has not changed
  generalize (ofDecl decl n).addArc (ofDecl decl n).entry.id (ofDecl decl n).exit.id
    ⟨.unconditional, none⟩ = g at *
  have hbounded : g.Bounded := by
    refine ⟨hends.1 ▸ rfl, hends.2 ▸ rfl, ?_, ?_, ?_⟩
    · rw [hframe.formalIns]
      exact nofun
    · rw [hframe.formalOuts]
      exact nofun
    · rw [hframe.formalOuts]
      exact List.nodup_nil
  refine ⟨hbounded, ⟨fun e he => ?_, fun r hr => ?_⟩, fun x hx => ?_, ?_⟩
  · rw [hedges] at he
    rw [List.mem_singleton.1 he]
    exact .inl ⟨hends.1 ▸ hbounded.bare_entry, hends.2 ▸ hbounded.bare_exit⟩
  · rw [hcalls] at hr
    cases hr
  · rw [hframe.nonTerminating] at hx
    cases hx
  · rw [hframe.exitHead]
    exact hbounded.bare_exit

/-- In every flow graph that is built, control comes to actual-outs along the lines of their
    calls only. -/
theorem build_orderly {h : Hierarchy} {decl : CallableDecl} {n : Nat} {g : FlowGraph}
    (hg : (build h decl n).1 = .ok g) : g.Orderly := by
  cases hbody : decl.body with
  | none =>
    simp only [build, hbody, Except.ok.injEq] at hg
    rw [← hg]
    exact bodyless_orderly decl n
  | some body =>
    obtain ⟨ins, t, s, es, outs, u, hb⟩ := Lowering.build_eq_ok hbody hg
    exact hb.orderly

end FlowGraph

end Slicing
