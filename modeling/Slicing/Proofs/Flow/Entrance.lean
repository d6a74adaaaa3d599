import Slicing.Proofs.Flow.Inversion

/-!
# Where parts are entered

If a part has nodes, all arcs that it starts from lead to the first of them
(`Lowered.entered`): a construct is entered at the first of the calls that it evaluates,
and a part that begins with parts without nodes is entered at the first part with one.
-/

namespace Slicing

namespace Lowering

variable {h : Hierarchy} {s s' t u v : Lowering} {P Q H K : NodeId → Prop} {id x : NodeId}
  {p : Pending} {ps : List Pending}

/-- Some arcs lead to the node at a position. -/
def Entered (ps : List Pending) (q : Nat) (g : FlowGraph) : Prop :=
  ∀ p ∈ ps, g.HasEdge p.source (g.idAt q)

/-- What is entered at a position stays so in a larger graph. -/
theorem Entered.mono {q : Nat} {g g' : FlowGraph} (hent : Entered ps q g) (hq : q < g.size)
    (hg : g.PartOf g') : Entered ps q g' := by
  intro p hp
  rw [hg.idAt_eq hq]
  exact hg.hasEdge (hent p hp)

/-- Lowering only adds to the graph. -/
theorem Lowered.graph {part : Part} (hl : Lowered h part s s') : s.graph.PartOf s'.graph :=
  hl.grown.ext.graph

section Constructs

variable {point : Point} {effects : Effects} {head : NodeId}

/-- A construct starts at the first node that it adds. -/
theorem Constructs.head_eq (hc : Constructs h s point effects head id t) :
    head = t.graph.idAt s.graph.size := by
  obtain ⟨es, he, -, hhead, -⟩ := hc
  have hne : es.map (·.node.id) ≠ [] := by
    rintro hnil
    rw [List.map_eq_nil_iff.1 hnil] at hhead
    simp at hhead
  have := FlowGraph.head?_eq_idAt he.ids_eq hne
  rw [List.head?_map, hhead] at this
  exact Option.some.inj this

/-- A construct is entered from what waited for it. -/
theorem Constructs.entered (hc : Constructs h s point effects head id t) (hs : s.Sound)
    (hne : s.pending ≠ []) (hp : ∀ p ∈ s.pending, p.source ∈ s.graph.ids) :
    Entered s.pending s.graph.size t.graph := by
  rw [Entered, ← hc.head_eq]
  obtain ⟨es, he, -, hhead, -⟩ := hc
  obtain ⟨e, he', rfl⟩ := Option.map_eq_some_iff.1 hhead
  exact (he.chain hs hne hp).1 e he'

end Constructs

theorem foldl_addArc_partOf (g : FlowGraph) (ps : List Pending)
    (f : Pending → NodeId × NodeId × FlowEdge) :
    g.PartOf (ps.foldl (fun g p => g.addArc (f p).1 (f p).2.1 (f p).2.2) g) := by
  induction ps generalizing g with
  | nil => exact .refl g
  | cons p ps ih => exact (FlowGraph.PartOf.addArc g _ _ _).trans (ih _)

theorem closed_graph (s : Lowering) (head : NodeId) (tails : List Pending) :
    s.graph.PartOf (s.closed head tails).graph :=
  foldl_addArc_partOf s.graph tails fun p => (p.source, head, backEdge p.edge)

theorem placed_graph (hs : s.graph.InRange) (node : Node) : s.graph.PartOf (s.placed node).graph := by
  refine .trans ⟨?_, ?_⟩ (foldl_addArc_partOf (s.graph.addNode node) s.pending fun p =>
    (p.source, node.id, p.edge))
  · rw [FlowGraph.nodes_addNode]
    exact List.prefix_append _ _
  · rw [FlowGraph.edges_addNode hs]
    exact List.Subset.refl _

/-- What it means that a part is entered at its first node. -/
def Part.EnteredAt (s s' : Lowering) : Part → Prop
  | .stmt _ | .block _ | .update _ => Entered s.pending s.graph.size s'.graph
  | _ => True

/-- A part that follows one without nodes is entered from the same arcs. -/
theorem Entered.of_same (hsame : Same s t) (hsize : t.graph.size = s.graph.size)
    {g : FlowGraph} (hent : Entered t.pending t.graph.size g) : Entered s.pending s.graph.size g := by
  rw [← hsame.pending, ← hsize]
  exact hent

/-- The test of a loop behind what the loop starts with. -/
theorem loop_entered {init : List Stmt} {point : Point} {effects : Effects} {head : NodeId}
    (hl : Lowered h (.block init) s t)
    (ih : s.graph.size < t.graph.size → Entered s.pending s.graph.size t.graph)
    (hne : t.pending ≠ []) (hc : Constructs h t point effects head id u) :
    Entered s.pending s.graph.size u.graph := by
  have hext := hc.extends hl.grown.ext.sound hne (hl.grown.outputs_mem hl.ready)
  rcases Nat.lt_or_eq_of_le hl.size_le with hlt | heq
  · exact (ih hlt).mono hlt hext.graph
  · refine Entered.of_same (hl.inert heq.symm).1 heq.symm ?_
    exact hc.entered hl.grown.ext.sound hne (hl.grown.outputs_mem hl.ready)

/-- The test of a loop behind its body. -/
theorem foot_entered {body : List Stmt} {point : Point} {effects : Effects} {head : NodeId}
    (hs : ∀ p ∈ s.pending, p.source ∈ s.graph.ids)
    (hl : Lowered h (.block body) (s.entered (.loop [] [])) t)
    (ih : s.graph.size < t.graph.size → Entered s.pending s.graph.size t.graph)
    (hne : t.pending ++ t.innermost.continues ≠ [])
    (hc : Constructs h (t.left.withPending (t.pending ++ t.innermost.continues)) point effects head
      id u) : Entered s.pending s.graph.size u.graph := by
  have hready := continue_ready s.pending hs hl.grown []
  rcases Nat.lt_or_eq_of_le hl.size_le with hgrow | heq
  · exact (ih hgrow).mono hgrow (hc.extends hready.sound hne hready.inputs).graph
  · -- the frontier comes through the body unchanged, and nothing is added to it
    have hsame := (hl.inert heq.symm).1
    have hpending : t.pending ++ t.innermost.continues = s.pending := by
      rw [hsame.innermost_eq.1, hsame.pending]
      exact List.append_nil _
    have hent := hc.entered hready.sound hne hready.inputs
    rw [withPending_pending, hpending, withPending_graph, left_graph, ← heq] at hent
    exact hent

/-- A part that adds nodes is entered at the first one. -/
theorem Lowered.entered {part : Part} (hl : Lowered h part s s')
    (hlt : s.graph.size < s'.graph.size) : part.EnteredAt s s' := by
  induction hl with
  | skip _ _ => exact absurd hlt (Nat.lt_irrefl _)
  | simple hr hne hc => exact hc.entered hr.sound hne hr.inputs
  | branch hr hne hc hl₁ hl₂ _ _ =>
    exact (hc.entered hr.sound hne hr.inputs).mono hc.nodes.2 (hl₁.graph.trans hl₂.graph)
  | loopUnentered _ _ _ _ _ ih => exact ih hlt
  | tested _ _ _ _ hl₁ hne hc hl₂ ih _ =>
    exact (loop_entered hl₁ ih hne hc).mono (Nat.lt_of_le_of_lt hl₁.size_le hc.nodes.2) hl₂.graph
  | endless _ _ _ _ hl₁ hne hc hl₂ ih _ =>
    have hent := (loop_entered hl₁ ih hne hc).mono (Nat.lt_of_le_of_lt hl₁.size_le hc.nodes.2)
      hl₂.graph
    split
    exacts [hent, hent]
  | rounds => trivial
  | updateUnentered _ _ => exact absurd hlt (Nat.lt_irrefl _)
  | update _ _ _ ih => exact ih hlt
  | footless _ _ _ _ ih => exact ih hlt
  | footed hr _ hl hne hc ih =>
    exact (foot_entered hr.inputs hl ih hne hc).mono (Nat.lt_of_le_of_lt hl.size_le hc.nodes.2)
      (closed_graph _ _ _)
  | select hr hne hc hl _ => exact (hc.entered hr.sound hne hr.inputs).mono hc.nodes.2 hl.graph
  | casesEnd => trivial
  | case => trivial
  | jump hr hne _ hc => exact hc.entered hr.sound hne hr.inputs
  | tryPlain _ _ hl₁ hl₂ ih₁ _ =>
    rcases Nat.lt_or_eq_of_le hl₁.size_le with hgrow | heq
    · exact (ih₁ hgrow).mono hgrow hl₂.graph
    · exact absurd (try_size hl₁ hl₂ heq.symm) (Nat.ne_of_gt hlt)
  | tryNodeless _ _ hl₁ hl₂ hl₃ hsize ih₁ _ _ =>
    rw [sentAll_graph] at hlt
    simp only [Part.EnteredAt, sentAll_graph]
    rcases Nat.lt_or_eq_of_le hl₁.size_le with hgrow | heq
    · exact (ih₁ hgrow).mono hgrow (hl₂.graph.trans hl₃.graph)
    · exact absurd (hsize.trans (try_size hl₁ hl₂ heq.symm)) (Nat.ne_of_gt hlt)
  | tryFinally _ _ hl₁ hl₂ hl₃ hsize ih₁ _ ih₃ =>
    simp only [Part.EnteredAt, sentAll_graph]
    rcases Nat.lt_or_eq_of_le hl₁.size_le with hgrow | heq
    · exact (ih₁ hgrow).mono hgrow (hl₂.graph.trans hl₃.graph)
    · -- only the `finally` block has nodes, and the frontier comes to it unchanged
      have hsize₂ := try_size hl₁ hl₂ heq.symm
      obtain ⟨rfl, hsame₂⟩ := hl₂.inert (hsize₂.trans heq)
      obtain ⟨hescapes, hsame⟩ := try_inert (hl₁.inert heq.symm).1 hsame₂
      have hent := ih₃ (Nat.lt_of_le_of_ne hl₃.size_le hsize.symm)
      refine Entered.of_same hsame hsize₂ ?_
      simpa [hescapes, Part.EnteredAt] using hent
  | catchesEnd => trivial
  | catchesUnhandled => trivial
  | catchUnentered => trivial
  | «catch» => trivial
  | nested _ _ _ ih => exact ih hlt
  | blockEnd _ => exact absurd hlt (Nat.lt_irrefl _)
  | blockNext _ hl₁ hl₂ ih₁ ih₂ =>
    rcases Nat.lt_or_eq_of_le hl₁.size_le with hgrow | heq
    · exact (ih₁ hgrow).mono hgrow hl₂.graph
    · exact Entered.of_same (hl₁.inert heq.symm).1 heq.symm (ih₂ (heq ▸ hlt))

end Lowering

end Slicing
