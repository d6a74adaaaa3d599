import Slicing.Proofs.Flow.Entrance

/-!
# Where edges come from

The edges that lowering a part adds start at new nodes, or they are arcs that the part starts from
and have found their target (`Lowered.springs`): with their label, unless they were led back to the
head of a loop. If the part is a statement or a block, that target is its first node.

So no node that was there before gets an edge of which nothing was waiting, and a `finally` block
is entered at its start only.
-/

namespace Slicing

namespace Lowering

variable {h : Hierarchy} {s s' t u : Lowering} {P Q H K B C : NodeId → Prop} {id y : NodeId}
  {p : Pending} {ps ins ins' : List Pending}

/-- An edge is an arc that has found its target, maybe the head of a loop. -/
def Yields (p : Pending) (e : NodeId × NodeId × FlowEdge) : Prop :=
  e.1 = p.source ∧ (e.2.2 = p.edge ∨ e.2.2 = backEdge p.edge)

/-- The first node that came in between two states. -/
def First (s s' : Lowering) (y : NodeId) : Prop :=
  s.graph.size < s'.graph.size ∧ y = s'.graph.idAt s.graph.size

/-- Where the arcs may lead that a part starts from. -/
def Part.Begins (s s' : Lowering) : Part → NodeId → Prop
  | .stmt _ | .block _ | .update _ => First s s'
  | _ => fun _ => True

/-- The edges that come in between two states start at new nodes, or they are among some arcs and
    lead to nodes with a property. -/
def Springs (ins : List Pending) (B : NodeId → Prop) (s s' : Lowering) : Prop :=
  Adds (fun e => Made s s' e.1 ∨ (∃ p ∈ ins, Yields p e) ∧ B e.2.1) s.graph.edges s'.graph.edges

/-- The first new node stays the first one. -/
theorem First.mono (hg : t.graph.PartOf u.graph) (hy : First s t y) : First s u y :=
  ⟨Nat.lt_of_lt_of_le hy.1 hg.size_le, hy.2.trans (hg.idAt_eq hy.1).symm⟩

theorem First.mem (hy : First s s' y) : y ∈ s'.graph.ids := hy.2 ▸ FlowGraph.idAt_mem hy.1

/-- What adds no nodes leaves the first one to what comes behind. -/
theorem First.of_size (hsize : t.graph.size = s.graph.size) (hy : First t u y) : First s u y := by
  rw [First, ← hsize]
  exact hy

namespace Springs

theorem refl (ins : List Pending) (B : NodeId → Prop) (s : Lowering) : Springs ins B s s :=
  Adds.refl _ _

/-- Edges may lead to more nodes. -/
theorem imp (hB : ∀ y, B y → C y) (hs : Springs ins B s t) : Springs ins C s t :=
  Adds.imp (fun _ he => he.imp_right fun hi => ⟨hi.1, hB _ hi.2⟩) hs

/-- Edges may start from more arcs. -/
theorem widen (hin : ins ⊆ ins') (hs : Springs ins B s t) : Springs ins' (fun _ => True) s t :=
  Adds.imp (fun _ he => he.imp_right fun ⟨⟨p, hp, hy⟩, _⟩ => ⟨⟨p, hin hp, hy⟩, trivial⟩) hs

/-- What follows starts from new nodes, or from the same arcs. -/
theorem trans (h₁ : Springs ins B s t) (h₂ : Springs ins' C t u) (hle : s.nextId ≤ t.nextId)
    (hg : t.graph.PartOf u.graph)
    (hin : ∀ p ∈ ins', Made s t p.source ∨ p ∈ ins ∧ ∀ y, C y → B y) : Springs ins B s u := by
  refine Adds.trans (Adds.imp (fun e he => he.imp_left (·.of_nodes hg.nodes)) h₁)
    (Adds.imp (fun e he => ?_) h₂)
  rcases he with hm | ⟨⟨p, hp, hy⟩, hC⟩
  · exact .inl ⟨hm.1, Nat.le_trans hle hm.2⟩
  · rcases hin p hp with hm | ⟨hmem, hB⟩
    · exact .inl (hy.1 ▸ hm.of_nodes hg.nodes)
    · exact .inr ⟨⟨p, hmem, hy⟩, hB _ hC⟩

/-- What follows starts from new nodes. -/
theorem behind (h₁ : Springs ins (First s t) s t) (h₂ : Springs ins' C t u) (hle : s.nextId ≤ t.nextId)
    (hg : t.graph.PartOf u.graph) (hin : ∀ p ∈ ins', Made s t p.source) :
    Springs ins (First s u) s u :=
  (h₁.imp fun _ hy => hy.mono hg).trans h₂ hle hg fun p hp => .inl (hin p hp)

/-- What follows starts from new nodes, or from the same arcs if there are none so far. -/
theorem next (h₁ : Springs ins (First s t) s t) (h₂ : Springs ins' (First t u) t u)
    (hle : s.nextId ≤ t.nextId) (hg : t.graph.PartOf u.graph)
    (hin : ∀ p ∈ ins', Made s t p.source ∨ p ∈ ins ∧ t.graph.size = s.graph.size) :
    Springs ins (First s u) s u :=
  (h₁.imp fun _ hy => hy.mono hg).trans h₂ hle hg fun p hp =>
    (hin p hp).imp_right fun hmem => ⟨hmem.1, fun _ hy => hy.of_size hmem.2⟩

/-- The edges that close a loop start at its tails. -/
theorem closed (hs : Springs ins B s t) (head : NodeId) (tails : List Pending)
    (hhead : head ∈ t.graph.ids) (hmem : ∀ p ∈ tails, p.source ∈ t.graph.ids) (hB : B head)
    (htails : ∀ p ∈ tails, Made s t p.source ∨ p ∈ ins) : Springs ins B s (t.closed head tails) := by
  have hids : (t.closed head tails).graph.ids = t.graph.ids := closed_ids t head tails
  have hmade {id : NodeId} (hm : Made s t id) : Made s (t.closed head tails) id := ⟨hids ▸ hm.1, hm.2⟩
  rw [Springs, closed_edges head tails hhead hmem]
  refine Adds.trans (Adds.imp (fun e he => he.imp_left hmade) hs) ⟨_, rfl, fun e he => ?_⟩
  obtain ⟨p, hp, rfl⟩ := List.mem_map.1 he
  exact (htails p hp).imp hmade fun hin => ⟨⟨p, hin, rfl, .inr rfl⟩, hB⟩

theorem sentAll {ps : List Pending} (hs : Springs ins (First s t) s t)
    (escapes : List (Pending × Escape)) :
    Springs ins (First s ((t.withPending ps).sentAll h escapes)) s
      ((t.withPending ps).sentAll h escapes) := by
  simp only [Springs, First, Made, sentAll_graph]
  exact hs

end Springs

/-! ## Constructs -/

/-- The arcs of a line enter its first node, or start at its nodes. -/
theorem mem_lineArcs_cons {ids : List NodeId} {e : NodeId × NodeId × FlowEdge}
    (he : e ∈ lineArcs ps (id :: ids)) : (∃ p ∈ ps, e = (p.source, id, p.edge)) ∨
      e.1 ∈ id :: ids ∧ e.2.2 = ⟨.unconditional, none⟩ := by
  rcases mem_lineArcs_iff.1 he with ⟨p, hp, first, hfirst, rfl⟩ | ⟨x, y, hxy, rfl⟩
  · rw [← Option.some.inj hfirst]
    exact .inl ⟨p, hp, rfl⟩
  · exact .inr ⟨hxy.subset List.mem_cons_self, rfl⟩

section Constructs

variable {point : Point} {effects : Effects} {head : NodeId}

theorem Constructs.nextId_le (hc : Constructs h s point effects head id t) : s.nextId ≤ t.nextId :=
  let ⟨_, he, _⟩ := hc
  he.nextId_le

/-- A construct only adds to the graph. -/
theorem Constructs.graph (hc : Constructs h s point effects head id t) (hs : s.Sound)
    (hp : ∀ p ∈ s.pending, p.source ∈ s.graph.ids) : s.graph.PartOf t.graph := by
  refine ⟨hc.nodes.1, ?_⟩
  obtain ⟨es, he, -⟩ := hc
  rw [(he.edges_eq hs.inRange hp).2.2]
  exact List.subset_append_left _ _

/-- The arcs that a construct starts from lead to the first of its nodes. -/
theorem Constructs.springs (hc : Constructs h s point effects head id t) (hs : s.Sound)
    (hp : ∀ p ∈ s.pending, p.source ∈ s.graph.ids) : Springs s.pending (First s t) s t := by
  have hhead := hc.head_eq
  have hlt := hc.nodes.2
  obtain ⟨es, he, -, hfirst, -⟩ := hc
  obtain ⟨e, he', rfl⟩ := Option.map_eq_some_iff.1 hfirst
  obtain ⟨rest, rfl⟩ : ∃ rest, es = e :: rest := List.head?_eq_some_iff.1 he'
  refine ⟨_, (he.edges_eq hs.inRange hp).2.2, fun arc harc => ?_⟩
  rcases mem_lineArcs_cons harc with ⟨p, hmem, rfl⟩ | ⟨hmem, -⟩
  · exact .inr ⟨⟨p, hmem, rfl, .inl rfl⟩, hlt, hhead⟩
  · obtain ⟨e', hmem', heq⟩ := List.mem_map.1 (show arc.1 ∈ (e :: rest).map (·.node.id) from hmem)
    refine .inl ⟨?_, heq ▸ he.le_of_mem e' hmem'⟩
    rw [he.ids_eq, ← heq]
    exact List.mem_append_right _ (List.mem_map_of_mem hmem')

end Constructs

/-! ## Derivations -/

theorem Lowered.nextId_le {part : Part} (hl : Lowered h part s s') : s.nextId ≤ s'.nextId :=
  hl.grown.ext.nextId

/-- The test of a loop, behind what the loop starts with. -/
theorem test_springs {init : List Stmt} {point : Point} {effects : Effects} {head : NodeId}
    (hl : Lowered h (.block init) s t) (ih : Springs s.pending (First s t) s t)
    (hc : Constructs h t point effects head id u) : Springs s.pending (First s u) s u := by
  have hin := hl.grown.outputs_mem hl.ready
  exact ih.next (hc.springs hl.grown.ext.sound hin) hl.nextId_le (hc.graph hl.grown.ext.sound hin)
    hl.grown.outputs

/-- A `switch` starts from the arcs that lead to its first case. -/
theorem caseFrontier_subset (s : Lowering) (source : Element) (selector : NodeId)
    (fallthrough : List Pending) (c : SwitchCase Stmt) (cases : List (SwitchCase Stmt)) :
    caseFrontier selector fallthrough c.label ⊆
      Part.inputs s (.cases source selector fallthrough (c :: cases)) :=
  List.append_subset.2 ⟨List.subset_append_left _ _, fun _ hp =>
    List.mem_append_right _ (List.mem_append_left _ hp)⟩

/-- What follows the body of a loop starts from new nodes, or from what the body started from. -/
theorem loop_inputs {body : List Stmt} (ps : List Pending)
    (hl : Lowered h (.block body) ((s.withPending ps).entered (.loop [] [])) t) :
    ∀ p ∈ t.pending ++ t.innermost.continues,
      Made s t p.source ∨ p ∈ ps ∧ t.graph.size = s.graph.size := by
  intro p hp
  rcases List.mem_append.1 hp with hp | hp
  · exact hl.grown.outputs p hp
  · exact .inl (hl.grown.ext.leave.2.of_loop.2 p hp)

section Foot

variable {body : List Stmt} {point : Point} {effects : Effects} {head : NodeId}

/-- A loop with its test behind the body begins at the first node of the body, or at its test if
    there is none. -/
theorem foot_first (hl : Lowered h (.block body) (s.entered (.loop [] [])) t)
    (hc : Constructs h (t.left.withPending (t.pending ++ t.innermost.continues)) point effects head
      id u) :
    First s u (if s.graph.size < t.graph.size then u.graph.idAt s.graph.size else head) := by
  have hsize : _ ≤ _ := hl.size_le
  have hgrow := hc.nodes.2
  simp only [withPending_graph, entered_graph, left_graph] at hsize hgrow
  refine ⟨Nat.lt_of_le_of_lt hsize hgrow, ?_⟩
  split
  · rfl
  · rw [hc.head_eq, withPending_graph, left_graph, Nat.le_antisymm (Nat.le_of_not_lt ‹_›) hsize]

/-- The edges of a loop with its test behind start at its nodes, or enter it. -/
theorem footed_springs (hp : ∀ p ∈ s.pending, p.source ∈ s.graph.ids)
    (hl : Lowered h (.block body) (s.entered (.loop [] [])) t)
    (ih : Springs s.pending (First s t) s t)
    (hc : Constructs h (t.left.withPending (t.pending ++ t.innermost.continues)) point effects head
      id u) :
    Springs s.pending
      (First s (u.closed (if s.graph.size < t.graph.size then u.graph.idAt s.graph.size else head)
        [.plain id .loopBack])) s
      (u.closed (if s.graph.size < t.graph.size then u.graph.idAt s.graph.size else head)
        [.plain id .loopBack]) := by
  have hready := continue_ready s.pending hp hl.grown []
  have hu : Springs s.pending (First s u) s u :=
    ih.next (hc.springs hready.sound hready.inputs) hl.nextId_le
      (hc.graph hready.sound hready.inputs) (loop_inputs s.pending hl)
  have hhead := foot_first hl hc
  have hid : Made s u id := ⟨hc.made.2.1, Nat.le_trans hl.nextId_le hc.made.2.2⟩
  have hmono (y : NodeId) (hy : First s u y) := hy.mono (closed_graph u
    (if s.graph.size < t.graph.size then u.graph.idAt s.graph.size else head) [.plain id .loopBack])
  exact (hu.imp hmono).closed _ _ hhead.mem (fun p hp => (made_plain hid p hp).mem) (hmono _ hhead)
    fun p hp => .inl (made_plain hid p hp)

end Foot

/-- A `try` up to its `finally` block. -/
theorem try_springs {catches : List (CatchClause Stmt)} {after : List Pending} {body : List Stmt}
    {hasFinalizer : Bool} (hl₁ : Lowered h (.block body) (s.entered (tryScope catches hasFinalizer)) t)
    (hl₂ : Lowered h (.catches t.innermost.handlers catches after)
      ((t.left.withPending []).entered t.innermost.withoutHandlers) u)
    (ih₁ : Springs s.pending (First s t) s t)
    (ih₂ : Springs (t.innermost.handlers.flatMap (·.incoming)) (fun _ => True) t u) :
    Springs s.pending (First s u) s u :=
  ih₁.behind ih₂ hl₁.nextId_le hl₂.graph (try_taken hl₁.grown).1

/-- A `try` with its `finally` block. -/
theorem finalizer_springs {catches : List (CatchClause Stmt)} {after : List Pending}
    {body finalizer : List Stmt} {v : Lowering}
    (hl₁ : Lowered h (.block body) (s.entered (tryScope catches true)) t)
    (hl₂ : Lowered h (.catches t.innermost.handlers catches after)
      ((t.left.withPending []).entered t.innermost.withoutHandlers) u)
    (hl₃ : Lowered h (.block finalizer)
      (u.left.withPending (t.pending ++ after ++ u.innermost.escapes.map (·.1))) v)
    (ih₁ : Springs s.pending (First s t) s t)
    (ih₂ : Springs (t.innermost.handlers.flatMap (·.incoming)) (fun _ => True) t u)
    (ih₃ : Springs (t.pending ++ after ++ u.innermost.escapes.map (·.1)) (First u v) u v) :
    Springs s.pending (First s v) s v := by
  obtain ⟨hext, hescapes, hout⟩ := try_grown hl₁.grown hl₂.grown
  refine (try_springs hl₁ hl₂ ih₁ ih₂).next ih₃ hext.nextId hl₃.graph fun p hp => ?_
  refine (finalizer_inputs hescapes hout p hp).imp_right fun hmem => ⟨hmem.1, ?_⟩
  exact try_size hl₁ hl₂ hmem.2

/-- The edges of a part start at its nodes, or enter it. -/
theorem Lowered.springs {part : Part} (hl : Lowered h part s s') :
    Springs (part.inputs s) (part.Begins s s') s s' := by
  -- on the derivation: what a part takes in leads to its first node or is handed on to the next part
  induction hl with
  | skip _ _ => exact .refl _ _ _
  | simple hr _ hc => exact hc.springs hr.sound hr.inputs
  | branch hr _ hc hl₁ hl₂ ih₁ ih₂ =>
    have h₁ := (hc.springs hr.sound hr.inputs).behind ih₁ hc.nextId_le hl₁.graph (made_plain hc.made.2)
    exact h₁.behind ih₂ (Nat.le_trans hc.nextId_le hl₁.nextId_le) hl₂.graph
      (made_plain (hc.made.2.of_nodes hl₁.nodes))
  | loopUnentered _ _ _ _ _ ih => exact ih
  | tested _ _ _ _ hl₁ _ hc hl₂ ih₁ ih₂ =>
    exact (test_springs hl₁ ih₁ hc).behind ih₂ (Nat.le_trans hl₁.nextId_le hc.nextId_le) hl₂.graph
      (made_plain ⟨hc.made.2.1, Nat.le_trans hl₁.nextId_le hc.made.2.2⟩)
  | endless _ _ _ _ hl₁ _ hc hl₂ ih₁ ih₂ =>
    have := (test_springs hl₁ ih₁ hc).behind ih₂ (Nat.le_trans hl₁.nextId_le hc.nextId_le) hl₂.graph
      (made_plain ⟨hc.made.2.1, Nat.le_trans hl₁.nextId_le hc.made.2.2⟩)
    split
    exacts [this, this]
  | @rounds node head enter _ _ s t u hr hl₁ hl₂ ih₁ ih₂ =>
    have hu : Springs [.plain node enter] (fun _ => True) s u :=
      (ih₁.imp fun _ _ => trivial).trans ih₂ hl₁.nextId_le hl₂.graph fun p hp =>
        (loop_inputs _ hl₁ p hp).imp_right fun hmem => ⟨hmem.1, fun _ _ => trivial⟩
    have hhead : head ∈ u.graph.ids :=
      hl₂.grown.ext.ids_subset (hl₁.grown.ext.ids_subset (hr.heads head rfl))
    -- the arcs that close the loop start in it, or they are the one that enters it
    refine hu.closed head u.pending hhead (hl₂.grown.outputs_mem hl₂.ready) trivial fun p hp => ?_
    rcases hl₂.grown.outputs p hp with hm | ⟨hmem, -⟩
    · exact .inl ⟨hm.1, Nat.le_trans hl₁.nextId_le hm.2⟩
    · exact (loop_inputs _ hl₁ p hmem).imp (·.of_nodes hl₂.nodes) And.left
  | updateUnentered _ _ => exact .refl _ _ _
  | update _ _ _ ih => exact ih
  | footless _ _ _ _ ih => exact ih
  | footed hr _ hl _ hc ih => exact footed_springs hr.inputs hl ih hc
  | select hr _ hc hl ih =>
    exact (hc.springs hr.sound hr.inputs).behind ih hc.nextId_le hl.graph (select_inputs hc.made.2)
  | casesEnd _ => exact .refl _ _ _
  | @case _ selector fallthrough c cases s t u v head hr hc hl₁ hl₂ ih₁ ih₂ =>
    have hfrontier : ∀ p ∈ caseFrontier selector fallthrough c.label, p.source ∈ s.graph.ids :=
      fun p hp => hr.from_mem (caseFrontier_from hp)
    have hu := (hc.springs (hr.sound.withPending _) hfrontier).behind ih₁ hc.nextId_le hl₁.graph
      hc.made_pending
    have hout := (block_made (case_extends hr hc) hc.made_pending hl₁.grown).2
    refine (hu.widen (caseFrontier_subset s _ selector fallthrough c cases)).trans ih₂
      (Nat.le_trans hc.nextId_le hl₁.nextId_le) hl₂.graph fun p hp => ?_
    refine (List.mem_append.1 hp).imp (hout p) fun hp => ⟨?_, fun _ _ => trivial⟩
    exact List.mem_append_right _ (List.mem_append_right _ hp)
  | jump hr _ _ hc => exact hc.springs hr.sound hr.inputs
  | tryPlain _ _ hl₁ hl₂ ih₁ ih₂ =>
    exact (try_springs hl₁ hl₂ ih₁ ih₂ :)
  | tryNodeless _ _ hl₁ hl₂ hl₃ _ ih₁ ih₂ ih₃ =>
    have := finalizer_springs hl₁ hl₂ hl₃ ih₁ ih₂ ih₃
    exact this.sentAll _
  | tryFinally _ _ hl₁ hl₂ hl₃ _ ih₁ ih₂ ih₃ =>
    have := finalizer_springs hl₁ hl₂ hl₃ ih₁ ih₂ ih₃
    exact this.sentAll _
  | catchesEnd _ => exact .refl _ _ _
  | catchesUnhandled _ => exact .refl _ _ _
  | catchUnentered _ _ _ ih => exact ih.widen (List.subset_append_right _ _)
  | «catch» hr _ hc hl₁ hl₂ ih₁ ih₂ =>
    have hu := (hc.springs (hr.sound.withPending _) fun p hp =>
      hr.inputs p (List.mem_append_left _ hp)).behind ih₁ hc.nextId_le hl₁.graph hc.made_pending
    exact (hu.widen (List.subset_append_left _ _)).trans ih₂ (Nat.le_trans hc.nextId_le hl₁.nextId_le)
      hl₂.graph fun p hp => .inr ⟨List.mem_append_right _ hp, fun _ _ => trivial⟩
  | nested _ _ _ ih => exact ih
  | blockEnd _ => exact .refl _ _ _
  | blockNext _ hl₁ hl₂ ih₁ ih₂ => exact ih₁.next ih₂ hl₁.nextId_le hl₂.graph hl₁.grown.outputs

end Lowering

end Slicing
