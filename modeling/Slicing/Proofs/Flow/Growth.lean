import Slicing.Proofs.Flow.Derivation

/-!
# How states of lowering grow

A part ends in the arcs that it passes on when it has no nodes, and in arcs out of new
nodes otherwise. The arcs that it adds start at its inputs or at new nodes, from which
all new nodes are reached, and lead to new nodes, the rounds of a loop also back to the
head (`Lowered.grown`).

The proof goes along the derivation. For each form of statement that is made of several
parts there is a lemma that says what each part leaves for the next one (`…_ready`)
and one that puts the parts together (`…_grown`).
-/

namespace Slicing

/-! ## What statements have taken in -/

section Taken

variable {P : Pending → Prop} {scope : Scope}

/-- What a loop has noted was noted while it was lowered. -/
theorem Scope.Grows.of_loop (hg : Scope.Grows P (.loop [] []) scope) :
    (∀ p ∈ scope.breaks, P p) ∧ ∀ p ∈ scope.continues, P p := by
  cases hg with
  | loop hb hc =>
    exact ⟨fun p hp => (hb.mem_or hp).resolve_left (by simp),
      fun p hp => (hc.mem_or hp).resolve_left (by simp)⟩

theorem Scope.Grows.loop_waiting {breaks continues : List Pending}
    (hg : Scope.Grows P (.loop breaks continues) scope) :
    scope.waiting = scope.breaks ++ scope.continues := by
  cases hg
  rfl

theorem Scope.Grows.select_waiting {breaks : List Pending}
    (hg : Scope.Grows P (.select breaks) scope) : scope.waiting = scope.breaks := by
  cases hg
  rfl

/-- What a `switch` has noted was noted while it was lowered. -/
theorem Scope.Grows.of_select (hg : Scope.Grows P (.select []) scope) :
    ∀ p ∈ scope.breaks, P p := by
  cases hg with
  | select hb => exact fun p hp => (hb.mem_or hp).resolve_left (by simp)

/-- A `try` whose body has been lowered. -/
theorem Scope.Grows.of_tryScope {catches : List (CatchClause Stmt)} {hasFinalizer : Bool}
    (hg : Scope.Grows P (Lowering.tryScope catches hasFinalizer) scope) :
    ∃ handlers escapes, scope = .tryBlock handlers hasFinalizer escapes ∧
      List.Forall₂ (fun (clause : CatchClause Stmt) (handler : Handler) =>
        handler.exceptionType = clause.exceptionType ∧ ∀ p ∈ handler.incoming, P p)
        catches handlers ∧
      (∀ e ∈ escapes, P e.1) ∧ (hasFinalizer = false → escapes = []) := by
  cases hg with
  | tryBlock hh he hf =>
    refine ⟨_, _, rfl, ?_, fun e hmem => (he.mem_or hmem).resolve_left (by simp), hf⟩
    rw [List.forall₂_map_left_iff] at hh
    exact hh.imp fun _ _ hg => ⟨hg.1.symm, fun p hp => (hg.2.mem_or hp).resolve_left (by simp)⟩

/-- A `try` whose handlers have been lowered. -/
theorem Scope.Grows.of_withoutHandlers {escapes : List (Pending × Escape)} {hasFinalizer : Bool}
    (hg : Scope.Grows P (.tryBlock [] hasFinalizer escapes) scope) :
    ∃ escapes', scope = .tryBlock [] hasFinalizer escapes' ∧
      Adds (fun e => P e.1) escapes escapes' ∧ (hasFinalizer = false → escapes' = escapes) := by
  cases hg with
  | tryBlock hh he hf =>
    cases hh
    exact ⟨_, rfl, he, hf⟩

end Taken

namespace Lowering

variable {h : Hierarchy} {s s' t u : Lowering} {P Q H K : NodeId → Prop} {id : NodeId}
  {p : Pending}

/-! ## Parts -/

/-- What a part does to a state. -/
structure Grown (part : Part) (s s' : Lowering) : Prop where
  ext : Extends (From (part.inputs s)) part.heads s s'
  outputs : ∀ p ∈ part.outputs s', Made s s' p.source ∨
    p ∈ part.passed s ∧ s'.graph.size = s.graph.size

section Grown

variable {part : Part}

/-- A part that starts from what was made before it. -/
theorem Grown.after (ps : List Pending) (he : Extends P H s t)
    (hg : Grown part (t.withPending ps) u)
    (hin : ∀ p ∈ part.inputs (t.withPending ps), Made s t p.source ∨ P p.source)
    (hheads : ∀ id, part.heads id → Made s t id ∨ H id) : Extends P H s u :=
  he.trans hg.ext.of_withPending (fun _ ⟨p, hp, hid⟩ => hid ▸ hin p hp) hheads

/-- A part behind new nodes ends in new nodes. -/
theorem Grown.outputs_made (ps : List Pending) (he : Extends P H s t)
    (hg : Grown part (t.withPending ps) u)
    (hin : ∀ p ∈ part.passed (t.withPending ps), Made s t p.source) :
    ∀ p ∈ part.outputs u, Made s u p.source := by
  intro p hp
  rcases hg.outputs p hp with hm | ⟨hmem, -⟩
  · exact he.made_of_left hm
  · exact hg.ext.made_of_right (hin p hmem)

/-- A part ends in nodes. -/
theorem Grown.outputs_mem (hr : Ready part s) (hg : Grown part s s') :
    ∀ p ∈ part.outputs s', p.source ∈ s'.graph.ids := by
  intro p hp
  rcases hg.outputs p hp with hm | ⟨hmem, -⟩
  · exact hm.mem
  · exact hg.ext.ids_subset (hr.inputs p (part.passed_subset s hmem))

end Grown

theorem made_plain {kind : FlowKind} (hid : Made s t id) :
    ∀ p ∈ [Pending.plain id kind], Made s t p.source := by
  intro p hp
  rw [List.mem_singleton.1 hp]
  exact hid

/-- What waits behind a construct starts at a new node. -/
theorem Constructs.made_pending {point : Point} {effects : Effects} {head : NodeId}
    (hc : Constructs h s point effects head id t) : ∀ p ∈ t.pending, Made s t p.source := by
  rw [hc.pending_eq]
  exact made_plain hc.made.2

/-! ## Blocks -/

/-- A block can be lowered from arcs that start at nodes. -/
theorem Ready.block (hs : s.Sound) {ps : List Pending} (hps : ∀ p ∈ ps, p.source ∈ s.graph.ids)
    {stmts : List Stmt} : Ready (.block stmts) (s.withPending ps) :=
  ⟨hs.withPending ps, hps, fun _ hf => hf.elim⟩

/-- A statement starts from the same arcs as the blocks in it. -/
theorem Ready.toBlock {stmt : Stmt} (hr : Ready (.stmt stmt) s) {stmts : List Stmt} :
    Ready (.block stmts) s :=
  ⟨hr.sound, hr.inputs, fun _ hf => hf.elim⟩

theorem Ready.toStmt {stmts : List Stmt} (hr : Ready (.block stmts) s) {stmt : Stmt} :
    Ready (.stmt stmt) s :=
  ⟨hr.sound, hr.inputs, fun _ hf => hf.elim⟩

/-- A block that starts from arcs out of new nodes. -/
theorem block_ready (he : Extends P H s t) (hps : ∀ p ∈ t.pending, Made s t p.source)
    {stmts : List Stmt} : Ready (.block stmts) t :=
  ⟨he.sound, fun p hp => (hps p hp).mem, fun _ hf => hf.elim⟩

/-- A block that starts from arcs out of new nodes ends in such arcs. -/
theorem block_made (he : Extends P H s t) (hps : ∀ p ∈ t.pending, Made s t p.source)
    {stmts : List Stmt} (hg : Grown (.block stmts) t u) :
    Extends P H s u ∧ ∀ p ∈ u.pending, Made s u p.source :=
  ⟨Grown.after t.pending he hg (fun p hp => .inl (hps p hp)) fun _ hf => hf.elim,
    Grown.outputs_made t.pending he hg hps⟩

/-- What comes behind a statement can be lowered. -/
theorem next_ready {stmt : Stmt} {stmts : List Stmt} (hr : Ready (.stmt stmt) s)
    (hg : Grown (.stmt stmt) s t) : Ready (.block stmts) t :=
  ⟨hg.ext.sound, hg.outputs_mem hr, fun _ hf => hf.elim⟩

/-- A statement and what comes behind it. -/
theorem next_grown {stmt : Stmt} {stmts : List Stmt} (hg₁ : Grown (.stmt stmt) s t)
    (hg₂ : Grown (.block stmts) t u) : Grown (.block (stmt :: stmts)) s u := by
  refine ⟨hg₁.ext.trans hg₂.ext ?_ fun _ hf => hf.elim, fun p hp => ?_⟩
  · rintro _ ⟨p, hp, rfl⟩
    exact (hg₁.outputs p hp).imp_right fun hmem => ⟨p, hmem.1, rfl⟩
  · rcases hg₂.outputs p hp with hm | ⟨hmem, hsize⟩
    · exact .inl (hg₁.ext.made_of_left hm)
    · exact (hg₁.outputs p hmem).imp hg₂.ext.made_of_right fun hm => ⟨hm.1, hsize.trans hm.2⟩

/-- A construct behind a block. -/
theorem construct_after {stmts : List Stmt} {point : Point} {effects : Effects} {head : NodeId}
    (hr : Ready (.block stmts) s) (hg : Grown (.block stmts) s t) (hne : t.pending ≠ [])
    (hc : Constructs h t point effects head id u) : Extends (From s.pending) Nowhere s u := by
  refine hg.ext.trans (hc.extends hg.ext.sound hne (hg.outputs_mem hr)) ?_ fun _ hf => hf.elim
  rintro _ ⟨p, hp, rfl⟩
  exact (hg.outputs p hp).imp_right fun hmem => ⟨p, hmem.1, rfl⟩

/-! ## Loops -/

/-- The body of a loop can be lowered. -/
theorem loop_ready (ps : List Pending) (hs : s.Sound) (hps : ∀ p ∈ ps, p.source ∈ s.graph.ids)
    {body : List Stmt} : Ready (.block body) ((s.withPending ps).entered (.loop [] [])) :=
  ⟨Extends.entered_sound (hs.withPending ps) (by simp [Scope.waiting]), hps, fun _ hf => hf.elim⟩

/-- What the body of a loop takes in comes from new nodes. -/
theorem loop_grown {body : List Stmt} (ps : List Pending)
    (hg : Grown (.block body) ((s.withPending ps).entered (.loop [] [])) t) :
    Extends (From ps) Nowhere s t.left ∧
      (∀ p ∈ t.innermost.breaks, Made s t p.source) ∧
      ∀ p ∈ t.pending ++ t.innermost.continues, Made s t p.source ∨ From ps p.source := by
  obtain ⟨hext, hscope⟩ := hg.ext.leave
  obtain ⟨hbreaks, hcontinues⟩ := hscope.of_loop
  refine ⟨hext.of_withPending, hbreaks, fun p hp => ?_⟩
  rcases List.mem_append.1 hp with hp | hp
  · exact (hg.outputs p hp).imp_right fun hmem => ⟨p, hmem.1, rfl⟩
  · exact .inl (hcontinues p hp)

/-- What follows the body of a loop: its update, or its test. -/
theorem continue_ready {body : List Stmt} (ps : List Pending)
    (hps : ∀ p ∈ ps, p.source ∈ s.graph.ids)
    (hg : Grown (.block body) ((s.withPending ps).entered (.loop [] [])) t) (stmts : List Stmt) :
    Ready (.block stmts) (t.left.withPending (t.pending ++ t.innermost.continues)) := by
  obtain ⟨hext, -, hin⟩ := loop_grown ps hg
  refine ⟨hext.sound.withPending _, fun p hp => ?_, fun _ hf => hf.elim⟩
  rcases hin p hp with hm | ⟨q, hq, heq⟩
  exacts [hm.mem, heq ▸ hext.ids_subset (hps q hq)]

/-- The rounds of a loop: the body, the update, and the way back. -/
theorem rounds_grown {node head : NodeId} {enter : FlowKind} {body update : List Stmt}
    (hr : Ready (.rounds node head enter body update t.innermost.breaks) s)
    (hr' : Ready (.update update) (t.left.withPending (t.pending ++ t.innermost.continues)))
    (hg₁ : Grown (.block body) ((s.withPending [.plain node enter]).entered (.loop [] [])) t)
    (hg₂ : Grown (.update update) (t.left.withPending (t.pending ++ t.innermost.continues)) u) :
    Grown (.rounds node head enter body update t.innermost.breaks) s
      (((u.withPending []).closed head u.pending).withPending t.innermost.breaks) := by
  obtain ⟨hext, hbreaks, hin⟩ := loop_grown _ hg₁
  have hext' := hg₂.after _ hext hin fun _ hf => hf.elim
  have hpend (p : Pending) (hp : p ∈ u.pending) :
      Made s u p.source ∨ From [.plain node enter] p.source := by
    rcases hg₂.outputs p hp with hm | ⟨hmem, -⟩
    · exact .inl (hext.made_of_left hm)
    · exact (hin p hmem).imp_left hg₂.ext.made_of_right
  have hclosed := ((hext'.withPending []).imp (Q := From [.plain node enter]) (K := (· = head))
    (fun _ hf => hf) fun _ hf => hf.elim).closed head u.pending
    (hext'.ids_subset (hr.heads head rfl)) (.inr rfl)
    fun p hp => ⟨hg₂.outputs_mem hr' p hp, hpend p hp⟩
  refine ⟨hclosed.withPending _, fun p hp => .inl ?_⟩
  have hm := hg₂.ext.made_of_right (hbreaks p hp)
  exact ⟨by rw [withPending_graph, closed_ids]; exact hm.1, hm.2⟩

/-- The rounds of a loop can be lowered behind its test. -/
theorem rounds_ready {node head : NodeId} {enter : FlowKind} {body update : List Stmt}
    {breaks : List Pending} (hs : t.Sound) (hnode : Made s t node) (hhead : Made s t head) :
    Ready (.rounds node head enter body update breaks) t :=
  ⟨hs, fun p hp => (made_plain hnode p hp).mem, fun _ heq => heq ▸ hhead.mem⟩

/-- The rounds of a loop between new nodes end in arcs out of new nodes. -/
theorem rounds_made {node head : NodeId} {enter : FlowKind} {body update : List Stmt}
    {breaks : List Pending} (he : Extends P H s t) (hnode : Made s t node) (hhead : Made s t head)
    (hg : Grown (.rounds node head enter body update breaks) t u) :
    Extends P H s u ∧ ∀ p ∈ u.pending, Made s u p.source := by
  have hin : ∀ p ∈ [Pending.plain node enter], Made s t p.source := made_plain hnode
  exact ⟨Grown.after t.pending he hg (fun p hp => .inl (hin p hp)) fun _ heq =>
    .inl (heq ▸ hhead), Grown.outputs_made t.pending he hg (by simp [Part.passed])⟩

/-- A loop with its test behind the body. -/
theorem footed_grown {source : Element} {body : List Stmt} {cond : Effects} {head : NodeId}
    (hr : Ready (.stmt (.doWhile source body cond)) s)
    (hg : Grown (.block body) (s.entered (.loop [] [])) t)
    (hne : t.pending ++ t.innermost.continues ≠ [])
    (hc : Constructs h (t.left.withPending (t.pending ++ t.innermost.continues))
      ⟨.predicate, some source.id⟩ cond head id u) :
    Grown (.stmt (.doWhile source body cond)) s
      ((u.closed (if s.graph.size < t.graph.size then u.graph.idAt s.graph.size else head)
        [.plain id .loopBack]).withPending (.plain id .falseBranch :: t.innermost.breaks)) := by
  obtain ⟨hext, hbreaks, hin⟩ := loop_grown s.pending hg
  have hready := continue_ready s.pending hr.inputs hg []
  have hext' : Extends (From s.pending) Nowhere s u := by
    refine hext.trans (hc.extends hready.sound hne hready.inputs).of_withPending ?_
      fun _ hf => hf.elim
    rintro _ ⟨p, hp, rfl⟩
    exact hin p hp
  have hid : Made s u id := hext.made_of_left hc.made.2
  have hhead :
      Made s u (if s.graph.size < t.graph.size then u.graph.idAt s.graph.size else head) := by
    split
    · rename_i hlt
      exact hext'.made_idAt (Nat.le_refl _) (Nat.lt_trans hlt hc.nodes.2)
    · exact hext.made_of_left hc.made.1
  have hclosed := hext'.closed _ [.plain id .loopBack] hhead.mem (.inl hhead) fun p hp =>
    ⟨(made_plain hid p hp).mem, .inl (made_plain hid p hp)⟩
  refine ⟨hclosed.withPending _, fun p hp => .inl (Made.of_nodes (t := u) ?_ ?_)⟩
  · rcases List.mem_cons.1 hp with rfl | hp
    · exact hid
    · exact (hbreaks p hp).of_nodes hc.nodes.1
  · simp only [withPending_graph, closed_nodes, List.prefix_rfl]

/-! ## `switch` -/

/-- The arcs into cases start at the selector. -/
theorem selector_mem {selector : NodeId} {cases : List (SwitchCase Stmt)}
    (hp : p ∈ cases.flatMap fun c => caseFrontier selector [] c.label) : p.source = selector := by
  obtain ⟨c, -, hp⟩ := List.mem_flatMap.1 hp
  rw [List.mem_singleton.1 hp]

/-- Cases start from a new node. -/
theorem select_inputs {source : Element} {cases : List (SwitchCase Stmt)} (hid : Made s t id) :
    ∀ p ∈ Part.inputs (t.entered (.select [])) (.cases source id [] cases), Made s t p.source := by
  intro p hp
  rw [selector_mem (p := p) (by simpa [Part.inputs] using hp)]
  exact hid

/-- The cases of a `switch` can be lowered behind its selector. -/
theorem cases_ready {source : Element} {cases : List (SwitchCase Stmt)} (hs : t.Sound)
    (hid : Made s t id) : Ready (.cases source id [] cases) (t.entered (.select [])) :=
  ⟨Extends.entered_sound hs (by simp [Scope.waiting]), fun p hp => (select_inputs hid p hp).mem,
    fun _ hf => hf.elim⟩

/-- A `switch`: its selector, and then its cases. -/
theorem select_grown {source : Element} {selector : Effects} {cases : List (SwitchCase Stmt)}
    (hext : Extends (From s.pending) Nowhere s t) (hid : Made s t id)
    (hg : Grown (.cases source id [] cases) (t.entered (.select [])) u) :
    Grown (.stmt (.select source selector cases)) s
      (u.left.withPending (u.pending ++ u.innermost.breaks ++ skipArcs id cases)) := by
  obtain ⟨hext', hscope⟩ := hg.ext.leave
  refine ⟨(hext.trans hext' ?_ fun _ hf => hf.elim).withPending _, fun p hp => .inl ?_⟩
  · rintro _ ⟨p, hp, rfl⟩
    exact .inl (select_inputs hid p hp)
  · rcases List.mem_append.1 hp with hp | hp
    · rcases List.mem_append.1 hp with hp | hp
      · exact hext.made_of_left ((hg.outputs p hp).resolve_right (by simp [Part.passed]))
      · exact hext.made_of_left (hscope.of_select p hp)
    · rw [eq_of_mem_skipArcs hp]
      exact hg.ext.made_of_right hid

section Cases

variable {source : Element} {selector : NodeId} {fallthrough : List Pending}
  {c : SwitchCase Stmt} {cases : List (SwitchCase Stmt)} {head : NodeId}

theorem selector_from (hp : p.source = selector) :
    From (Part.inputs s (.cases source selector fallthrough (c :: cases))) p.source := by
  refine ⟨_, List.mem_append_right _ (List.mem_append_left _ (List.mem_singleton_self _)), ?_⟩
  rw [hp]

/-- A case is entered from the selector or from what falls through. -/
theorem caseFrontier_from (hp : p ∈ caseFrontier selector fallthrough c.label) :
    From (Part.inputs s (.cases source selector fallthrough (c :: cases))) p.source := by
  rcases List.mem_append.1 hp with hp | hp
  · exact ⟨p, List.mem_append_left _ hp, rfl⟩
  · exact selector_from (by rw [List.mem_singleton.1 hp])

theorem Ready.from_mem {part : Part} (hr : Ready part s) (hid : From (part.inputs s) id) :
    id ∈ s.graph.ids := by
  obtain ⟨p, hp, rfl⟩ := hid
  exact hr.inputs p hp

/-- The label of a case is entered from where its `switch` starts its cases. -/
theorem case_extends (hr : Ready (.cases source selector fallthrough (c :: cases)) s)
    (hc : Constructs h (s.withPending (caseFrontier selector fallthrough c.label))
      ⟨.caseLabel, some c.id⟩ .none head head t) :
    Extends (From (Part.inputs s (.cases source selector fallthrough (c :: cases)))) Nowhere s
      t := by
  refine (hc.extends (hr.sound.withPending _) (by simp [caseFrontier]) fun p hp =>
    hr.from_mem (caseFrontier_from hp)).of_withPending.imp ?_ fun _ hf => hf
  rintro _ ⟨p, hp, rfl⟩
  exact caseFrontier_from hp

/-- The next case is entered from the selector or from what falls through the case before. -/
theorem case_inputs (hout : ∀ p ∈ u.pending, Made s u p.source) :
    ∀ p ∈ Part.inputs (u.withPending []) (.cases source selector u.pending cases),
      Made s u p.source ∨
        From (Part.inputs s (.cases source selector fallthrough (c :: cases))) p.source := by
  intro p hp
  rcases List.mem_append.1 hp with hp | hp
  · exact .inl (hout p hp)
  · exact .inr (selector_from (selector_mem hp))

/-- The cases behind one can be lowered. -/
theorem case_ready (hr : Ready (.cases source selector fallthrough (c :: cases)) s)
    (hext : Extends P H s u) (hout : ∀ p ∈ u.pending, Made s u p.source) :
    Ready (.cases source selector u.pending cases) (u.withPending []) :=
  ⟨hext.sound.withPending _, fun p hp => (case_inputs hout p hp).elim Made.mem fun hx =>
    hext.ids_subset (hr.from_mem hx), fun _ hf => hf.elim⟩

end Cases

/-! ## `try` -/

section Try

variable {catches : List (CatchClause Stmt)} {hasFinalizer : Bool} {body : List Stmt}
  {after : List Pending}

/-- The body of a `try` can be lowered. -/
theorem try_ready (hs : s.Sound) (hp : ∀ p ∈ s.pending, p.source ∈ s.graph.ids) :
    Ready (.block body) (s.entered (tryScope catches hasFinalizer)) := by
  refine ⟨Extends.entered_sound hs fun p hmem => ?_, hp, fun _ hf => hf.elim⟩
  simp [tryScope, Scope.waiting] at hmem

/-- What a `try` has taken in from its body. -/
theorem try_taken (hg : Grown (.block body) (s.entered (tryScope catches hasFinalizer)) t) :
    (∀ p ∈ t.innermost.handlers.flatMap (·.incoming), Made s t p.source) ∧
      ∀ e ∈ t.innermost.escapes, Made s t e.1.source := by
  obtain ⟨-, hscope⟩ := hg.ext.leave
  obtain ⟨handlers, escapes, heq, hhandlers, hescapes, -⟩ := hscope.of_tryScope
  rw [heq]
  refine ⟨fun p hp => ?_, hescapes⟩
  obtain ⟨handler, hmem, hp⟩ := List.mem_flatMap.1 hp
  obtain ⟨clause, -, -, hin⟩ := forall₂_mem_right hhandlers hmem
  exact hin p hp

/-- The clauses of a `try` can be lowered behind its body. -/
theorem catches_ready (after : List Pending)
    (hg : Grown (.block body) (s.entered (tryScope catches hasFinalizer)) t) :
    Ready (.catches t.innermost.handlers catches after)
      ((t.left.withPending []).entered t.innermost.withoutHandlers) := by
  obtain ⟨hext, hscope⟩ := hg.ext.leave
  obtain ⟨hincoming, hescapes⟩ := try_taken hg
  obtain ⟨handlers, escapes, heq, -⟩ := hscope.of_tryScope
  rw [heq] at hescapes hincoming ⊢
  refine ⟨Extends.entered_sound (hext.sound.withPending []) fun p hp => ?_,
    fun p hp => (hincoming p hp).mem, fun _ hf => hf.elim⟩
  obtain ⟨e, he, rfl⟩ := List.mem_map.1 (show p ∈ escapes.map (·.1) from hp)
  exact (hescapes e he).mem

/-- A `try` up to its `finally` block: its body, and then its clauses. -/
theorem try_grown
    (hg₁ : Grown (.block body) (s.entered (tryScope catches hasFinalizer)) t)
    (hg₂ : Grown (.catches t.innermost.handlers catches after)
      ((t.left.withPending []).entered t.innermost.withoutHandlers) u) :
    Extends (From s.pending) Nowhere s u.left ∧
      (∀ e ∈ u.innermost.escapes, Made s u e.1.source) ∧
      ∀ p ∈ t.pending ++ after,
        Made s u p.source ∨ p ∈ s.pending ∧ t.graph.size = s.graph.size := by
  obtain ⟨hincoming, hescapes⟩ := try_taken hg₁
  obtain ⟨hext, hscope⟩ := hg₁.ext.leave
  obtain ⟨hext', hscope'⟩ := hg₂.ext.leave
  obtain ⟨handlers, escapes, heq, -⟩ := hscope.of_tryScope
  rw [heq] at hscope' hescapes
  obtain ⟨escapes', heq', hadds, -⟩ := hscope'.of_withoutHandlers
  refine ⟨hext.trans hext'.of_withPending ?_ fun _ hf => hf.elim, fun e he => ?_, fun p hp => ?_⟩
  · rintro _ ⟨p, hp, rfl⟩
    exact .inl (hincoming p hp)
  · rw [heq'] at he
    rcases hadds.mem_or he with he | hm
    · exact hg₂.ext.made_of_right (hescapes e he)
    · exact hext.made_of_left hm
  · rcases List.mem_append.1 hp with hp | hp
    · exact (hg₁.outputs p hp).imp_left hg₂.ext.made_of_right
    · exact .inl (hext.made_of_left ((hg₂.outputs p hp).resolve_right (by simp [Part.passed])))

/-- A clause is entered from what its handler has taken in. -/
theorem catch_extends {handler : Handler} {handlers : List Handler} {c : CatchClause Stmt}
    {clauses : List (CatchClause Stmt)} {head : NodeId}
    (hr : Ready (.catches (handler :: handlers) (c :: clauses) after) s)
    (hne : handler.incoming ≠ [])
    (hc : Constructs h (s.withPending handler.incoming) ⟨.catchClause, some c.id⟩ .none head head
      t) : Extends (From ((handler :: handlers).flatMap (·.incoming))) Nowhere s t := by
  refine (hc.extends (hr.sound.withPending _) hne fun p hp =>
    hr.inputs p (List.mem_append_left _ hp)).of_withPending.imp ?_ fun _ hf => hf
  rintro _ ⟨p, hp, rfl⟩
  exact ⟨p, List.mem_append_left _ hp, rfl⟩

/-- The other handlers of a `try`. -/
theorem catch_ready {handler : Handler} {handlers : List Handler}
    {clauses clauses' : List (CatchClause Stmt)} {after' : List Pending}
    (hr : Ready (.catches (handler :: handlers) clauses after) s) (hext : Extends P H s u) :
    Ready (.catches handlers clauses' after') (u.withPending []) :=
  ⟨hext.sound.withPending _, fun p hp =>
    hext.ids_subset (hr.inputs p (List.mem_append_right _ hp)), fun _ hf => hf.elim⟩

/-- The clauses behind one that is not entered can be lowered. -/
theorem unentered_ready {handler : Handler} {handlers : List Handler}
    {clauses clauses' : List (CatchClause Stmt)}
    (hr : Ready (.catches (handler :: handlers) clauses after) s) (element : ElementId) :
    Ready (.catches handlers clauses' after) (s.skipped element) :=
  ⟨((Extends.refl Nowhere Nowhere hr.sound).skipped _).sound, fun p hp =>
    hr.inputs p (List.mem_append_right _ hp), fun _ hf => hf.elim⟩

/-- What the `finally` block of a `try` starts from. -/
theorem finalizer_inputs {escapes : List (Pending × Escape)} {normal : List Pending}
    (hescapes : ∀ e ∈ escapes, Made s u e.1.source)
    (hnormal : ∀ p ∈ normal, Made s u p.source ∨ p ∈ s.pending ∧ t.graph.size = s.graph.size) :
    ∀ p ∈ normal ++ escapes.map (·.1),
      Made s u p.source ∨ p ∈ s.pending ∧ t.graph.size = s.graph.size := by
  intro p hp
  rcases List.mem_append.1 hp with hp | hp
  · exact hnormal p hp
  · obtain ⟨e, hmem, rfl⟩ := List.mem_map.1 hp
    exact .inl (hescapes e hmem)

/-- The `finally` block of a `try` can be lowered. -/
theorem finalizer_ready (finalizer : List Stmt) {ps : List Pending}
    (he : Extends P H s u) (hs : ∀ p ∈ s.pending, p.source ∈ s.graph.ids)
    (hin : ∀ p ∈ ps, Made s u p.source ∨ p ∈ s.pending ∧ t.graph.size = s.graph.size) :
    Ready (.block finalizer) (u.withPending ps) :=
  .block he.sound fun p hp => (hin p hp).elim Made.mem fun hmem => he.ids_subset (hs p hmem.1)

/-- A `finally` block behind the rest of its `try`. -/
theorem finalizer_grown {finalizer : List Stmt} {ps : List Pending} {v : Lowering}
    (he : Extends (From s.pending) Nowhere s u)
    (hin : ∀ p ∈ ps, Made s u p.source ∨ p ∈ s.pending ∧ t.graph.size = s.graph.size)
    (hsize : t.graph.size = s.graph.size → u.graph.size = s.graph.size)
    (hg : Grown (.block finalizer) (u.withPending ps) v) :
    Extends (From s.pending) Nowhere s v ∧ ∀ p ∈ v.pending,
      Made s v p.source ∨ p ∈ s.pending ∧ v.graph.size = s.graph.size := by
  refine ⟨hg.after _ he (fun p hp => (hin p hp).imp_right fun hmem => ⟨p, hmem.1, rfl⟩)
    fun _ hf => hf.elim, fun p hp => ?_⟩
  rcases hg.outputs p hp with hm | ⟨hmem, hsize'⟩
  · exact .inl (he.made_of_left hm)
  · exact (hin p hmem).imp hg.ext.made_of_right fun hm => ⟨hm.1, hsize'.trans (hsize hm.2)⟩

end Try

/-- What goes on from a `finally` block goes on as it was headed, from where the block ends. -/
theorem mem_redirected {escapes : List (Pending × Escape)} {tails : List Pending}
    {e : Pending × Escape} (he : e ∈ redirected escapes tails) :
    e.2 ∈ escapes.map (·.2) ∧ ∃ tail ∈ tails, e.1.source = tail.source := by
  obtain ⟨escape, hescape, he⟩ := List.mem_flatMap.1 he
  obtain ⟨tail, htail, rfl⟩ := List.mem_map.1 he
  rw [List.mem_eraseDups] at hescape
  cases escape <;> exact ⟨hescape, tail, htail, rfl⟩

/-- What goes on behind a `finally` block without nodes is left at its end. -/
theorem pending_of_nodeless {escapes : List (Pending × Escape)} {f : Pending → Bool}
    (hp : p ∈ ((s.withPending (s.pending.filter f)).sentAll h escapes).pending) : p ∈ s.pending := by
  rw [sentAll_pending] at hp
  exact List.mem_of_mem_filter hp

/-- What goes on behind a `finally` block with nodes is left at its end. -/
theorem pending_of_finally {normal : List Pending} {escapes : List (Pending × Escape)}
    (hp : p ∈ ((s.withPending (if normal.isEmpty then [] else s.pending)).sentAll h escapes).pending) :
    p ∈ s.pending := by
  rw [sentAll_pending, withPending_pending] at hp
  split at hp
  · cases hp
  · exact hp

/-! ## Derivations -/

/-- What a part adds to a state. -/
theorem Lowered.grown {part : Part} (hl : Lowered h part s s') : Grown part s s' := by
  -- each part starts from what was there or from what the parts before it made
  induction hl with
  | skip hr _ => exact ⟨(Extends.refl _ _ hr.sound).skipped _, fun p hp => .inr ⟨hp, rfl⟩⟩
  | simple hr hne hc =>
    exact ⟨hc.extends hr.sound hne hr.inputs, fun p hp => .inl (hc.made_pending p hp)⟩
  | branch hr hne hc _ _ hg₁ hg₂ =>
    have hext := hc.extends hr.sound hne hr.inputs
    obtain ⟨hext₁, hout₁⟩ := block_made (hext.withPending _) (made_plain hc.made.2) hg₁
    obtain ⟨hext₂, hout₂⟩ := block_made (hext₁.withPending _)
      (made_plain (hg₁.ext.made_of_right hc.made.2)) hg₂
    refine ⟨hext₂.withPending _, fun p hp => .inl ?_⟩
    -- behind the branches is what is left at the end of either
    rcases List.mem_append.1 hp with hp | hp
    exacts [hout₂ p hp, hg₂.ext.made_of_right (hout₁ p hp)]
  | loopUnentered _ _ _ _ _ hg => exact ⟨hg.ext, hg.outputs⟩
  | tested hr _ _ _ _ hne hc _ hg₁ hg₂ =>
    have hid := hg₁.ext.made_of_left hc.made.2
    obtain ⟨hext, hout⟩ := rounds_made (construct_after hr.toBlock hg₁ hne hc) hid
      (hg₁.ext.made_of_left hc.made.1) hg₂
    refine ⟨hext.withPending _, fun p hp => .inl ?_⟩
    -- a loop is left by its breaks and by its test
    rcases List.mem_append.1 hp with hp | hp
    exacts [hout p hp, made_plain (hg₂.ext.made_of_right hid) p hp]
  | endless hr _ _ _ _ hne hc _ hg₁ hg₂ =>
    have hhead := hg₁.ext.made_of_left hc.made.2
    obtain ⟨hext, hout⟩ := rounds_made (construct_after hr.toBlock hg₁ hne hc) hhead hhead hg₂
    split
    · exact ⟨hext.withLoopHead (hg₂.ext.made_of_right hhead), fun p hp => .inl (hout p hp)⟩
    · exact ⟨hext, fun p hp => .inl (hout p hp)⟩
  | rounds hr _ hl hg₁ hg₂ => exact rounds_grown hr hl.ready hg₁ hg₂
  | updateUnentered hr _ => exact ⟨.refl _ _ hr.sound, fun p hp => .inr ⟨hp, rfl⟩⟩
  | update _ _ _ hg => exact ⟨hg.ext, hg.outputs⟩
  | footless _ _ _ _ hg =>
    obtain ⟨hext, hscope⟩ := hg.ext.leave
    exact ⟨((hext.withPending _).skipped _).withPending _, fun p hp => .inl (hscope.of_loop.1 p hp)⟩
  | footed hr _ _ hne hc hg => exact footed_grown hr hg hne hc
  | select hr hne hc _ hg => exact select_grown (hc.extends hr.sound hne hr.inputs) hc.made.2 hg
  | casesEnd hr => exact ⟨(Extends.refl _ _ hr.sound).withPending _, fun p hp => .inr ⟨hp, rfl⟩⟩
  | case hr hc _ _ hg₁ hg₂ =>
    obtain ⟨hext, hout⟩ := block_made (case_extends hr hc) hc.made_pending hg₁
    exact ⟨hg₂.after _ hext (case_inputs hout) fun _ hf => hf.elim,
      fun p hp => .inl (hg₂.outputs_made _ hext hout p hp)⟩
  | jump hr hne _ hc =>
    have hext := (hc.extends hr.sound hne hr.inputs).withPending []
    refine ⟨hext.sent (p := ⟨_, _⟩) hc.made.2 _, ?_⟩
    simp [Part.outputs]
  | tryPlain _ _ hl₁ hl₂ hg₁ hg₂ =>
    obtain ⟨hext, -, hout⟩ := try_grown hg₁ hg₂
    have hstill := try_size hl₁ hl₂
    exact ⟨hext.withPending _, fun p hp => (hout p hp).imp_right fun hmem =>
      ⟨hmem.1, hstill hmem.2⟩⟩
  | tryNodeless _ _ hl₁ hl₂ _ _ hg₁ hg₂ hg₃ =>
    obtain ⟨hext, hescapes, hout⟩ := try_grown hg₁ hg₂
    have hstill := try_size hl₁ hl₂
    obtain ⟨hext₃, hout₃⟩ := finalizer_grown hext (finalizer_inputs hescapes hout) hstill hg₃
    refine ⟨(hext₃.withPending _).sentAll fun e he => hg₃.ext.made_of_right (hescapes e he),
      fun p hp => ?_⟩
    rw [Made, sentAll_graph]
    exact hout₃ p (pending_of_nodeless hp)
  | tryFinally _ _ hl₁ hl₂ hl₃ hsize hg₁ hg₂ hg₃ =>
    obtain ⟨hext, hescapes, hout⟩ := try_grown hg₁ hg₂
    have hstill := try_size hl₁ hl₂
    obtain ⟨hext₃, hout₃⟩ := finalizer_grown hext (finalizer_inputs hescapes hout) hstill hg₃
    -- the `finally` block has nodes, so that nothing passes it by
    have hmade (p : Pending) (hp : p ∈ _) := (hout₃ p hp).resolve_right fun hmem => by
      have := hl₁.size_le
      have := hl₂.size_le
      have := hl₃.size_le
      simp only [withPending_graph, entered_graph, left_graph] at *
      omega
    refine ⟨(hext₃.withPending _).sentAll fun e he => ?_, fun p hp => .inl ?_⟩
    · obtain ⟨-, tail, htail, heq⟩ := mem_redirected he
      rw [heq]
      exact hmade tail htail
    · rw [Made, sentAll_graph]
      exact hmade p (pending_of_finally hp)
  | catchesEnd hr => exact ⟨.refl _ _ hr.sound, by simp [Part.outputs]⟩
  | catchesUnhandled hr => exact ⟨.refl _ _ hr.sound, by simp [Part.outputs]⟩
  | catchUnentered hr _ _ hg =>
    refine ⟨?_, hg.outputs⟩
    refine ((Extends.refl _ _ hr.sound).skipped _).trans hg.ext ?_ fun _ hf => hf.elim
    rintro _ ⟨p, hp, rfl⟩
    exact .inr ⟨p, List.mem_append_right _ hp, rfl⟩
  | «catch» hr hne hc _ _ hg₁ hg₂ =>
    obtain ⟨hext, hout⟩ := block_made (catch_extends hr hne hc) hc.made_pending hg₁
    refine ⟨hg₂.after _ hext (fun p hp => .inr ⟨p, List.mem_append_right _ hp, rfl⟩)
      fun _ hf => hf.elim, fun p hp => .inl ?_⟩
    rcases List.mem_append.1 hp with hp | hp
    · exact hg₂.ext.made_of_right (hout p hp)
    · exact hg₂.outputs_made _ hext (by simp [Part.passed]) p hp
  | nested _ _ _ hg => exact ⟨hg.ext, hg.outputs⟩
  | blockEnd hr => exact ⟨.refl _ _ hr.sound, fun p hp => .inr ⟨hp, rfl⟩⟩
  | blockNext _ _ _ hg₁ hg₂ => exact next_grown hg₁ hg₂

end Lowering

end Slicing
