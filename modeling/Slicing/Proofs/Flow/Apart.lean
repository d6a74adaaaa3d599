import Slicing.Proofs.Flow.Entrance
import Slicing.Proofs.Flow.Leaving

/-!
# Ends and ways out stay apart

A `finally` block without nodes has to let through what comes to it: the ends of its `try`
go on behind it, and ways out go on to where they lead. Both are arcs that wait for their
target, and an arc that is among the ways out is not taken for an end. So an end is lost
if the same arc is a way out as well.

This happens behind a `finally` block that has nodes: where it ends, both what ended and
what left its `try` go on. `Stmt.endsApart` asks of the statements that no such block stands
in a `try` whose own `finally` block has no nodes, unless only exceptions leave through it,
which are told apart by their arcs. Then no end of a `try` with a `finally` block without
nodes is also a way out (`try_apart`).
-/

namespace Slicing

mutual

/-- In a `try` whose `finally` block has no nodes, no jump leaves a `try` whose `finally`
    block has some. The flag says that the statement stands in such a `try`. -/
def Stmt.endsApart (inside : Bool) : Stmt → Bool
  | .branch _ _ thenBranch elseBranch =>
    blockEndsApart inside thenBranch && blockEndsApart inside elseBranch
  | .whileLoop _ _ body | .doWhile _ body _ | .forEach _ _ _ body | .block _ body =>
    blockEndsApart inside body
  | .forLoop _ init _ update body =>
    blockEndsApart inside init && blockEndsApart inside body && blockEndsApart inside update
  | .select _ _ cases => casesEndsApart inside cases
  | .tryBlock _ body catches none =>
    blockEndsApart inside body && catchesEndsApart inside catches
  | .tryBlock _ body catches (some finalizer) =>
    !(inside && blockHasNode finalizer && jumpsOut body catches) &&
      blockEndsApart (inside || !blockHasNode finalizer) body &&
      catchesEndsApart (inside || !blockHasNode finalizer) catches &&
      blockEndsApart inside finalizer
  | _ => true

/-- `Stmt.endsApart` of the statements of a block. -/
def blockEndsApart (inside : Bool) : List Stmt → Bool
  | [] => true
  | stmt :: stmts => stmt.endsApart inside && blockEndsApart inside stmts

/-- `Stmt.endsApart` of the cases of a `switch`. -/
def casesEndsApart (inside : Bool) : List (SwitchCase Stmt) → Bool
  | [] => true
  | ⟨_, _, body⟩ :: cases => blockEndsApart inside body && casesEndsApart inside cases

/-- `Stmt.endsApart` of the catch clauses of a `try`. -/
def catchesEndsApart (inside : Bool) : List (CatchClause Stmt) → Bool
  | [] => true
  | ⟨_, _, _, body⟩ :: clauses => blockEndsApart inside body && catchesEndsApart inside clauses

end

/-- `Stmt.endsApart` of the body of a callable. -/
def CallableDecl.endsApart (decl : CallableDecl) : Bool :=
  match decl.body with
  | none => true
  | some body => blockEndsApart false body

/-- Ends and ways out stay apart in a loop if they do in its parts. -/
theorem Stmt.endsApart_loop_iff {stmt : Stmt} {l : Loop} {inside : Bool}
    (hl : stmt.loop? = some l) : stmt.endsApart inside ↔ blockEndsApart inside l.init ∧
      blockEndsApart inside l.body ∧ blockEndsApart inside l.update := by
  cases stmt <;> cases hl <;> simp [endsApart, blockEndsApart, and_assoc]

namespace Lowering

variable {h : Hierarchy} {s s' t u v : Lowering} {P H : NodeId → Prop} {p : Pending}
  {escape : Escape} {Q : Pending → Escape → Prop}

/-- `Stmt.endsApart` of a part that stands in a `try` with a `finally` block without
    nodes. -/
def Part.EndsApart : Part → Prop
  | .stmt st => st.endsApart true
  | .block stmts | .update stmts => blockEndsApart true stmts
  | .rounds _ _ _ body after _ => blockEndsApart true body ∧ blockEndsApart true after
  | .cases _ _ _ rest => casesEndsApart true rest
  | .catches _ clauses _ => catchesEndsApart true clauses

/-! ## Ends and ways out -/

/-- A way out fits its arc: the arc of an exception is exceptional, and that of a jump
    starts at its node. -/
def Fits (g : FlowGraph) (p : Pending) (escape : Escape) : Prop :=
  (escape.IsThrow → p.edge.kind = .exceptional) ∧ (¬escape.IsThrow → p.edge.kind ≠ .exceptional ∧
    ∃ node ∈ g.nodes, node.id = p.source ∧ node.kind = escape.nodeKind)

theorem Fits.mono {g g' : FlowGraph} (hg : g.nodes <+: g'.nodes) (hf : Fits g p escape) :
    Fits g' p escape := by
  refine ⟨hf.1, fun hno => ?_⟩
  obtain ⟨hkind, node, hnode, hid⟩ := hf.2 hno
  exact ⟨hkind, node, hg.subset hnode, hid⟩

/-- An arc fits at most one jump. -/
theorem Fits.unique {g : FlowGraph} {escape' : Escape} (hg : g.ids.Nodup) (hf : Fits g p escape)
    (hf' : Fits g p escape') (hno : ¬escape.IsThrow) : escape' = escape := by
  obtain ⟨hkind, node, hnode, hid, hjump⟩ := hf.2 hno
  have hno' : ¬escape'.IsThrow := fun hthrow => hkind (hf'.1 hthrow)
  obtain ⟨-, node', hnode', hid', hjump'⟩ := hf'.2 hno'
  have hsame : node' = node := List.inj_on_of_nodup_map hg hnode' hnode (hid'.trans hid.symm)
  rw [hsame, hjump] at hjump'
  cases escape <;> cases escape' <;> first | exact absurd ⟨_, rfl⟩ hno | rfl | cases hjump'

/-- An arc is neither exceptional nor one by which something leaves the statements around. -/
def Free (s : Lowering) (p : Pending) : Prop :=
  p.edge.kind ≠ .exceptional ∧ ∀ scope ∈ s.scopes, ∀ e ∈ scope.escapes, e.1 ≠ p

/-- An arc stays free while other nodes are added. -/
theorem Free.ext (he : Extends P H s t) (hs : s.Below) (hp : p.source ∈ s.graph.ids)
    (hf : s.Free p) : t.Free p := by
  refine ⟨hf.1, fun scope hscope e hmem heq => ?_⟩
  obtain ⟨scope', hscope', hgrows⟩ := forall₂_mem_right he.scopes hscope
  cases hgrows with
  | loop _ _ => cases hmem
  | select _ => cases hmem
  | tryBlock _ hadds _ =>
    rcases hadds.mem_or hmem with hold | hnew
    · exact hf.2 _ hscope' e hold heq
    · rw [heq] at hnew
      exact hnew.not_mem hs hp

theorem Free.left (hf : t.Free p) : t.left.Free p :=
  ⟨hf.1, fun scope hscope => hf.2 scope (List.mem_of_mem_tail hscope)⟩

/-- An arc out of a new node that fits nothing that has been taken in. -/
theorem free_of_taken (hs : s.Sound) (ht : Taken Q s.scopes t.scopes)
    (hnew : p.source ∉ s.graph.ids) (hkind : p.edge.kind ≠ .exceptional)
    (hQ : ∀ escape, ¬Q p escape) : t.Free p := by
  refine ⟨hkind, fun scope hscope e hmem heq => ?_⟩
  rcases ht.mem_escapes hscope hmem with ⟨scope', hscope', hold⟩ | hq
  · refine hnew (heq ▸ hs.collected e.1 (List.mem_append_left _ ?_))
    refine List.mem_flatMap.2 ⟨scope', hscope', ?_⟩
    cases scope' with
    | loop _ _ => cases hold
    | select _ => cases hold
    | tryBlock _ _ _ => exact List.mem_append_right _ (List.mem_map_of_mem hold)
  · exact hQ _ (heq ▸ hq)

/-- An arc stays free if it is none of those that are sent out. -/
theorem free_sentAll {escapes : List (Pending × Escape)} (hf : t.Free p)
    (hp : ∀ e ∈ escapes, e.1 ≠ p) : (t.sentAll h escapes).Free p := by
  refine ⟨hf.1, fun scope hscope e hmem => ?_⟩
  have htaken : Taken (fun q _ => q ≠ p) t.scopes (t.sentAll h escapes).scopes :=
    taken_sentAll fun e he => hp e he
  rcases htaken.mem_escapes hscope hmem with ⟨scope', hscope', hold⟩ | hne
  · exact hf.2 scope' hscope' e hold
  · exact hne

section Constructs

variable {point : Point} {effects : Effects} {head id : NodeId}

/-- Only exceptions leave a construct on its way. -/
theorem Constructs.taken (hc : Constructs h s point effects head id t) :
    Taken (fun p escape => p.edge.kind = .exceptional ∧ escape.IsThrow) s.scopes t.scopes := by
  obtain ⟨es, he, -⟩ := hc
  induction he with
  | done => exact .refl _ _
  | number _ ih => exact ih
  | record _ _ ih => exact ih
  | node _ _ _ _ _ ih =>
    refine ih.trans (taken_sentAll (s := placed _ _) fun e he => ?_)
    obtain ⟨exceptionType, -, rfl⟩ := List.mem_map.1 he
    exact ⟨rfl, exceptionType, rfl⟩

/-- The arc behind a construct is free. -/
theorem Constructs.free (hc : Constructs h s point effects head id t) (hs : s.Sound)
    {edge : FlowEdge} (hkind : edge.kind ≠ .exceptional) : t.Free ⟨id, edge⟩ :=
  free_of_taken hs hc.taken (hc.made.2.not_mem hs.below) hkind fun _ hq => hkind hq.1

/-- The last node of a construct is its own. -/
theorem Constructs.own_node (hc : Constructs h s point effects head id t) :
    ∃ node ∈ t.graph.nodes, node.id = id ∧ node.point = point := by
  obtain ⟨es, he, hsteps, -, hlast⟩ := hc
  obtain ⟨e, hlast', hid⟩ := Option.map_eq_some_iff.1 hlast
  have hmem := List.mem_of_getLast? hlast'
  refine ⟨e.node, ?_, hid, ?_⟩
  · rw [he.nodes_eq]
    exact List.mem_append_right _ (List.mem_map_of_mem hmem)
  · have hstep := congrArg List.getLast? hsteps
    rw [List.getLast?_map, hlast', Effects.steps, List.getLast?_concat] at hstep
    exact congrArg (·.point) (Option.some.inj hstep)

end Constructs

/-- What may leave a part, and by which arcs. -/
def Part.Ways (part : Part) (g : FlowGraph) (p : Pending) (escape : Escape) : Prop :=
  Fits g p escape ∧ (escape.IsThrow ∨ part.leftBy escape = true)

/-- A part whose ends stay apart from what has left the statements around. -/
structure Tidy (part : Part) (s s' : Lowering) : Prop where
  free : ∀ p ∈ part.outputs s', Made s s' p.source → s'.Free p
  taken : Taken (part.Ways s'.graph) s.scopes s'.scopes

section Parts

variable {part : Part}

/-- What may leave a part may leave a part around it. -/
theorem Part.Ways.imp {part' : Part} {g g' : FlowGraph} (hg : g.nodes <+: g'.nodes)
    (hl : part.leftBy escape = true → part'.leftBy escape = true) (hw : part.Ways g p escape) :
    part'.Ways g' p escape :=
  ⟨hw.1.mono hg, hw.2.imp_right hl⟩

/-- What leaves a part leaves the part around it. -/
theorem Tidy.taken_of (ht : Tidy part s t) (part' : Part) {g : FlowGraph} (hg : t.graph.nodes <+: g.nodes)
    (hl : ∀ escape, part.leftBy escape = true → part'.leftBy escape = true) :
    Taken (part'.Ways g) s.scopes t.scopes :=
  ht.taken.imp fun _ escape => Part.Ways.imp hg (hl escape)

theorem Constructs.taken_of {point : Point} {effects : Effects} {head id : NodeId}
    (hc : Constructs h s point effects head id t) (part : Part) (g : FlowGraph) :
    Taken (part.Ways g) s.scopes t.scopes :=
  hc.taken.imp fun _ _ ⟨hkind, hthrow⟩ =>
    ⟨⟨fun _ => hkind, fun hno => absurd hthrow hno⟩, .inl hthrow⟩

/-- The ends of a part that starts from free arcs, or from arcs out of old nodes. -/
theorem Tidy.free_after (ps : List Pending) (he : Extends P H s t)
    (hl : Lowered h part (t.withPending ps) u) (ht : Tidy part (t.withPending ps) u)
    (hps : ∀ p ∈ part.passed (t.withPending ps), Made s t p.source → t.Free p) :
    ∀ p ∈ part.outputs u, Made s u p.source → u.Free p := by
  intro p hp hm
  rcases hl.grown.outputs p hp with hnew | ⟨hmem, -⟩
  · exact ht.free p hp hnew
  · have hold := hl.ready.inputs p (part.passed_subset _ hmem)
    exact (hps p hmem ⟨hold, hm.2⟩).ext hl.grown.ext.of_withPending he.sound.below hold

/-- The breaks that a loop or `switch` has taken in are free behind it. -/
theorem breaks_free {scope : Scope} (hs : s.Sound)
    (hext : Extends P H (s.entered scope) t)
    (ht : Taken (part.Ways t.graph) (scope :: s.scopes) t.scopes)
    (hscope : ¬scope.LetsThrough .breakJump) (hnone : scope.breaks = []) :
    ∀ p ∈ t.innermost.breaks, Made s t p.source → t.left.Free p := by
  intro p hp hm
  obtain ⟨htakes, htaken⟩ := taken_leave ht
  have hno : ¬Escape.breakJump.IsThrow := by rintro ⟨_, heq⟩; cases heq
  have hways : part.Ways t.graph p .breakJump :=
    (htakes.mem_breaks hp).resolve_left (by simp [hnone])
  refine free_of_taken hs htaken (hm.not_mem hs.below) (hways.1.2 hno).1 fun escape hq => ?_
  -- the arc fits no other way out, and a break does not come through
  rw [hways.1.unique hext.sound.nodup hq.1.1 hno] at hq
  exact hscope hq.2

end Parts

section Loops

/-- A jump that leaves the body of a loop and that the loop lets through is a return. -/
theorem leftBy_loop {body : List Stmt} (hlets : (Scope.loop [] []).LetsThrough escape)
    (hno : ¬escape.IsThrow) (hl : blockLeftBy escape body = true) :
    (escape = .returnJump && blockLeftBy escape body) = true := by
  cases escape with
  | breakJump => exact absurd rfl hlets.1
  | continueJump => exact absurd rfl hlets.2
  | returnJump => simp [hl]
  | throwJump _ => exact absurd ⟨_, rfl⟩ hno

/-- What leaves the body of a loop, seen from outside. -/
theorem loop_taken {body : List Stmt} (part : Part) {g : FlowGraph} (hg : t.graph.nodes <+: g.nodes)
    (ht : Taken (Part.Ways (.block body) t.graph) (.loop [] [] :: s.scopes) t.scopes)
    (hl : ∀ escape, (escape = .returnJump && blockLeftBy escape body) = true →
      part.leftBy escape = true) : Taken (part.Ways g) s.scopes t.left.scopes := by
  refine (taken_leave ht).2.imp fun p escape ⟨⟨hfits, hways⟩, hlets⟩ => ⟨hfits.mono hg, ?_⟩
  by_cases hthrow : escape.IsThrow
  · exact .inl hthrow
  · exact .inr (hl escape (leftBy_loop hlets hthrow (hways.resolve_left hthrow)))

/-- The rounds of a loop are tidy if its body and its update are. -/
theorem rounds_tidy {node head : NodeId} {enter : FlowKind} {body update : List Stmt}
    (hs : s.Sound)
    (hl₁ : Lowered h (.block body) ((s.withPending [.plain node enter]).entered (.loop [] [])) t)
    (hl₂ : Lowered h (.update update) (t.left.withPending (t.pending ++ t.innermost.continues)) u)
    (ih₁ : Tidy (.block body) ((s.withPending [.plain node enter]).entered (.loop [] [])) t)
    (ih₂ : Tidy (.update update) (t.left.withPending (t.pending ++ t.innermost.continues)) u) :
    Tidy (.rounds node head enter body update t.innermost.breaks) s
      (((u.withPending []).closed head u.pending).withPending t.innermost.breaks) := by
  have hs' : (s.withPending [.plain node enter]).Sound := hs.withPending _
  refine ⟨fun p hp hm => ?_, ?_⟩
  · have hmade : Made s t p.source := hl₁.grown.ext.leave.2.of_loop.1 p hp
    have hfree := breaks_free hs' hl₁.grown.ext ih₁.taken (fun hno => hno.1 rfl) rfl p hp hmade
    have := hfree.ext hl₂.grown.ext.of_withPending hl₁.grown.ext.sound.below hmade.mem
    exact this
  · have hbody : Taken _ s.scopes t.left.scopes := loop_taken (s := s)
      (.rounds node head enter body update t.innermost.breaks) hl₂.nodes ih₁.taken
      fun _ hl => Bool.or_eq_true_iff.2 (.inl hl)
    have hupdate := ih₂.taken_of (.rounds node head enter body update t.innermost.breaks)
      (List.prefix_refl _) fun _ hl => Bool.or_eq_true_iff.2 (.inr hl)
    refine (hbody.trans hupdate).imp fun p escape hw => ?_
    exact hw.imp (by simp only [withPending_graph, closed_nodes, List.prefix_rfl]) fun hl => hl

/-- A loop whose test nothing comes to is tidy if its body is. -/
theorem footless_tidy {source : Element} {body : List Stmt} {cond : Effects} (hs : s.Sound)
    (hl : Lowered h (.block body) (s.entered (.loop [] [])) t)
    (ih : Tidy (.block body) (s.entered (.loop [] [])) t) :
    Tidy (.stmt (.doWhile source body cond)) s
      (((t.left.withPending []).skipped source.id).withPending t.innermost.breaks) :=
  ⟨fun p hp hm => breaks_free hs hl.grown.ext ih.taken (fun hno => hno.1 rfl) rfl p hp hm,
    loop_taken (.stmt (.doWhile source body cond)) (List.prefix_refl _) ih.taken fun _ hl => hl⟩

/-- A loop with its test behind is tidy if its body is. -/
theorem footed_tidy {source : Element} {body : List Stmt} {cond : Effects} {head id : NodeId}
    (hr : Ready (.stmt (.doWhile source body cond)) s)
    (hl : Lowered h (.block body) (s.entered (.loop [] [])) t)
    (hne : t.pending ++ t.innermost.continues ≠ [])
    (hc : Constructs h (t.left.withPending (t.pending ++ t.innermost.continues))
      ⟨.predicate, some source.id⟩ cond head id u)
    (ih : Tidy (.block body) (s.entered (.loop [] [])) t) (target : NodeId) :
    Tidy (.stmt (.doWhile source body cond)) s ((u.closed target [.plain id .loopBack]).withPending
      (.plain id .falseBranch :: t.innermost.breaks)) := by
  have hready := continue_ready s.pending hr.inputs hl.grown []
  have hext := (hc.extends hready.sound hne hready.inputs).of_withPending
  refine ⟨fun p hp hm => ?_, ?_⟩
  · rcases List.mem_cons.1 hp with rfl | hp
    · exact hc.free (hready.sound.withPending _) (by simp)
    · have hmade : Made s t p.source := hl.grown.ext.leave.2.of_loop.1 p hp
      have hfree := breaks_free hr.sound hl.grown.ext ih.taken (fun hno => hno.1 rfl) rfl p hp hmade
      have := hfree.ext hext hl.grown.ext.sound.below hmade.mem
      exact this
  · have hbody : Taken _ s.scopes t.left.scopes := loop_taken (s := s)
      (.stmt (.doWhile source body cond)) hc.nodes.1 ih.taken fun _ hl => hl
    refine (hbody.trans (hc.taken_of _ _)).imp fun p escape hw => ?_
    exact hw.imp (by simp only [withPending_graph, closed_nodes, List.prefix_rfl]) fun hl => hl

end Loops

section Select

variable {source : Element} {selector : Effects} {cases : List (SwitchCase Stmt)} {head id : NodeId}

/-- A `switch` is tidy if its cases are. -/
theorem select_tidy (hr : Ready (.stmt (.select source selector cases)) s) (hne : s.pending ≠ [])
    (hc : Constructs h s ⟨.predicate, some source.id⟩ selector head id t)
    (hl : Lowered h (.cases source id [] cases) (t.entered (.select [])) u)
    (ih : Tidy (.cases source id [] cases) (t.entered (.select [])) u) :
    Tidy (.stmt (.select source selector cases)) s
      (u.left.withPending (u.pending ++ u.innermost.breaks ++ skipArcs id cases)) := by
  have hext := hc.extends hr.sound hne hr.inputs
  obtain ⟨hext', hscope⟩ := hl.grown.ext.leave
  refine ⟨fun p hp _ => ?_, ?_⟩
  · rcases List.mem_append.1 hp with hp | hp
    · rcases List.mem_append.1 hp with hp | hp
      · exact (ih.free p hp ((hl.grown.outputs p hp).resolve_right (by simp [Part.passed]))).left
      · exact breaks_free hext.sound hl.grown.ext ih.taken (fun hno => hno rfl) rfl p hp
          (hscope.of_select p hp)
    · -- the arc that skips the cases starts at the selector
      obtain rfl := eq_of_mem_skipArcs hp
      exact (hc.free hr.sound (by simp)).ext (hext'.withPending _) hext.sound.below hc.made.2.mem
  · have hcases : Taken (Part.Ways (.stmt (.select source selector cases)) u.graph) t.scopes
        u.left.scopes := by
      refine (taken_leave ih.taken).2.imp fun p escape htaken => ?_
      obtain ⟨⟨hfits, hways⟩, hlets⟩ := htaken
      refine ⟨hfits, hways.imp_right fun hl => ?_⟩
      have hlets : escape ≠ .breakJump := hlets
      simpa [Part.leftBy, Stmt.leftBy, hlets] using hl
    exact (hc.taken_of _ _).trans hcases

/-- The ends of a block behind a construct. -/
theorem construct_free {point : Point} {effects : Effects} {stmts : List Stmt} (hs : s.Sound)
    (he : Extends P H s t) (hc : Constructs h s point effects head id t)
    (hl : Lowered h (.block stmts) t u) (ht : Tidy (.block stmts) t u) :
    ∀ p ∈ u.pending, Made s u p.source → u.Free p := by
  refine Tidy.free_after t.pending he hl ht fun p hp _ => ?_
  change p ∈ t.pending at hp
  rw [hc.pending_eq] at hp
  rw [List.mem_singleton.1 hp]
  exact hc.free hs (by simp)

/-- A case is tidy if its body and the cases behind it are. -/
theorem case_tidy {fallthrough : List Pending} {c : SwitchCase Stmt}
    (hr : Ready (.cases source id fallthrough (c :: cases)) s)
    (hc : Constructs h (s.withPending (caseFrontier id fallthrough c.label))
      ⟨.caseLabel, some c.id⟩ .none head head t)
    (hl₁ : Lowered h (.block c.body) t u)
    (hl₂ : Lowered h (.cases source id u.pending cases) (u.withPending []) v)
    (ih₁ : Tidy (.block c.body) t u)
    (ih₂ : Tidy (.cases source id u.pending cases) (u.withPending []) v) :
    Tidy (.cases source id fallthrough (c :: cases)) s v := by
  have hext := case_extends hr hc
  obtain ⟨hext', -⟩ := block_made hext hc.made_pending hl₁.grown
  have hleft (escape : Escape) (hl : blockLeftBy escape c.body = true ∨
      casesLeftBy escape cases = true) : casesLeftBy escape (c :: cases) = true :=
    Bool.or_eq_true_iff.2 hl
  refine ⟨fun p hp hm => ih₂.free_after [] hext' hl₂ (fun q hq hmade => ?_) p hp hm, ?_⟩
  · exact construct_free (hr.sound.withPending _) (hc.extends (hr.sound.withPending _)
      (by simp [caseFrontier]) fun p hp => hr.from_mem (caseFrontier_from hp)) hc hl₁ ih₁ q hq hmade
  · have hbody := ih₁.taken_of (.cases source id fallthrough (c :: cases)) hl₂.nodes fun escape hl =>
      hleft escape (.inl hl)
    have hrest := ih₂.taken_of (.cases source id fallthrough (c :: cases)) (List.prefix_refl _)
      fun escape hl => hleft escape (.inr hl)
    exact ((hc.taken_of _ _).trans hbody).trans hrest

end Select

section Try

variable {source : Element} {body finalizer : List Stmt} {catches : List (CatchClause Stmt)}
  {hasFinalizer : Bool} {after : List Pending}

/-- A clause is tidy if its body and the clauses behind it are. -/
theorem catch_tidy {handler : Handler} {handlers : List Handler} {c : CatchClause Stmt}
    {clauses : List (CatchClause Stmt)} {head : NodeId}
    (hr : Ready (.catches (handler :: handlers) (c :: clauses) (u.pending ++ after)) s)
    (hne : handler.incoming ≠ [])
    (hc : Constructs h (s.withPending handler.incoming) ⟨.catchClause, some c.id⟩ .none head head t)
    (hl₁ : Lowered h (.block c.body) t u)
    (hl₂ : Lowered h (.catches handlers clauses after) (u.withPending []) v)
    (ih₁ : Tidy (.block c.body) t u)
    (ih₂ : Tidy (.catches handlers clauses after) (u.withPending []) v) :
    Tidy (.catches (handler :: handlers) (c :: clauses) (u.pending ++ after)) s v := by
  have hext := catch_extends hr hne hc
  obtain ⟨hext', hmade⟩ := block_made hext hc.made_pending hl₁.grown
  have hleft (escape : Escape) (hl : blockLeftBy escape c.body = true ∨
      catchesLeftBy escape clauses = true) : catchesLeftBy escape (c :: clauses) = true :=
    Bool.or_eq_true_iff.2 hl
  refine ⟨fun p hp hm => ?_, ?_⟩
  · rcases List.mem_append.1 hp with hp | hp
    · have hfree := construct_free (hr.sound.withPending _) (hc.extends (hr.sound.withPending _)
        hne fun p hp => hr.inputs p (List.mem_append_left _ hp)) hc hl₁ ih₁ p hp (hmade p hp)
      exact hfree.ext hl₂.grown.ext.of_withPending hext'.sound.below (hmade p hp).mem
    · exact ih₂.free_after [] hext' hl₂ (by simp [Part.passed]) p hp hm
  · have hbody := ih₁.taken_of (.catches (handler :: handlers) (c :: clauses) (u.pending ++ after))
      hl₂.nodes fun escape hl => hleft escape (.inl hl)
    have hrest := ih₂.taken_of (.catches (handler :: handlers) (c :: clauses) (u.pending ++ after))
      (List.prefix_refl _) fun escape hl => hleft escape (.inr hl)
    exact ((hc.taken_of _ _).trans hbody).trans hrest

/-- The ends of the body and of the handlers of a `try` are free inside of it. -/
theorem try_free (hl₁ : Lowered h (.block body) (s.entered (tryScope catches hasFinalizer)) t)
    (hl₂ : Lowered h (.catches t.innermost.handlers catches after)
      ((t.left.withPending []).entered t.innermost.withoutHandlers) u)
    (ih₁ : Tidy (.block body) (s.entered (tryScope catches hasFinalizer)) t)
    (ih₂ : Tidy (.catches t.innermost.handlers catches after)
      ((t.left.withPending []).entered t.innermost.withoutHandlers) u) :
    ∀ p ∈ t.pending ++ after, Made s u p.source → u.Free p := by
  intro p hp hm
  rcases List.mem_append.1 hp with hp | hp
  · have hold := hl₁.grown.outputs_mem hl₁.ready p hp
    have hfree := ih₁.free p hp ⟨hold, hm.2⟩
    refine Free.ext hl₂.grown.ext hl₁.grown.ext.sound.below hold ⟨hfree.1, fun scope hscope => ?_⟩
    rcases List.mem_cons.1 hscope with rfl | hscope
    · -- without its handlers, the `try` has the same ways out
      have hmem : t.innermost ∈ t.scopes := by
        obtain ⟨_, _, _, _, heq⟩ := List.forall₂_cons_left_iff.1 hl₁.grown.ext.scopes
        rw [innermost, heq]
        exact List.mem_cons_self
      rw [Scope.escapes_withoutHandlers]
      exact hfree.2 _ hmem
    · exact hfree.2 scope (List.mem_of_mem_tail hscope)
  · exact ih₂.free p hp ((hl₂.grown.outputs p hp).resolve_right (by simp [Part.passed]))

/-- What leaves a `try` up to its `finally` block, and what waits for this block. -/
theorem try_taken_ways (part : Part)
    (ih₁ : Tidy (.block body) (s.entered (tryScope catches hasFinalizer)) t)
    (hl₂ : Lowered h (.catches t.innermost.handlers catches after)
      ((t.left.withPending []).entered t.innermost.withoutHandlers) u)
    (ih₂ : Tidy (.catches t.innermost.handlers catches after)
      ((t.left.withPending []).entered t.innermost.withoutHandlers) u)
    (hleft : ∀ escape, blockLeftBy escape body = true ∨ catchesLeftBy escape catches = true →
      part.leftBy escape = true) :
    Taken (part.Ways u.graph) s.scopes u.left.scopes ∧
      ∀ e ∈ u.innermost.escapes, part.Ways u.graph e.1 e.2 := by
  obtain ⟨htakes₁, htaken₁⟩ := taken_leave (ih₁.taken_of part hl₂.nodes fun escape hl =>
    hleft escape (.inl hl))
  obtain ⟨htakes₂, htaken₂⟩ := taken_leave (s := t.left.withPending [])
    (ih₂.taken_of part (List.prefix_refl _) fun escape hl => hleft escape (.inr hl))
  refine ⟨(htaken₁.imp fun _ _ => And.left).trans (htaken₂.imp fun _ _ => And.left),
    fun e he => (htakes₂.mem_escapes he).elim (fun hold => ?_) fun hw => hw⟩
  rw [Scope.escapes_withoutHandlers] at hold
  exact (htakes₁.mem_escapes hold).resolve_left (by simp [tryScope, Scope.escapes])

/-- Behind a `finally` block without nodes. -/
theorem nodeless_tidy
    (hl₁ : Lowered h (.block body) (s.entered (tryScope catches true)) t)
    (hl₂ : Lowered h (.catches t.innermost.handlers catches after)
      ((t.left.withPending []).entered t.innermost.withoutHandlers) u)
    (hl₃ : Lowered h (.block finalizer)
      (u.left.withPending (t.pending ++ after ++ u.innermost.escapes.map (·.1))) v)
    (hsize : v.graph.size = u.graph.size)
    (ih₁ : Tidy (.block body) (s.entered (tryScope catches true)) t)
    (ih₂ : Tidy (.catches t.innermost.handlers catches after)
      ((t.left.withPending []).entered t.innermost.withoutHandlers) u) :
    Tidy (.stmt (.tryBlock source body catches (some finalizer))) s ((v.withPending
      (v.pending.filter fun p => !(u.innermost.escapes.map (·.1)).contains p)).sentAll h
        u.innermost.escapes) := by
  have hsame := (hl₃.inert hsize).1
  obtain ⟨htaken, hways⟩ := try_taken_ways (.stmt (.tryBlock source body catches (some finalizer)))
    ih₁ hl₂ ih₂ fun escape hl => by
      simpa only [Part.leftBy, Stmt.leftBy, Bool.or_eq_true] using .inl hl
  have hnodes : u.graph.nodes <+: v.graph.nodes := hl₃.nodes
  refine ⟨fun p hp hm => ?_, ?_⟩
  · change p ∈ Lowering.pending _ at hp
    rw [sentAll_pending] at hp
    -- the ways out have been taken from what is left at the end, and the ends are apart from them
    obtain ⟨hp, hnot⟩ := List.mem_filter.1 hp
    have hnot : p ∉ u.innermost.escapes.map (·.1) := by simpa using hnot
    rw [hsame.pending] at hp
    have hp := (List.mem_append.1 hp).resolve_right hnot
    have hmem : p.source ∈ u.graph.ids :=
      hl₃.ready.inputs p (List.mem_append_left _ hp)
    have hfree := try_free hl₁ hl₂ ih₁ ih₂ p hp ⟨hmem, hm.2⟩
    refine free_sentAll ?_ fun e he heq => hnot (heq ▸ List.mem_map_of_mem he)
    exact hfree.left.ext (hl₃.grown.ext.of_withPending.withPending _) hl₂.grown.ext.sound.below hmem
  · have hsent := taken_sentAll (h := h) (s := v.withPending
      (v.pending.filter fun p => !(u.innermost.escapes.map (·.1)).contains p)) hways
    rw [withPending_scopes, hsame.scopes] at hsent
    refine (htaken.trans hsent).imp fun p escape hw => ?_
    rw [sentAll_graph]
    exact hw.imp hnodes fun hl => hl

theorem redirected_edge {escapes : List (Pending × Escape)} {tails : List Pending}
    {e : Pending × Escape} (he : e ∈ redirected escapes tails) (hthrow : e.2.IsThrow) :
    e.1.edge.kind = .exceptional := by
  obtain ⟨escape, -, he⟩ := List.mem_flatMap.1 he
  obtain ⟨tail, -, rfl⟩ := List.mem_map.1 he
  obtain ⟨exceptionType, heq⟩ := hthrow
  cases escape <;> first | rfl | cases heq

/-- Behind a `finally` block with nodes that only exceptions come through. -/
theorem finalizer_tidy
    (hl₂ : Lowered h (.catches t.innermost.handlers catches after)
      ((t.left.withPending []).entered t.innermost.withoutHandlers) u)
    (hl₃ : Lowered h (.block finalizer)
      (u.left.withPending (t.pending ++ after ++ u.innermost.escapes.map (·.1))) v)
    (hsize : v.graph.size ≠ u.graph.size) (hjumps : jumpsOut body catches = false)
    (ih₁ : Tidy (.block body) (s.entered (tryScope catches true)) t)
    (ih₂ : Tidy (.catches t.innermost.handlers catches after)
      ((t.left.withPending []).entered t.innermost.withoutHandlers) u)
    (ih₃ : Tidy (.block finalizer)
      (u.left.withPending (t.pending ++ after ++ u.innermost.escapes.map (·.1))) v) :
    Tidy (.stmt (.tryBlock source body catches (some finalizer))) s
      ((v.withPending (if (t.pending ++ after).isEmpty then [] else v.pending)).sentAll h
        (redirected u.innermost.escapes v.pending)) := by
  -- only exceptions wait for the block, as no jump leaves the `try`
  have hthrows (e : Pending × Escape) (he : e ∈ u.innermost.escapes) : e.2.IsThrow := by
    obtain ⟨-, hways⟩ := try_taken_ways (.stmt (.tryBlock source body catches none)) ih₁ hl₂ ih₂
      fun _ hl => Bool.or_eq_true_iff.2 hl
    by_contra hno
    have hleft := (hways e he).2.resolve_left hno
    rw [Part.leftBy, Stmt.leftBy, not_leftBy_of_jumpsOut hjumps hno] at hleft
    cases hleft
  have hredirected (e : Pending × Escape) (he : e ∈ redirected u.innermost.escapes v.pending) :
      e.2.IsThrow ∧ e.1.edge.kind = .exceptional := by
    obtain ⟨hmem, -⟩ := mem_redirected he
    obtain ⟨e', he', heq⟩ := List.mem_map.1 hmem
    have hthrow := heq ▸ hthrows e' he'
    exact ⟨hthrow, redirected_edge he hthrow⟩
  obtain ⟨htaken, -⟩ := try_taken_ways (.stmt (.tryBlock source body catches (some finalizer)))
    ih₁ hl₂ ih₂ fun escape hl => by
      simpa only [Part.leftBy, Stmt.leftBy, Bool.or_eq_true] using .inl hl
  have hnodes : u.graph.nodes <+: v.graph.nodes := hl₃.nodes
  refine ⟨fun p hp hm => ?_, ?_⟩
  · have hp := pending_of_finally hp
    have hmade := (hl₃.grown.outputs p hp).resolve_right fun hpass => hsize hpass.2
    have hfree := ih₃.free p hp hmade
    refine free_sentAll hfree fun e he heq => hfree.1 ?_
    rw [← heq]
    exact (hredirected e he).2
  · have hblock := ih₃.taken_of (.stmt (.tryBlock source body catches (some finalizer)))
      (List.prefix_refl _) fun escape hl => by
        simpa only [Part.leftBy, Stmt.leftBy, Bool.or_eq_true] using .inr hl
    have hsent : Taken (Part.Ways (.stmt (.tryBlock source body catches (some finalizer))) v.graph)
        v.scopes _ := taken_sentAll (h := h) (s := v.withPending
      (if (t.pending ++ after).isEmpty then [] else v.pending)) fun e he => by
        obtain ⟨hthrow, hkind⟩ := hredirected e he
        exact ⟨⟨fun _ => hkind, fun hno => absurd hthrow hno⟩, .inl hthrow⟩
    rw [sentAll_graph]
    exact ((htaken.imp fun p escape hw => hw.imp hnodes fun hl => hl).trans hblock).trans hsent

end Try

/-- What adds nothing to the statements around and starts no new arcs is tidy. -/
theorem Tidy.of_old {part : Part} (hs : s.Below) (hscopes : s'.scopes = s.scopes)
    (hp : ∀ p ∈ part.outputs s', p.source ∈ s.graph.ids) : Tidy part s s' := by
  refine ⟨fun p hmem hm => absurd (hp p hmem) (hm.not_mem hs), ?_⟩
  rw [hscopes]
  exact .refl _ _

/-- A branch is tidy if both its sides are. -/
theorem branch_tidy {source : Element} {cond : Effects} {thenBranch elseBranch : List Stmt}
    {head id : NodeId} (hr : Ready (.stmt (.branch source cond thenBranch elseBranch)) s)
    (hne : s.pending ≠ []) (hc : Constructs h s ⟨.predicate, some source.id⟩ cond head id t)
    (hl₁ : Lowered h (.block thenBranch) (t.withPending [.plain id .trueBranch]) u)
    (hl₂ : Lowered h (.block elseBranch) (u.withPending [.plain id .falseBranch]) v)
    (ih₁ : Tidy (.block thenBranch) (t.withPending [.plain id .trueBranch]) u)
    (ih₂ : Tidy (.block elseBranch) (u.withPending [.plain id .falseBranch]) v) :
    Tidy (.stmt (.branch source cond thenBranch elseBranch)) s
      (v.withPending (v.pending ++ u.pending)) := by
  have hext := hc.extends hr.sound hne hr.inputs
  obtain ⟨hext₁, hmade₁⟩ := block_made (hext.withPending _) (made_plain hc.made.2) hl₁.grown
  have hleft (escape : Escape) (hl : blockLeftBy escape thenBranch = true ∨
      blockLeftBy escape elseBranch = true) :
      Part.leftBy escape (.stmt (.branch source cond thenBranch elseBranch)) = true :=
    Bool.or_eq_true_iff.2 hl
  refine ⟨fun p hp hm => ?_, ?_⟩
  · rcases List.mem_append.1 hp with hp | hp
    · refine ih₂.free_after _ hext₁ hl₂ (fun q hq _ => ?_) p hp hm
      rw [List.mem_singleton.1 hq]
      exact (hc.free hr.sound (by simp)).ext hl₁.grown.ext.of_withPending hext.sound.below
        hc.made.2.mem
    · have hfree := ih₁.free_after _ hext hl₁ (fun q hq _ => by
        rw [List.mem_singleton.1 hq]
        exact hc.free hr.sound (by simp)) p hp (hmade₁ p hp)
      exact hfree.ext (hl₂.grown.ext.of_withPending.withPending _) hext₁.sound.below
        (hmade₁ p hp).mem
  · exact ((hc.taken_of _ _).trans (ih₁.taken_of _ hl₂.nodes fun escape hl =>
      hleft escape (.inl hl))).trans (ih₂.taken_of _ (List.prefix_refl _) fun escape hl =>
        hleft escape (.inr hl))

/-- A loop with its test in front. -/
theorem loop_tidy {stmt : Stmt} {l : Loop} {head id : NodeId} {enter : FlowKind}
    {breaks : List Pending} (hloop : stmt.loop? = some l)
    (hl₁ : Lowered h (.block l.init) s t) (hc : Constructs h t l.point l.test head id u)
    (hl₂ : Lowered h (.rounds id head enter l.body l.update breaks) u v)
    (ih₁ : Tidy (.block l.init) s t)
    (ih₂ : Tidy (.rounds id head enter l.body l.update breaks) u v) :
    (∀ p ∈ v.pending ++ [.plain id .falseBranch], v.Free p) ∧
      Taken (Part.Ways (.stmt stmt) v.graph) s.scopes v.scopes := by
  have hleft (escape : Escape) (hl : blockLeftBy escape l.init = true ∨
      Part.leftBy escape (.rounds id head enter l.body l.update breaks) = true) :
      Part.leftBy escape (.stmt stmt) = true := by
    rw [Part.leftBy, Stmt.leftBy_of_loop hloop, Bool.or_assoc, Bool.or_eq_true]
    exact hl
  refine ⟨fun p hp => ?_, ?_⟩
  · rcases List.mem_append.1 hp with hp | hp
    · exact ih₂.free p hp ((hl₂.grown.outputs p hp).resolve_right (by simp [Part.passed]))
    · rw [List.mem_singleton.1 hp]
      exact (hc.free hl₁.grown.ext.sound (by simp)).ext hl₂.grown.ext hl₂.ready.sound.below
        hc.made.2.mem
  · exact ((ih₁.taken_of _ (hc.nodes.1.trans hl₂.nodes) fun escape hl =>
      hleft escape (.inl hl)).trans (hc.taken_of _ _)).trans
        (ih₂.taken_of _ (List.prefix_refl _) fun escape hl => hleft escape (.inr hl))

/-- A jump has the node that its way out starts from, and leaves by it. -/
theorem jump_spec {stmt : Stmt} {j : Jump} (hj : stmt.jump? = some j) :
    j.kind = j.escape.nodeKind ∧ (j.escape.IsThrow ∨ stmt.leftBy j.escape = true) := by
  cases stmt with
  | returnJump _ value => cases value <;> cases hj <;> exact ⟨rfl, .inr rfl⟩
  | throwJump _ _ _ => cases hj; exact ⟨rfl, .inl ⟨_, rfl⟩⟩
  | breakJump _ => cases hj; exact ⟨rfl, .inr rfl⟩
  | continueJump _ => cases hj; exact ⟨rfl, .inr rfl⟩
  | _ => cases hj

/-- A jump is tidy, as nothing waits behind it. -/
theorem jump_tidy {stmt : Stmt} {j : Jump} {head id : NodeId} (hj : stmt.jump? = some j)
    (hc : Constructs h s ⟨j.kind, some j.source.id⟩ j.value head id t) :
    Tidy (.stmt stmt) s ((t.withPending []).sent h ⟨id, j.escape.edge⟩ j.escape) := by
  obtain ⟨hkind, hleft⟩ := jump_spec hj
  refine ⟨fun p hp => (List.not_mem_nil hp).elim, (hc.taken_of _ _).trans
    (taken_deliver h ⟨id, j.escape.edge⟩ j.escape ⟨⟨?_, fun hno => ⟨?_, ?_⟩⟩, hleft⟩ _)⟩
  · rintro ⟨exceptionType, heq⟩
    rw [heq]
    rfl
  · cases heq : j.escape with
    | throwJump exceptionType => exact absurd ⟨exceptionType, heq⟩ hno
    | breakJump => simp [Escape.edge]
    | continueJump => simp [Escape.edge]
    | returnJump => simp [Escape.edge]
  · rw [← hkind]
    obtain ⟨node, hnode, hid, hpoint⟩ := hc.own_node
    exact ⟨node, hnode, hid, congrArg Point.kind hpoint⟩

/-- In a `try` with a `finally` block without nodes, ends stay apart from ways out. -/
theorem Lowered.tidy {part : Part} (hl : Lowered h part s s') (hapart : part.EndsApart) :
    Tidy part s s' := by
  induction hl with
  | skip hr _ => exact .of_old hr.sound.below rfl hr.inputs
  | simple hr _ hc =>
    refine ⟨fun p hp _ => ?_, hc.taken_of _ _⟩
    change p ∈ Lowering.pending _ at hp
    rw [hc.pending_eq] at hp
    rw [List.mem_singleton.1 hp]
    exact hc.free hr.sound (by simp)
  | branch hr hne hc hl₁ hl₂ ih₁ ih₂ =>
    obtain ⟨h₁, h₂⟩ := Bool.and_eq_true_iff.1 hapart
    exact branch_tidy hr hne hc hl₁ hl₂ (ih₁ h₁) (ih₂ h₂)
  | loopUnentered _ _ hloop hl hnil ih =>
    have htidy := ih ((Stmt.endsApart_loop_iff hloop).1 hapart).1
    refine ⟨htidy.free, htidy.taken_of _ (List.prefix_refl _) fun escape hl => ?_⟩
    rw [Part.leftBy, Stmt.leftBy_of_loop hloop, Bool.or_assoc]
    exact Bool.or_eq_true_iff.2 (.inl hl)
  | tested _ _ hloop _ hl₁ _ hc hl₂ ih₁ ih₂ =>
    obtain ⟨hinit, hrounds⟩ := (Stmt.endsApart_loop_iff hloop).1 hapart
    obtain ⟨hfree, htaken⟩ := loop_tidy hloop hl₁ hc hl₂ (ih₁ hinit) (ih₂ hrounds)
    exact ⟨fun p hp _ => hfree p hp, htaken⟩
  | endless _ _ hloop _ hl₁ _ hc hl₂ ih₁ ih₂ =>
    obtain ⟨hinit, hrounds⟩ := (Stmt.endsApart_loop_iff hloop).1 hapart
    obtain ⟨hfree, htaken⟩ := loop_tidy hloop hl₁ hc hl₂ (ih₁ hinit) (ih₂ hrounds)
    split
    · exact ⟨fun p hp _ => hfree p (List.mem_append_left _ hp), htaken⟩
    · exact ⟨fun p hp _ => hfree p (List.mem_append_left _ hp), htaken⟩
  | rounds hr hl₁ hl₂ ih₁ ih₂ =>
    exact rounds_tidy hr.sound hl₁ hl₂ (ih₁ hapart.1) (ih₂ hapart.2)
  | updateUnentered hr _ => exact .of_old hr.sound.below rfl hr.inputs
  | update _ _ _ ih => exact ⟨(ih hapart).free, (ih hapart).taken⟩
  | footless hr _ hl _ ih => exact footless_tidy hr.sound hl (ih hapart)
  | footed hr _ hl hne hc ih => exact footed_tidy hr hl hne hc (ih hapart) _
  | select hr hne hc hl ih => exact select_tidy hr hne hc hl (ih hapart)
  | casesEnd hr =>
    exact .of_old hr.sound.below rfl fun p hmem => hr.inputs p (List.mem_append_left _ hmem)
  | case hr hc hl₁ hl₂ ih₁ ih₂ =>
    obtain ⟨h₁, h₂⟩ := Bool.and_eq_true_iff.1 hapart
    exact case_tidy hr hc hl₁ hl₂ (ih₁ h₁) (ih₂ h₂)
  | jump _ _ hj hc => exact jump_tidy hj hc
  | @tryPlain source body catches _ _ _ _ _ _ hl₁ hl₂ ih₁ ih₂ =>
    obtain ⟨h₁, h₂⟩ := Bool.and_eq_true_iff.1 hapart
    refine ⟨fun p hp hm => (try_free hl₁ hl₂ (ih₁ h₁) (ih₂ h₂) p hp hm).left, ?_⟩
    exact (try_taken_ways (.stmt (.tryBlock source body catches none)) (ih₁ h₁) hl₂ (ih₂ h₂)
      fun _ hl => Bool.or_eq_true_iff.2 hl).1
  | tryNodeless _ _ hl₁ hl₂ hl₃ hsize ih₁ ih₂ _ =>
    simp only [Part.EndsApart, Stmt.endsApart, Bool.true_or, Bool.and_eq_true] at hapart
    exact nodeless_tidy hl₁ hl₂ hl₃ hsize (ih₁ hapart.1.1.2) (ih₂ hapart.1.2)
  | tryFinally _ _ hl₁ hl₂ hl₃ hsize ih₁ ih₂ ih₃ =>
    simp only [Part.EndsApart, Stmt.endsApart, Bool.true_or, Bool.true_and, Bool.and_eq_true,
      Bool.not_eq_true', Bool.and_eq_false_iff] at hapart
    obtain ⟨⟨⟨hno | hjumps, h₁⟩, h₂⟩, h₃⟩ := hapart
    · exact absurd (hl₃.size_eq hno) hsize
    · exact finalizer_tidy hl₂ hl₃ hsize hjumps (ih₁ h₁) (ih₂ h₂) (ih₃ h₃)
  | catchesEnd hr => exact .of_old hr.sound.below rfl (by simp [Part.outputs])
  | catchesUnhandled hr => exact .of_old hr.sound.below rfl (by simp [Part.outputs])
  | catchUnentered _ _ _ ih =>
    obtain ⟨-, h₂⟩ := Bool.and_eq_true_iff.1 hapart
    exact ⟨(ih h₂).free, (ih h₂).taken_of _ (List.prefix_refl _) fun _ hl =>
      Bool.or_eq_true_iff.2 (.inr hl)⟩
  | «catch» hr hne hc hl₁ hl₂ ih₁ ih₂ =>
    obtain ⟨h₁, h₂⟩ := Bool.and_eq_true_iff.1 hapart
    exact catch_tidy hr hne hc hl₁ hl₂ (ih₁ h₁) (ih₂ h₂)
  | nested _ _ _ ih => exact ⟨(ih hapart).free, (ih hapart).taken⟩
  | blockEnd hr => exact .of_old hr.sound.below rfl hr.inputs
  | @blockNext stmt stmts _ _ _ _ hl₁ hl₂ ih₁ ih₂ =>
    obtain ⟨h₁, h₂⟩ := Bool.and_eq_true_iff.1 hapart
    refine ⟨fun p hp hm => (ih₂ h₂).free_after _ hl₁.grown.ext hl₂ (ih₁ h₁).free p hp hm, ?_⟩
    exact ((ih₁ h₁).taken_of (.block (stmt :: stmts)) hl₂.nodes fun _ hl => Bool.or_eq_true_iff.2 (.inl hl)).trans
      ((ih₂ h₂).taken_of _ (List.prefix_refl _) fun _ hl => Bool.or_eq_true_iff.2 (.inr hl))

/-- No end of a `try` with a `finally` block without nodes is also a way out of it. -/
theorem try_apart {body : List Stmt} {catches : List (CatchClause Stmt)} {after : List Pending}
    (hl₁ : Lowered h (.block body) (s.entered (tryScope catches true)) t)
    (hl₂ : Lowered h (.catches t.innermost.handlers catches after)
      ((t.left.withPending []).entered t.innermost.withoutHandlers) u)
    (hbody : blockEndsApart true body) (hcatches : catchesEndsApart true catches) :
    ∀ p ∈ t.pending ++ after, p ∉ u.innermost.escapes.map (·.1) := by
  intro p hp hmem
  obtain ⟨e, he, rfl⟩ := List.mem_map.1 hmem
  obtain ⟨-, hescapes, -⟩ := try_grown hl₁.grown hl₂.grown
  have hinner : u.innermost ∈ u.scopes := by
    obtain ⟨_, _, _, _, heq⟩ := List.forall₂_cons_left_iff.1 hl₂.grown.ext.scopes
    rw [innermost, heq]
    exact List.mem_cons_self
  exact (try_free hl₁ hl₂ (hl₁.tidy hbody) (hl₂.tidy hcatches) e.1 hp (hescapes e he)).2 _ hinner e
    he rfl

end Lowering

end Slicing
