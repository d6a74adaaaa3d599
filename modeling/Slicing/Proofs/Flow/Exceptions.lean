import Slicing.Proofs.Flow.Placement
import Slicing.Proofs.Flow.Raising

/-!
# Where exceptions lead

In a callable without `finally` blocks, the exceptional edges of a node lead exactly where the
exception goes (`FlowGraph.build_routesExceptions`). The `try` statements whose body the node is in
are looked at from the innermost outwards, and in each the catch clauses in order: all clauses that
take the exception get an edge, up to one that takes it for certain. If there is none, an edge leads
to where the callable is left.

A catch clause has a node if an exception that is raised in the body of its `try` goes there, and
only then (`Lowering.Builds.clauses_answered`): what waits at a handler was raised in the body
(`Lowering.Run.Derived.origin`).
-/

namespace Slicing

namespace Lowering

variable {h : Hierarchy} {s s' t u : Lowering} {x : NodeId} {exceptionType : String} {q r : Run}
  {gs : Guards} {types : List (Option String)} {onWay : Bool} {p : Pending}

/-! ## The origin of what handlers take -/

/-- An arc is that of an exception that is raised in the course of a run. -/
def RaisedIn (h : Hierarchy) (r : Run) (p : Pending) : Prop :=
  ∃ gs q x exceptionType, Within h r gs q ∧ Raises h q x exceptionType ∧ p = raised x exceptionType

/-- What waits at a handler behind a run came from older nodes, or was raised in the run. -/
theorem Run.Derived.origin (hr : r.Derived h) (hp : r.Plain) (hs : r.first.Sound) :
    ∀ handler ∈ r.last.scopes.flatMap Scope.handlers, ∀ p ∈ handler.incoming,
      p.source.number < r.first.nextId ∨ RaisedIn h r p := by
  refine hr.keeps (I := fun a => ∀ handler ∈ a.scopes.flatMap Scope.handlers, ∀ p ∈ handler.incoming,
    p.source.number < r.first.nextId ∨ RaisedIn h r p) ?_ ?_
  · intro gs q p escape hq hsends a ha handler hhandler p' hp'
    cases hsends with
    | @raise _ x exceptionType hx =>
      -- a handler gets nothing from this but the arc itself
      have hgrows := List.rel_flatMap
        (deliver_grows h (raised x exceptionType) (.throwJump exceptionType) a.scopes)
        fun _ _ hg => hg.handlers
      obtain ⟨old, hold, hg⟩ := forall₂_mem_right hgrows hhandler
      rcases hg.2.mem_or hp' with hp' | rfl
      · exact ha old hold p' hp'
      · exact .inr ⟨gs, q, x, exceptionType, hq, hx, rfl⟩
    | jump id hj hno =>
      rw [Surroundings.sent, deliver_jump h _ hno] at hhandler
      exact ha handler hhandler p' hp'
    | resume _ _ hfinal => exact absurd hfinal (hq.plain hr hp).not_isFinal
  · intro handler hhandler p hp
    exact .inl (hs.below _ (hs.collected p (mem_collected_iff.2 (.inl ⟨handler, hhandler, hp⟩))))

/-! ## Catch clauses -/

/-- What became of the clause of a handler: there is a node for it if something leads there, and it is
    unreachable otherwise. -/
def Answered (t : Lowering) (handler : Handler) (guard : CatchClause Stmt × Option NodeId) : Prop :=
  match guard.2 with
  | some y => handler.incoming ≠ [] ∧ t.graph.At y ⟨.catchClause, some guard.1.id⟩
  | none => handler.incoming = [] ∧ guard.1.id ∈ t.graph.unreachable

/-- A handler stays answered by its clause. -/
theorem Answered.mono {handler : Handler} {guard : CatchClause Stmt × Option NodeId}
    (hs : Precedes s t) (ha : Answered s handler guard) : Answered t handler guard := by
  obtain ⟨clause, node⟩ := guard
  cases node with
  | some y =>
    obtain ⟨hne, node, hnode, hid⟩ := ha
    exact ⟨hne, node, hs.nodes.subset hnode, hid⟩
  | none => exact ⟨ha.1, hs.unreachable ha.2⟩

/-- Each handler is answered by the node of its clause, if it was lowered. -/
theorem ClauseNodes.answered {handlers : List Handler} {clauses : List (CatchClause Stmt)}
    {after : List Pending} {nodes : List (Option NodeId)}
    (hn : ClauseNodes h handlers clauses after s t nodes) (hlen : handlers.length = clauses.length) :
    Precedes s t ∧ List.Forall₂ (Answered t) handlers (clauses.zip nodes) := by
  induction hn with
  | nil =>
    obtain rfl := List.length_eq_zero_iff.1 hlen
    exact ⟨.refl _, .nil⟩
  | unhandled =>
    obtain rfl := List.length_eq_zero_iff.1 hlen.symm
    exact ⟨.refl _, .nil⟩
  | @unentered handler _ clause _ _ s _ _ hin _ ih =>
    obtain ⟨hprec, hrest⟩ := ih (Nat.succ.inj hlen)
    refine ⟨(Precedes.skipped s clause.id).trans hprec, .cons ⟨hin, ?_⟩ hrest⟩
    exact hprec.unreachable (List.mem_append_right _ (List.mem_singleton_self _))
  | @entered handler _ c _ _ s t u v head _ hne hc hl _ ih =>
    obtain ⟨hprec, hrest⟩ := ih (Nat.succ.inj hlen)
    have hbody : Precedes t u := Run.Derived.precedes (r := (Part.block c.body).run t u) hl
    have hcatch : Precedes (s.withPending handler.incoming) t := hc.precedes
    have hbehind : Precedes t v := hbody.trans ⟨hprec.1, hprec.2, hprec.3⟩
    refine ⟨Precedes.trans ⟨hcatch.1, hcatch.2, hcatch.3⟩ hbehind, .cons ⟨hne, ?_⟩ hrest⟩
    obtain ⟨node, hnode, hid⟩ := hc.own_node
    exact ⟨node, hbehind.nodes.subset hnode, hid⟩

/-- The body of a `try` without `finally` block, and its catch clauses with their nodes. -/
def Run.Handles (h : Hierarchy) (q body : Run) (guards : Guards) : Prop :=
  ∃ clauses, Consists h q [(body, guards), (clauses, [])] ∧ body.Derived h ∧ clauses.Derived h

section Handles

variable {source : Element} {stmts : List Stmt} {catches : List (CatchClause Stmt)} {body : Run}
  {guards : Guards}

/-- A `try` that was reached has been lowered with its body and its clauses. -/
theorem Lowered.handles (hl : Lowered h (.stmt (.tryBlock source stmts catches none)) s s')
    (hne : s.pending ≠ []) :
    ∃ body guards, ((Part.stmt (.tryBlock source stmts catches none)).run s s').Handles h body guards := by
  obtain ⟨t, u, after, hl₁, hl₂, hlast⟩ := hl.try_inv hne
  obtain ⟨nodes, hn⟩ := hl₂.clauseNodes
  have hlast : s' = u.left.withPending (t.pending ++ after) := hlast
  rw [hlast]
  exact ⟨_, _, _, .tryPlain hne hn, hl₁, hl₂⟩

/-- What waits at the handlers of a `try` behind its body was raised in the body, and decides on the
    nodes of its clauses. -/
theorem Run.Handles.answered (hh : q.Handles h body guards) (hq : q.Derived h) (hp : q.Plain)
    (htask : q.task = .part (.stmt (.tryBlock source stmts catches none))) :
    Inside h q guards body ∧ guards.map (·.1) = catches ∧
      ∃ handlers outer, body.last.scopes.flatMap Scope.handlers = handlers ++ outer ∧
        List.Forall₂ (Answered q.last) handlers guards ∧
        ∀ handler ∈ handlers, ∀ p ∈ handler.incoming, RaisedIn h body p := by
  obtain ⟨clauses, hc, hl₁, hl₂⟩ := hh
  obtain ⟨task, first, last⟩ := q
  obtain rfl : task = _ := htask
  have hin : Inside h _ guards body := ⟨_, hc, Pieces.two hl₁ hl₂, List.mem_cons_self⟩
  have hin' : Inside h _ [] clauses :=
    ⟨_, hc, Pieces.two hl₁ hl₂, List.mem_cons_of_mem _ List.mem_cons_self⟩
  have hplain := hin.plain hq hp
  have hafter := (hin'.precedes hq).2
  refine ⟨hin, ?_⟩
  cases hc with
  | @tryPlain _ _ _ _ t u after nodes hne hn =>
    have hbody : Lowered h (.block stmts) (first.entered (tryScope catches false)) t := hl₁
    obtain ⟨handlers, escapes, heq, hhandlers, -⟩ := hbody.grown.ext.leave.2.of_tryScope
    have hlen : t.innermost.handlers.length = catches.length := by
      rw [heq]
      exact hhandlers.length_eq.symm
    obtain ⟨-, hanswered⟩ := hn.answered hlen
    have hscopes : t.scopes.flatMap Scope.handlers =
        t.innermost.handlers ++ t.left.scopes.flatMap Scope.handlers := by
      rw [hbody.scopes_eq]
      rfl
    refine ⟨hn.map_zip, _, _, hscopes, hanswered.imp fun _ _ => .mono hafter, fun handler hmem p hp => ?_⟩
    have horigin := Run.Derived.origin hl₁ hplain hbody.ready.sound handler
      (hscopes ▸ List.mem_append_left _ hmem) p hp
    refine horigin.resolve_left fun hold => ?_
    -- the handlers of a `try` are empty before its body is lowered
    obtain ⟨clause, -, -, hmade⟩ := forall₂_mem_right hhandlers (show handler ∈ handlers by
      rw [heq] at hmem
      exact hmem)
    exact absurd hold (Nat.not_lt.2 (hmade p hp).2)

end Handles

/-! ## Callables -/

/-- The catch clause at a position takes an exception, if the clauses in charge are asked in order. -/
def Takes (h : Hierarchy) (exceptionType : String) (gs : Guards) (position : Nat) : Prop :=
  (caught h exceptionType true (gs.map (·.1.exceptionType)))[position]? = some true

/-- Each handler is marked by whether it takes an exception. -/
theorem getElem?_offerMarks {mark : Mark} {k : Nat} :
    (offerMarks h exceptionType onWay types)[k]? = some mark ↔
      ∃ type takes, types[k]? = some type ∧ (caught h exceptionType onWay types)[k]? = some takes ∧
        (type, fun _ => takes = true) = mark :=
  List.getElem?_zipWith_eq_some

/-- A clause that takes an exception is marked so. -/
theorem Takes.mem_zip {k : Nat} {clause : CatchClause Stmt} {node : Option NodeId}
    (hk : Takes h exceptionType gs k) (hguard : gs[k]? = some (clause, node)) :
    ((clause, node), (clause.exceptionType, fun _ => true = true)) ∈
      gs.zip (offerMarks h exceptionType true (gs.map (·.1.exceptionType))) := by
  have hmark := getElem?_offerMarks.2 ⟨clause.exceptionType, true, by simp [hguard], hk, rfl⟩
  exact List.mem_of_getElem? (List.getElem?_zip_eq_some.2 ⟨hguard, hmark⟩)

/-- The edges of an exception lead to the clauses that take it. -/
theorem led_offerMarks {e : NodeId × NodeId × FlowEdge} :
    Led gs (offerMarks h exceptionType true (gs.map (·.1.exceptionType))) e ↔
      ∃ k clause, gs[k]? = some (clause, some e.2.1) ∧ Takes h exceptionType gs k := by
  constructor
  · rintro ⟨⟨⟨clause, node⟩, mark⟩, hmem, rfl, hmark⟩
    obtain ⟨k, hk⟩ := List.mem_iff_getElem?.1 hmem
    obtain ⟨hguard, hmk⟩ := List.getElem?_zip_eq_some.1 hk
    obtain ⟨type, takes, -, htakes, rfl⟩ := getElem?_offerMarks.1 hmk
    obtain rfl : takes = true := hmark
    exact ⟨k, clause, hguard, htakes⟩
  · rintro ⟨k, clause, hguard, htakes⟩
    exact ⟨_, htakes.mem_zip hguard, rfl, rfl⟩

theorem Marked.types_eq {W : Pending → Prop} {marks : List Mark} (hm : Marked W gs marks)
    (hlen : gs.length = marks.length) : marks.map (·.1) = gs.map (·.1.exceptionType) :=
  calc marks.map (·.1)
    _ = ((gs.zip marks).map (·.2)).map (·.1) := by rw [List.map_snd_zip (Nat.le_of_eq hlen.symm)]
    _ = ((gs.zip marks).map (·.1)).map (·.1.exceptionType) := by
      rw [List.map_map, List.map_map]
      exact List.map_congr_left hm.types
    _ = gs.map (·.1.exceptionType) := by rw [List.map_fst_zip (Nat.le_of_eq hlen)]

namespace Builds

variable {decl : CallableDecl} {body : List Stmt} {n : Nat} {ins es : List Emission}
  {outs : List (OutputSlot × NodeId)} {g : FlowGraph}

/-- A body without `finally` blocks is lowered plainly. -/
theorem bodyRun_plain (hb : Builds h decl body n ins t s es outs u g)
    (hbody : blockHasFinalizer body = false) : (bodyRun ins body t s).Plain := by
  refine ⟨hbody, fun scope hscope => ?_⟩
  have hopen : t.scopes = [] := List.forall₂_nil_left_iff.1 hb.opening_ext.scopes
  have hscope : scope ∈ t.scopes := hscope
  rw [hopen] at hscope
  cases hscope

/-- Where the exceptions lead that are raised in the body of a callable without `finally` blocks. -/
theorem raises_settled (hb : Builds h decl body n ins t s es outs u g)
    (hbody : blockHasFinalizer body = false) (hq : Within h (bodyRun ins body t s) gs q)
    (hx : Raises h q x exceptionType) :
    q.first.handlerTypes = gs.map (·.1.exceptionType) ∧
      (∀ y, (x, y, ⟨.exceptional, some exceptionType⟩) ∈ g.edges ↔
        (∃ k clause, gs[k]? = some (clause, some y) ∧ Takes h exceptionType gs k) ∨
          (∀ guard ∈ gs, h.exceptionMatch exceptionType guard.1.exceptionType ≠ .definite) ∧
            y = g.idAt g.exitHead) ∧
      ∀ k clause node, gs[k]? = some (clause, node) → Takes h exceptionType gs k → node.isSome := by
  have hplain := hb.bodyRun_plain hbody
  obtain ⟨hW, hset⟩ := Within.raises_settled hb.body hplain hq hx
  have hfinal (gs : Guards) (q : Run) (hq : Within h (bodyRun ins body t s) gs q) (hf : q.IsFinal) :
      Wholly (· = raised x exceptionType) :=
    absurd hf (hq.plain (show (bodyRun ins body t s).Derived h from hb.body) hplain).not_isFinal
  obtain ⟨hedges, hmarked, hlen⟩ := hb.settled hq hW hfinal hset
  have htypes : q.first.handlerTypes = gs.map (·.1.exceptionType) :=
    offerMarks_types.symm.trans (hmarked.types_eq hlen)
  rw [htypes] at hedges hmarked
  refine ⟨htypes, fun y => ?_, fun k clause node hguard htakes => ?_⟩
  · rw [hedges (x, y, _) rfl, false_or, led_offerMarks, List.forall_mem_map]
  · cases node with
    | some y => rfl
    | none => exact (hmarked.nodes _ (htakes.mem_zip hguard) rfl (raised x exceptionType) rfl rfl).elim

/-- An exception that waits at a handler behind a run in which it was raised is taken there. -/
theorem takes_of_mem (hb : Builds h decl body n ins t s es outs u g)
    (hbody : blockHasFinalizer body = false) {gs' : Guards} (hr : Within h (bodyRun ins body t s) gs r)
    (hq : Within h r gs' q) (hx : Raises h q x exceptionType) {k : Nat} {handler : Handler}
    (hhandler : (r.last.scopes.flatMap Scope.handlers)[k]? = some handler)
    (hmem : raised x exceptionType ∈ handler.incoming) :
    Takes h exceptionType (gs' ++ gs) (gs'.length + k) := by
  have hrun : (bodyRun ins body t s).Derived h := hb.body
  have hplain := hb.bodyRun_plain hbody
  obtain ⟨hW, hset⟩ := Within.raises_settled hb.body hplain (hr.trans hq) hx
  have hfinal (gs : Guards) (q : Run) (hq : Within h r gs q) (hf : q.IsFinal) :
      Wholly (· = raised x exceptionType) :=
    absurd hf ((hr.trans hq).plain hrun hplain).not_isFinal
  obtain ⟨mark, hmark, hholds⟩ := forall₂_getElem?
    (hq.settled (hr.derived hrun) hW hfinal hset).1.tracked.handlers hhandler
  rw [List.getElem?_drop, getElem?_offerMarks,
    (hb.raises_settled hbody (hr.trans hq) hx).1] at hmark
  obtain ⟨type, takes, -, htakes, rfl⟩ := hmark
  obtain rfl : takes = true := (hholds.2 _ rfl).1 hmem
  exact htakes

/-- What became of the catch clauses of a `try` in the body of a callable without `finally` blocks. -/
theorem clauses_answered (hb : Builds h decl body n ins t s es outs u g)
    (hbody : blockHasFinalizer body = false) (hq : Within h (bodyRun ins body t s) gs q)
    {source : Element} {stmts : List Stmt} {catches : List (CatchClause Stmt)} {inner : Run}
    {guards : Guards} (htask : q.task = .part (.stmt (.tryBlock source stmts catches none)))
    (hh : q.Handles h inner guards) :
    guards.map (·.1) = catches ∧ ∀ k clause node, guards[k]? = some (clause, node) →
      (node.isSome ↔ ∃ gs' r x exceptionType, Within h inner gs' r ∧ Raises h r x exceptionType ∧
        Takes h exceptionType (gs' ++ (guards ++ gs)) (gs'.length + k)) ∧
      (∀ y, node = some y → g.At y ⟨.catchClause, some clause.id⟩) ∧
      (node = none → clause.id ∈ g.unreachable) := by
  have hrun : (bodyRun ins body t s).Derived h := hb.body
  obtain ⟨hin, hclauses, handlers, outer, hscopes, hanswered, hraised⟩ :=
    hh.answered (hq.derived hrun) (hq.plain hrun (hb.bodyRun_plain hbody)) htask
  have hinner : Within h (bodyRun ins body t s) (guards ++ gs) inner := .inside hq hin
  refine ⟨hclauses, fun k clause node hguard => ?_⟩
  obtain ⟨handler, hhandler, ha⟩ := forall₂_getElem? hanswered.flip hguard
  have ha : Answered s handler (clause, node) := Answered.mono (hq.precedes hrun).2 ha
  have hinnermost : (inner.last.scopes.flatMap Scope.handlers)[k]? = some handler := by
    rw [hscopes]
    exact List.getElem?_append_left (List.getElem?_eq_some_iff.1 hhandler).1 ▸ hhandler
  refine ⟨⟨fun hsome => ?_, ?_⟩, ?_, ?_⟩
  · -- there is a node as something waits at the handler, and this was raised in the body
    obtain ⟨y, rfl⟩ := Option.isSome_iff_exists.1 hsome
    obtain ⟨p, hp⟩ := List.exists_mem_of_ne_nil _ ha.1
    obtain ⟨gs', r, x, exceptionType, hr, hx, rfl⟩ :=
      hraised handler (List.mem_of_getElem? hhandler) p hp
    exact ⟨gs', r, x, exceptionType, hr, hx, hb.takes_of_mem hbody hinner hr hx hinnermost hp⟩
  · rintro ⟨gs', r, x, exceptionType, hr, hx, htakes⟩
    refine (hb.raises_settled hbody (hinner.trans hr) hx).2.2 _ clause node ?_ htakes
    rw [List.getElem?_append_right (Nat.le_add_right _ _), Nat.add_sub_cancel_left,
      List.getElem?_append_left (List.getElem?_eq_some_iff.1 hguard).1, hguard]
  · rintro y rfl
    exact ha.2.mono hb.whole.part
  · rintro rfl
    rw [hb.unreachable_eq]
    exact ha.2

/-- Callables are left through their first formal-out, or right at the exit. -/
theorem head?_exits (hb : Builds h decl body n ins t s es outs u g) :
    (g.formalOuts.map (·.2) ++ [g.exit.id]).head? = some (g.idAt g.exitHead) := by
  have hexit : g.exit = s.graph.exit :=
    (FlowGraph.ends_eq (hb.whole.nodes ▸ List.prefix_append _ _)).2
  have houts : g.formalOuts = outs := by
    obtain ⟨k, rfl, hk⟩ := hb.exists_sealed
    obtain ⟨p, hp⟩ := headed_eq k
    rw [hp, ← hk.formalOuts]
    rfl
  rw [← hb.whole.first, houts, outs_ids hb.outNodes, hexit]

end Builds

end Lowering

namespace FlowGraph

open Lowering

variable {h : Hierarchy} {decl : CallableDecl} {stmts : List Stmt} {n : Nat} {g : FlowGraph}

/-- In a graph, exceptions lead where they should that are raised in the body of a callable. -/
structure RoutesExceptions (h : Hierarchy) (g : FlowGraph) (body : Run) : Prop where
  /-- An exception leads to the nodes of the catch clauses in charge that take it, and out of the
      callable if none of them takes it for certain. -/
  edges {gs : Guards} {q : Run} {x : NodeId} {exceptionType : String} : Within h body gs q →
    Raises h q x exceptionType → ∀ y, (x, y, ⟨.exceptional, some exceptionType⟩) ∈ g.edges ↔
      (∃ k clause, gs[k]? = some (clause, some y) ∧ Takes h exceptionType gs k) ∨
        (∀ guard ∈ gs, h.exceptionMatch exceptionType guard.1.exceptionType ≠ .definite) ∧
          y = g.idAt g.exitHead
  /-- There is a node for each clause that takes an exception. -/
  nodes {gs : Guards} {q : Run} {x : NodeId} {exceptionType : String} : Within h body gs q →
    Raises h q x exceptionType → ∀ k clause node, gs[k]? = some (clause, node) →
      Takes h exceptionType gs k → node.isSome
  /-- A `try` that was reached has been lowered with its body and its catch clauses. -/
  handles {gs : Guards} {q : Run} {source : Element} {stmts : List Stmt}
    {catches : List (CatchClause Stmt)} : Within h body gs q → q.first.pending ≠ [] →
      q.task = .part (.stmt (.tryBlock source stmts catches none)) →
        ∃ inner guards, q.Handles h inner guards
  /-- A catch clause has a node if it takes an exception that is raised in the body of its `try`, and
      is unreachable otherwise. -/
  clauses {gs : Guards} {q : Run} {source : Element} {stmts : List Stmt}
    {catches : List (CatchClause Stmt)} {inner : Run} {guards : Guards} : Within h body gs q →
      q.task = .part (.stmt (.tryBlock source stmts catches none)) → q.Handles h inner guards →
        guards.map (·.1) = catches ∧ ∀ k clause node, guards[k]? = some (clause, node) →
          (node.isSome ↔ ∃ gs' r x exceptionType, Within h inner gs' r ∧
            Raises h r x exceptionType ∧
            Takes h exceptionType (gs' ++ (guards ++ gs)) (gs'.length + k)) ∧
          (∀ y, node = some y → g.At y ⟨.catchClause, some clause.id⟩) ∧
          (node = none → clause.id ∈ g.unreachable)
  /-- Callables are left through their first formal-out, or right at the exit. -/
  exits : (g.formalOuts.map (·.2) ++ [g.exit.id]).head? = some (g.idAt g.exitHead)

/-- In a callable without `finally` blocks, every exception leads exactly to the catch clauses that
    take it. -/
theorem build_routesExceptions (hbody : decl.body = some stmts)
    (hplain : blockHasFinalizer stmts = false) (hg : (build h decl n).1 = .ok g) :
    ∃ ins t s es outs u, Builds h decl stmts n ins t s es outs u g ∧
      g.RoutesExceptions h (Builds.bodyRun ins stmts t s) := by
  obtain ⟨ins, t, s, es, outs, u, hb⟩ := build_eq_ok hbody hg
  have hrun : (Builds.bodyRun ins stmts t s).Derived h := hb.body
  refine ⟨ins, t, s, es, outs, u, hb, ?_, ?_, ?_, ?_, hb.head?_exits⟩
  · intro gs q x exceptionType hq hx
    exact (hb.raises_settled hplain hq hx).2.1
  · intro gs q x exceptionType hq hx
    exact (hb.raises_settled hplain hq hx).2.2
  · intro gs q source body catches hq hne htask
    have hd := hq.derived hrun
    obtain ⟨task, first, last⟩ := q
    obtain rfl : task = _ := htask
    exact Lowered.handles hd hne
  · intro gs q source body catches inner guards hq htask hh
    exact hb.clauses_answered hplain hq htask hh

/-- A statement that may raise an exception, and a clause that catches it. -/
def caughtStep : List Stmt := [
  .tryBlock ⟨⟨0⟩, "try", none⟩ [.simple ⟨⟨1⟩, "x", none⟩ ⟨[], [], [], ["E"]⟩]
    [⟨⟨2⟩, some "E", "e", []⟩] none]

/-- The exception is raised inside of the `try`. -/
theorem caughtStep_raises {s s' : Lowering} (hne : s.pending ≠ [])
    (hl : Lowered h (.block caughtStep) s s') :
    ∃ clause node q x, Within h ((Part.block caughtStep).run s s') [(clause, node)] q ∧
      Raises h q x "E" := by
  cases hl with
  | blockNext _ hl hrest =>
    obtain ⟨t, u, after, hl₁, hl₂, hlast⟩ := hl.try_inv hne
    obtain rfl : _ = u.left.withPending (t.pending ++ after) := hlast
    obtain ⟨nodes, hn⟩ := hl₂.clauseNodes
    obtain ⟨⟨clause, node⟩, hguards, -⟩ := List.map_eq_singleton_iff.1 hn.map_zip
    obtain ⟨head, id, hc, hin⟩ := hl₁.single_inv hne
    have hstmt : Inside h _ _ _ := ⟨_, .blockNext, Pieces.two hl hrest, List.mem_cons_self⟩
    have hwithin := (hstmt.within.inside
      ⟨_, .tryPlain hne hn, Pieces.two hl₁ hl₂, List.mem_cons_self⟩).trans hin
    rw [hguards] at hwithin
    exact ⟨clause, node, _, id, hwithin, .construct (hc.throws_own (by simp))⟩

/-- The step in the `try` raises an exception that the clause takes. -/
theorem caughtStep_routesExceptions :
    ∃ g, (build ⟨[], []⟩ (callableWith caughtStep) 0).1 = .ok g ∧ ∃ ins t s es outs u,
      Builds ⟨[], []⟩ (callableWith caughtStep) caughtStep 0 ins t s es outs u g ∧
      (∃ clause node q x, Within ⟨[], []⟩ (Builds.bodyRun ins caughtStep t s) [(clause, node)] q ∧
        Raises ⟨[], []⟩ q x "E") ∧
      g.RoutesExceptions ⟨[], []⟩ (Builds.bodyRun ins caughtStep t s) := by
  obtain ⟨g, hg⟩ := Lowering.build_ok ⟨[], []⟩ (callableWith caughtStep) 0 (by decide)
  obtain ⟨ins, t, s, es, outs, u, hb, hroutes⟩ := build_routesExceptions rfl (by decide) hg
  have hne : t.pending ≠ [] := hb.opening.pending_ne_nil (by simp [start])
  exact ⟨g, hg, ins, t, s, es, outs, u, hb, caughtStep_raises hne hb.body, hroutes⟩

end FlowGraph

end Slicing
