import Slicing.Proofs.Flow.Stages
import Slicing.Proofs.Flow.Waiting

/-!
# How arcs settle

When a run is over in which arcs came up that are watched, and none of them is in the frontier, then
the same holds of every run around it (`Inside.settled`, `Within.settled`). The watched arcs of the
inner run are those that wait at the handlers of the `try` statements around, and they lead to the
nodes of the catch clauses in charge.

The proof goes through the forms of runs. What was there before the inner run is not watched, as
it starts at older nodes, and what follows does not touch what is watched. There are two exceptions.
More arcs may start at the nodes of a construct, but these are never exceptional. And a `finally`
block sends on what came to it, from its own ends: so either all arcs of a node are watched, or none
of the runs around has such a block.
-/

namespace Slicing

namespace Lowering

variable {h : Hierarchy} {s s' t u v : Lowering} {W : Pending → Prop}
  {E : NodeId × NodeId × FlowEdge → Prop} {marks : List Mark} {ret : Pending → Prop}
  {p : Pending} {q q' r : Run} {gs gs' : Guards}

/-- All watched arcs of a run have settled. -/
structure Settled (W : Pending → Prop) (E : NodeId × NodeId × FlowEdge → Prop) (marks : List Mark)
    (ret : Pending → Prop) (r : Run) : Prop where
  tracked : Tracked W E marks ret r.last
  outputs : ∀ p ∈ r.outputs, ¬W p

/-- Arcs that may be watched once a run is over: they start at new nodes. -/
structure Watches (W : Pending → Prop) (q : Run) : Prop where
  back : ∀ x e, W ⟨x, backEdge e⟩ → W ⟨x, e⟩
  fresh : ∀ p, W p → q.first.nextId ≤ p.source.number
  exceptional : ∀ {point effects head id}, q.task = .construct point effects head id →
    ∀ p, W p → p.edge.kind = .exceptional

/-- Arcs from nodes that were there before a run are not watched. -/
theorem Watches.before (hW : Watches W q) (hs : q.first.Sound)
    (hmem : p.source ∈ q.first.graph.ids) : ¬W p :=
  fun hw => Nat.lt_irrefl _ (Nat.lt_of_lt_of_le (hs.below _ hmem) (hW.fresh p hw))

/-- Of the arcs that start in a construct, those that are not exceptional are not watched. -/
theorem Watches.regular {point : Point} {effects : Effects} {head id : NodeId}
    (hW : Watches W (constructRun point effects head id s t)) (hkind : p.edge.kind ≠ .exceptional) :
    ¬W p :=
  fun hw => hkind (hW.exceptional rfl p hw)

/-- What settles beyond the catch clauses in charge. -/
def Settles (W : Pending → Prop) (E : NodeId × NodeId × FlowEdge → Prop) (marks : List Mark)
    (ret : Pending → Prop) (gs : Guards) (r : Run) : Prop :=
  Settled W (fun e => E e ∨ Led gs marks e) (marks.drop gs.length) ret r ∧ Marked W gs marks

/-- No catch clauses are in charge. -/
theorem Settled.settles (hs : Settled W E marks ret r) : Settles W E marks ret [] r :=
  ⟨⟨hs.tracked.congr fun _ _ => by simp, hs.outputs⟩, .nil W marks⟩

/-- No arc of two lists is watched if none of either is. -/
theorem not_or_append {ps ps' : List Pending} (h₁ : ∀ p ∈ ps, ¬W p) (h₂ : ∀ p ∈ ps', ¬W p) :
    ∀ p ∈ ps ++ ps', ¬W p := fun p hp => (List.mem_append.1 hp).elim (h₁ p) (h₂ p)

/-! ## Branches -/

/-- What has settled in the test or a branch of an `if` has settled behind the `if`. -/
theorem branch_settled {source : Element} {cond : Effects} {thenBranch elseBranch : List Stmt}
    {head id : NodeId} (hc : Constructs h s ⟨.predicate, some source.id⟩ cond head id t)
    (hl₁ : Lowered h (.block thenBranch) (t.withPending [.plain id .trueBranch]) u)
    (hl₂ : Lowered h (.block elseBranch) (u.withPending [.plain id .falseBranch]) v)
    (hmem : (q, gs) ∈ [(constructRun ⟨.predicate, some source.id⟩ cond head id s t, []),
      ((Part.block thenBranch).run (t.withPending [.plain id .trueBranch]) u, []),
      ((Part.block elseBranch).run (u.withPending [.plain id .falseBranch]) v, [])])
    (hW : Watches W q) (hs : Settled W E marks ret q) :
    gs = [] ∧ Settled W E marks ret ((Part.stmt (.branch source cond thenBranch elseBranch)).run s
      (v.withPending (v.pending ++ u.pending))) := by
  have helse (hk : Tracked W E marks ret u) (hout : ∀ p ∈ u.pending, ¬W p)
      (hno : ¬W (.plain id .falseBranch)) : Settled W E marks ret
        ((Part.stmt (.branch source cond thenBranch elseBranch)).run s
          (v.withPending (v.pending ++ u.pending))) := by
    obtain ⟨hkv, hout'⟩ := hl₂.tracked hW.back (hk.withPending _) fun p hp =>
      List.mem_singleton.1 hp ▸ hno
    exact ⟨hkv.withPending _, not_or_append hout' hout⟩
  simp only [List.mem_cons, Prod.mk.injEq, List.not_mem_nil, or_false] at hmem
  rcases hmem with ⟨rfl, rfl⟩ | ⟨rfl, rfl⟩ | ⟨rfl, rfl⟩
  · obtain ⟨hku, hout⟩ := hl₁.tracked hW.back (hs.tracked.withPending _) fun p hp =>
      List.mem_singleton.1 hp ▸ hW.regular (p := .plain id .trueBranch) nofun
    exact ⟨rfl, helse hku hout (hW.regular nofun)⟩
  · refine ⟨rfl, helse hs.tracked hs.outputs ?_⟩
    exact hW.before (p := .plain id .falseBranch) hl₁.ready.sound hc.made.2.mem
  · -- the ends of the other branch are older
    refine ⟨rfl, hs.tracked.withPending _, not_or_append hs.outputs fun p hp => ?_⟩
    exact hW.before hl₂.ready.sound (hl₁.grown.outputs_mem hl₁.ready p hp)

/-! ## Loops -/

/-- Inside of a statement, the statement is around the first. -/
theorem Lowered.scopes_eq {part : Part} {scope : Scope} (hl : Lowered h part (s.entered scope) t) :
    t.scopes = t.innermost :: t.left.scopes := by
  have hscopes := hl.grown.ext.scopes
  rw [entered_scopes] at hscopes
  obtain ⟨_, _, -, -, heq⟩ := List.forall₂_cons_left_iff.1 hscopes
  rw [innermost, left_scopes, heq]
  rfl

/-- A statement without handlers is left. -/
theorem Tracked.leave {part : Part} {scope : Scope} (hk : Tracked W E marks ret t)
    (hl : Lowered h part (s.entered scope) t) (hh : scope.handlers = []) :
    (∀ p ∈ t.innermost.strays, ¬W p) ∧ Tracked W E marks ret t.left := by
  have hgrows := hl.grown.ext.leave.2.handlers
  rw [hh] at hgrows
  have hnil : t.innermost.handlers = [] := List.forall₂_nil_left_iff.1 hgrows
  obtain ⟨-, hstrays, hleft⟩ := hk.left hl.scopes_eq
  rw [hnil] at hleft
  exact ⟨hstrays, hleft⟩

/-- A loop with its test in front. -/
theorem loop_settled {init body update : List Stmt} {point : Point} {effects : Effects}
    {head id : NodeId} {enter : FlowKind} {breaks : List Pending}
    (hl₁ : Lowered h (.block init) s t) (hne : t.pending ≠ [])
    (hc : Constructs h t point effects head id u)
    (hl₂ : Lowered h (.rounds id head enter body update breaks) u v) (henter : enter ≠ .exceptional)
    (hmem : (q, gs) ∈ [((Part.block init).run s t, []), (constructRun point effects head id t u, []),
      ((Part.rounds id head enter body update breaks).run u v, [])])
    (hW : Watches W q) (hs : Settled W E marks ret q) :
    gs = [] ∧ Tracked W E marks ret v ∧ (∀ p ∈ v.pending, ¬W p) ∧
      ∀ kind, kind ≠ .exceptional → ¬W (.plain id kind) := by
  have hrounds (hk : Tracked W E marks ret u)
      (hno : ∀ kind, kind ≠ .exceptional → ¬W (.plain id kind)) : Tracked W E marks ret v ∧
        (∀ p ∈ v.pending, ¬W p) ∧ ∀ kind, kind ≠ .exceptional → ¬W (.plain id kind) := by
    obtain ⟨hkv, hout⟩ := hl₂.tracked hW.back hk fun p hp => List.mem_singleton.1 hp ▸ hno enter henter
    exact ⟨hkv, hout, hno⟩
  simp only [List.mem_cons, Prod.mk.injEq, List.not_mem_nil, or_false] at hmem
  rcases hmem with ⟨rfl, rfl⟩ | ⟨rfl, rfl⟩ | ⟨rfl, rfl⟩
  · -- the test comes behind, so that its arcs are not watched
    have hu := hc.tracked hl₁.grown.ext.sound hne (hl₁.grown.outputs_mem hl₁.ready) hs.tracked hs.outputs
    exact ⟨rfl, hrounds hu.1 fun kind _ => hs.tracked.not_made (p := .plain id kind) hc.made.2⟩
  · exact ⟨rfl, hrounds hs.tracked fun kind hkind => hW.regular (p := .plain id kind) hkind⟩
  · exact ⟨rfl, hs.tracked, hs.outputs, fun kind _ =>
      hW.before (p := .plain id kind) hl₂.ready.sound hc.made.2.mem⟩

/-- The rounds of a loop. -/
theorem rounds_settled {node head : NodeId} {enter : FlowKind} {body update : List Stmt}
    (hr : Ready (.rounds node head enter body update t.innermost.breaks) s)
    (hl₁ : Lowered h (.block body) ((s.withPending [.plain node enter]).entered (.loop [] [])) t)
    (hl₂ : Lowered h (.update update) (t.left.withPending (t.pending ++ t.innermost.continues)) u)
    (hmem : (q, gs) ∈ [((Part.block body).run
        ((s.withPending [.plain node enter]).entered (.loop [] [])) t, []),
      ((Part.update update).run (t.left.withPending (t.pending ++ t.innermost.continues)) u, [])])
    (hW : Watches W q) (hs : Settled W E marks ret q) :
    gs = [] ∧ Settled W E marks ret ((Part.rounds node head enter body update t.innermost.breaks).run s
      (((u.withPending []).closed head u.pending).withPending t.innermost.breaks)) := by
  have hhead : head ∈ u.graph.ids :=
    hl₂.grown.ext.ids_subset (hl₁.grown.ext.ids_subset (hr.heads head rfl))
  have hpending : ∀ p ∈ u.pending, p.source ∈ u.graph.ids := hl₂.grown.outputs_mem hl₂.ready
  have hend (hk : Tracked W E marks ret u) (hout : ∀ p ∈ u.pending, ¬W p) :
      Tracked W E marks ret (((u.withPending []).closed head u.pending).withPending t.innermost.breaks) :=
    ((hk.withPending []).closed hW.back hhead hpending hout).withPending _
  simp only [List.mem_cons, Prod.mk.injEq, List.not_mem_nil, or_false] at hmem
  rcases hmem with ⟨rfl, rfl⟩ | ⟨rfl, rfl⟩
  · obtain ⟨hstrays, hleft⟩ := hs.tracked.leave hl₁ rfl
    have hin := not_or_append hs.outputs fun p hp => hstrays p (Scope.continues_strays hp)
    obtain ⟨hk, hout⟩ := hl₂.tracked hW.back (hleft.withPending _) hin
    exact ⟨rfl, hend hk hout, fun p hp => hstrays p (Scope.breaks_strays hp)⟩
  · -- what breaks out of the loop does so in the body
    refine ⟨rfl, hend hs.tracked hs.outputs, fun p hp => hW.before hl₂.ready.sound ?_⟩
    exact (hl₁.grown.ext.leave.2.of_loop.1 p hp).mem

/-- A loop with its test behind the body. -/
theorem footed_settled {source : Element} {body : List Stmt} {cond : Effects} {head id : NodeId}
    (hr : Ready (.stmt (.doWhile source body cond)) s)
    (hl : Lowered h (.block body) (s.entered (.loop [] [])) t)
    (hne : t.pending ++ t.innermost.continues ≠ [])
    (hc : Constructs h (t.left.withPending (t.pending ++ t.innermost.continues))
      ⟨.predicate, some source.id⟩ cond head id u)
    (hmem : (q, gs) ∈ [((Part.block body).run (s.entered (.loop [] [])) t, []),
      (constructRun ⟨.predicate, some source.id⟩ cond head id
        (t.left.withPending (t.pending ++ t.innermost.continues)) u, [])])
    (hW : Watches W q) (hs : Settled W E marks ret q) :
    gs = [] ∧ Settled W E marks ret ((Part.stmt (.doWhile source body cond)).run s
      ((u.closed (if s.graph.size < t.graph.size then u.graph.idAt s.graph.size else head)
        [.plain id .loopBack]).withPending (.plain id .falseBranch :: t.innermost.breaks))) := by
  have hready := continue_ready s.pending hr.inputs hl.grown []
  have hend (hk : Tracked W E marks ret u) (hno : ∀ kind, kind ≠ .exceptional → ¬W (.plain id kind))
      (hbreaks : ∀ p ∈ t.innermost.breaks, ¬W p) : Settled W E marks ret
        ((Part.stmt (.doWhile source body cond)).run s
          ((u.closed (if s.graph.size < t.graph.size then u.graph.idAt s.graph.size else head)
            [.plain id .loopBack]).withPending (.plain id .falseBranch :: t.innermost.breaks))) := by
    refine ⟨(hk.closed hW.back (foot_first hl hc).mem (fun p hp => (made_plain hc.made.2 p hp).mem)
      fun p hp => ?_).withPending _, ?_⟩
    · rw [List.mem_singleton.1 hp]
      exact hno .loopBack (by decide)
    · exact List.forall_mem_cons.2 ⟨hno .falseBranch (by decide), hbreaks⟩
  simp only [List.mem_cons, Prod.mk.injEq, List.not_mem_nil, or_false] at hmem
  -- the arcs are watched in the body, which its breaks and continues leave, or at the test
  rcases hmem with ⟨rfl, rfl⟩ | ⟨rfl, rfl⟩
  · obtain ⟨hstrays, hleft⟩ := hs.tracked.leave hl rfl
    have hin := not_or_append hs.outputs fun p hp => hstrays p (Scope.continues_strays hp)
    have hu := hc.tracked hready.sound hne hready.inputs (hleft.withPending _) hin
    exact ⟨rfl, hend hu.1 (fun kind _ => hs.tracked.not_made (p := .plain id kind) hc.made.2) fun p hp =>
      hstrays p (Scope.breaks_strays hp)⟩
  · refine ⟨rfl, hend hs.tracked (fun kind => hW.regular (p := .plain id kind)) fun p hp => ?_⟩
    exact hW.before hready.sound (hl.grown.ext.leave.2.of_loop.1 p hp).mem

/-! ## `switch` -/

/-- The arcs from the selector of a `switch` are not exceptional. -/
theorem selector_kind {selector : NodeId} {cases : List (SwitchCase Stmt)}
    (hp : p ∈ cases.flatMap fun c => caseFrontier selector [] c.label) :
    p.source = selector ∧ p.edge.kind ≠ .exceptional := by
  obtain ⟨c, -, hp⟩ := List.mem_flatMap.1 hp
  rw [List.mem_singleton.1 hp]
  exact ⟨rfl, nofun⟩

/-- The arc past all cases starts at the selector, and is not an exception. -/
theorem skipArcs_kind {selector : NodeId} {cases : List (SwitchCase Stmt)}
    (hp : p ∈ skipArcs selector cases) : p.source = selector ∧ p.edge.kind ≠ .exceptional := by
  rw [eq_of_mem_skipArcs hp]
  exact ⟨rfl, nofun⟩

/-- What has settled in the selector or the cases of a `switch` has settled behind the `switch`. -/
theorem select_settled {source : Element} {selector : Effects} {cases : List (SwitchCase Stmt)}
    {head id : NodeId} (hc : Constructs h s ⟨.predicate, some source.id⟩ selector head id t)
    (hl : Lowered h (.cases source id [] cases) (t.entered (.select [])) u)
    (hmem : (q, gs) ∈ [(constructRun ⟨.predicate, some source.id⟩ selector head id s t, []),
      ((Part.cases source id [] cases).run (t.entered (.select [])) u, [])])
    (hW : Watches W q) (hs : Settled W E marks ret q) :
    gs = [] ∧ Settled W E marks ret ((Part.stmt (.select source selector cases)).run s
      (u.left.withPending (u.pending ++ u.innermost.breaks ++ skipArcs id cases))) := by
  have hend (hk : Tracked W E marks ret u) (hout : ∀ p ∈ u.pending, ¬W p)
      (hskip : ∀ p ∈ skipArcs id cases, ¬W p) : Settled W E marks ret
        ((Part.stmt (.select source selector cases)).run s
          (u.left.withPending (u.pending ++ u.innermost.breaks ++ skipArcs id cases))) := by
    obtain ⟨hstrays, hleft⟩ := hk.leave hl rfl
    exact ⟨hleft.withPending _, not_or_append (not_or_append hout fun p hp =>
      hstrays p (Scope.breaks_strays hp)) hskip⟩
  simp only [List.mem_cons, Prod.mk.injEq, List.not_mem_nil, or_false] at hmem
  rcases hmem with ⟨rfl, rfl⟩ | ⟨rfl, rfl⟩
  · have hkt : Tracked W E marks ret (t.entered (.select [])) :=
      hs.tracked.entered rfl (by simp [Scope.strays, Scope.breaks, Scope.continues, Scope.escapes])
    obtain ⟨hk, hout⟩ := hl.tracked hW.back hkt fun p hp => hW.regular (selector_kind hp).2
    exact ⟨rfl, hend hk hout fun p hp => hW.regular (skipArcs_kind hp).2⟩
  · refine ⟨rfl, hend hs.tracked hs.outputs fun p hp => hW.before hl.ready.sound ?_⟩
    rw [(skipArcs_kind hp).1]
    exact hc.made.2.mem

/-- What has settled in a case, or in the cases behind it, has settled behind the last one. -/
theorem case_settled {source : Element} {selector head : NodeId} {fallthrough : List Pending}
    {c : SwitchCase Stmt} {cases : List (SwitchCase Stmt)}
    (hr : Ready (.cases source selector fallthrough (c :: cases)) s)
    (hc : Constructs h (s.withPending (caseFrontier selector fallthrough c.label))
      ⟨.caseLabel, some c.id⟩ .none head head t)
    (hl₁ : Lowered h (.block c.body) t u)
    (hl₂ : Lowered h (.cases source selector u.pending cases) (u.withPending []) v)
    (hmem : (q, gs) ∈ [(constructRun ⟨.caseLabel, some c.id⟩ .none head head
        (s.withPending (caseFrontier selector fallthrough c.label)) t, []),
      ((Part.block c.body).run t u, []),
      ((Part.cases source selector u.pending cases).run (u.withPending []) v, [])])
    (hW : Watches W q) (hs : Settled W E marks ret q) :
    gs = [] ∧ Settled W E marks ret
      ((Part.cases source selector fallthrough (c :: cases)).run s v) := by
  have hext := case_extends hr hc
  have hselector (p : Pending) (hp : p.source = selector) : p.source ∈ s.graph.ids :=
    hr.from_mem (selector_from hp)
  -- none of the arcs is an input of the other cases, which leave them as they are
  have hrest (hk : Tracked W E marks ret u) (hout : ∀ p ∈ u.pending, ¬W p)
      (hno : ∀ p, p.source = selector → p.edge.kind ≠ .exceptional → ¬W p) :
      Settled W E marks ret ((Part.cases source selector fallthrough (c :: cases)).run s v) := by
    obtain ⟨hk, hout⟩ := hl₂.tracked hW.back (hk.withPending _) (not_or_append hout fun p hp =>
      hno p (selector_kind hp).1 (selector_kind hp).2)
    exact ⟨hk, hout⟩
  simp only [List.mem_cons, Prod.mk.injEq, List.not_mem_nil, or_false] at hmem
  rcases hmem with ⟨rfl, rfl⟩ | ⟨rfl, rfl⟩ | ⟨rfl, rfl⟩
  · obtain ⟨hk, hout⟩ := hl₁.tracked hW.back hs.tracked hs.outputs
    exact ⟨rfl, hrest hk hout fun p _ => hW.regular⟩
  · exact ⟨rfl, hrest hs.tracked hs.outputs fun p hp _ =>
      hW.before hext.sound (hext.ids_subset (hselector p hp))⟩
  · exact ⟨rfl, hs.tracked, hs.outputs⟩

/-! ## `try` -/

section Try

variable {body finalizer : List Stmt} {catches : List (CatchClause Stmt)} {hasFinalizer : Bool}
  {after : List Pending} {nodes : List (Option NodeId)}

/-- Only as many marks count as there are catch clauses in charge. -/
theorem zip_take_length (gs : Guards) (marks : List Mark) :
    gs.zip (marks.take gs.length) = gs.zip marks := by
  induction gs generalizing marks with
  | nil => rfl
  | cons g gs ih =>
    cases marks with
    | nil => rfl
    | cons mark marks => rw [List.length_cons, List.take_succ_cons, List.zip_cons_cons, ih,
        List.zip_cons_cons]

/-- Marks beyond the catch clauses in charge do not count. -/
theorem Marked.of_take (hm : Marked W gs (marks.take gs.length)) : Marked W gs marks := by
  obtain ⟨hle, htypes, hnodes⟩ := hm
  rw [zip_take_length] at htypes hnodes
  exact ⟨Nat.le_trans hle (List.length_take_le' _ _), htypes, hnodes⟩

/-- What the body of a `try` leaves at its handlers leads to its catch clauses. -/
theorem try_body_tracked (hback : ∀ x e, W ⟨x, backEdge e⟩ → W ⟨x, e⟩)
    (hl₁ : Lowered h (.block body) (s.entered (tryScope catches hasFinalizer)) t)
    (hl₂ : Lowered h (.catches t.innermost.handlers catches after)
      ((t.left.withPending []).entered t.innermost.withoutHandlers) u)
    (hn : ClauseNodes h t.innermost.handlers catches after
      ((t.left.withPending []).entered t.innermost.withoutHandlers) u nodes)
    (hk : Tracked W E marks ret t) :
    Tracked W (fun e => E e ∨ Led (catches.zip nodes) marks e) (marks.drop (catches.zip nodes).length) ret
        u.left ∧
      (∀ p ∈ after, ¬W p) ∧ (∀ p ∈ u.innermost.escapes.map (·.1), ¬W p) ∧
      Marked W (catches.zip nodes) marks := by
  obtain ⟨hms, hstrays, hleft⟩ := hk.left hl₁.scopes_eq
  obtain ⟨handlers, escapes, heq, hhandlers, -⟩ := hl₁.grown.ext.leave.2.of_tryScope
  -- the handlers are gone now, and what waits for the `finally` block has stayed
  have hturned : Tracked W E (marks.drop t.innermost.handlers.length) ret
      ((t.left.withPending []).entered t.innermost.withoutHandlers) := by
    refine (hleft.withPending []).entered ?_ fun p hp => hstrays p ?_
    · rw [heq]
      rfl
    · rw [heq] at hp ⊢
      exact hp
  have htypes : List.Forall₂ (fun (clause : CatchClause Stmt) (handler : Handler) =>
      handler.exceptionType = clause.exceptionType) catches t.innermost.handlers := by
    rw [heq]
    exact hhandlers.imp fun _ _ => And.left
  obtain ⟨hku, hafter, hmarked⟩ := hn.tracked hback hl₂.ready htypes hms hturned
  have hlen : (catches.zip nodes).length = catches.length := by
    rw [← List.length_map (·.1), hn.map_zip]
  rw [← htypes.length_eq, ← hlen] at hku hmarked
  obtain ⟨hstrays', hleft'⟩ := hku.leave hl₂ (by rw [heq]; rfl)
  refine ⟨hleft'.congr fun e _ => ?_, hafter, fun p hp => hstrays' p (Scope.escapes_strays hp),
    hmarked.of_take⟩
  rw [Led, Led, zip_take_length]

/-- What is tracked through the catch clauses of a `try` is tracked around the `try`. -/
theorem try_catches_tracked
    (hl₁ : Lowered h (.block body) (s.entered (tryScope catches hasFinalizer)) t)
    (hl₂ : Lowered h (.catches t.innermost.handlers catches after)
      ((t.left.withPending []).entered t.innermost.withoutHandlers) u)
    (hk : Tracked W E marks ret u) :
    Tracked W E marks ret u.left ∧ ∀ p ∈ u.innermost.escapes.map (·.1), ¬W p := by
  obtain ⟨handlers, escapes, heq, -⟩ := hl₁.grown.ext.leave.2.of_tryScope
  obtain ⟨hstrays, hleft⟩ := hk.leave hl₂ (by rw [heq]; rfl)
  exact ⟨hleft, fun p hp => hstrays p (Scope.escapes_strays hp)⟩

/-- What has settled in the body or a clause of a `try` without a `finally` block has settled behind
    the `try`, and what waited at its handlers leads to the nodes of the clauses. -/
theorem tryPlain_settled {source : Element}
    (hl₁ : Lowered h (.block body) (s.entered (tryScope catches false)) t)
    (hl₂ : Lowered h (.catches t.innermost.handlers catches after)
      ((t.left.withPending []).entered t.innermost.withoutHandlers) u)
    (hn : ClauseNodes h t.innermost.handlers catches after
      ((t.left.withPending []).entered t.innermost.withoutHandlers) u nodes)
    (hmem : (q, gs) ∈ [((Part.block body).run (s.entered (tryScope catches false)) t,
        catches.zip nodes),
      ((Part.catches t.innermost.handlers catches after).run
        ((t.left.withPending []).entered t.innermost.withoutHandlers) u, [])])
    (hW : Watches W q) (hs : Settled W E marks ret q) :
    Settles W E marks ret gs ((Part.stmt (.tryBlock source body catches none)).run s
      (u.left.withPending (t.pending ++ after))) := by
  simp only [List.mem_cons, Prod.mk.injEq, List.not_mem_nil, or_false] at hmem
  rcases hmem with ⟨rfl, rfl⟩ | ⟨rfl, rfl⟩
  · obtain ⟨hk, hafter, -, hmarked⟩ := try_body_tracked hW.back hl₁ hl₂ hn hs.tracked
    exact ⟨⟨hk.withPending _, not_or_append hs.outputs hafter⟩, hmarked⟩
  · obtain ⟨hk, -⟩ := try_catches_tracked hl₁ hl₂ hs.tracked
    refine Settled.settles ⟨hk.withPending _, not_or_append (fun p hp => ?_) hs.outputs⟩
    exact hW.before hl₂.ready.sound (hl₁.grown.outputs_mem hl₁.ready p hp)

/-- A `try` up to the end of its `finally` block. -/
theorem finalizer_tracked
    (hl₁ : Lowered h (.block body) (s.entered (tryScope catches true)) t)
    (hl₂ : Lowered h (.catches t.innermost.handlers catches after)
      ((t.left.withPending []).entered t.innermost.withoutHandlers) u)
    (hl₃ : Lowered h (.block finalizer)
      (u.left.withPending (t.pending ++ after ++ u.innermost.escapes.map (·.1))) v)
    (hn : ClauseNodes h t.innermost.handlers catches after
      ((t.left.withPending []).entered t.innermost.withoutHandlers) u nodes)
    (hmem : (q, gs) ∈ [((Part.block body).run (s.entered (tryScope catches true)) t,
        catches.zip nodes),
      ((Part.catches t.innermost.handlers catches after).run
        ((t.left.withPending []).entered t.innermost.withoutHandlers) u, []),
      ((Part.block finalizer).run
        (u.left.withPending (t.pending ++ after ++ u.innermost.escapes.map (·.1))) v, [])])
    (hW : Watches W q) (hs : Settled W E marks ret q) :
    Tracked W (fun e => E e ∨ Led gs marks e) (marks.drop gs.length) ret v ∧ (∀ p ∈ v.pending, ¬W p) ∧
      (∀ p ∈ u.innermost.escapes.map (·.1), ¬W p) ∧ Marked W gs marks := by
  simp only [List.mem_cons, Prod.mk.injEq, List.not_mem_nil, or_false] at hmem
  -- the catch clauses are in charge of the body only
  rcases hmem with ⟨rfl, rfl⟩ | ⟨rfl, rfl⟩ | ⟨rfl, rfl⟩
  · obtain ⟨hk, hafter, hescapes, hmarked⟩ := try_body_tracked hW.back hl₁ hl₂ hn hs.tracked
    obtain ⟨hkv, hout⟩ := hl₃.tracked hW.back (hk.withPending _)
      (not_or_append (not_or_append hs.outputs hafter) hescapes)
    exact ⟨hkv, hout, hescapes, hmarked⟩
  · obtain ⟨hk, hescapes⟩ := try_catches_tracked hl₁ hl₂ hs.tracked
    have hbody (p : Pending) (hp : p ∈ t.pending) : ¬W p :=
      hW.before hl₂.ready.sound (hl₁.grown.outputs_mem hl₁.ready p hp)
    obtain ⟨hkv, hout⟩ := hl₃.tracked hW.back (hk.withPending _)
      (not_or_append (not_or_append hbody hs.outputs) hescapes)
    exact ⟨hkv.congr fun _ _ => by simp, hout, hescapes, .nil W marks⟩
  · refine ⟨hs.tracked.congr fun _ _ => by simp, hs.outputs, fun p hp => ?_, .nil W marks⟩
    exact hW.before hl₃.ready.sound (hl₃.ready.inputs p (List.mem_append_right _ hp))

end Try

/-- What has settled in a catch clause, or in the clauses behind it, has settled behind the last
    one. -/
theorem catch_settled {handler : Handler} {handlers : List Handler} {c : CatchClause Stmt}
    {clauses : List (CatchClause Stmt)} {after : List Pending} {head : NodeId}
    (hr : Ready (.catches (handler :: handlers) (c :: clauses) (u.pending ++ after)) s)
    (hne : handler.incoming ≠ [])
    (hc : Constructs h (s.withPending handler.incoming) ⟨.catchClause, some c.id⟩ .none head head t)
    (hl₁ : Lowered h (.block c.body) t u)
    (hl₂ : Lowered h (.catches handlers clauses after) (u.withPending []) v)
    (hmem : (q, gs) ∈ [(constructRun ⟨.catchClause, some c.id⟩ .none head head
        (s.withPending handler.incoming) t, []),
      ((Part.block c.body).run t u, []),
      ((Part.catches handlers clauses after).run (u.withPending []) v, [])])
    (hW : Watches W q) (hs : Settled W E marks ret q) :
    gs = [] ∧ Settled W E marks ret
      ((Part.catches (handler :: handlers) (c :: clauses) (u.pending ++ after)).run s v) := by
  have hext := catch_extends hr hne hc
  have hrest (hk : Tracked W E marks ret u) (hout : ∀ p ∈ u.pending, ¬W p)
      (hno : ∀ p, p.source ∈ s.graph.ids → ¬W p) : Settled W E marks ret
        ((Part.catches (handler :: handlers) (c :: clauses) (u.pending ++ after)).run s v) := by
    obtain ⟨hkv, hafter⟩ := hl₂.tracked hW.back (hk.withPending _) fun p hp =>
      hno p (hr.inputs p (List.mem_append_right _ hp))
    exact ⟨hkv, not_or_append hout hafter⟩
  simp only [List.mem_cons, Prod.mk.injEq, List.not_mem_nil, or_false] at hmem
  rcases hmem with ⟨rfl, rfl⟩ | ⟨rfl, rfl⟩ | ⟨rfl, rfl⟩
  · obtain ⟨hku, hout⟩ := hl₁.tracked hW.back hs.tracked hs.outputs
    exact ⟨rfl, hrest hku hout fun p hp => hW.before (hr.sound.withPending _) hp⟩
  · exact ⟨rfl, hrest hs.tracked hs.outputs fun p hp => hW.before hext.sound (hext.ids_subset hp)⟩
  · refine ⟨rfl, hs.tracked, not_or_append (fun p hp => ?_) hs.outputs⟩
    exact hW.before hl₂.ready.sound (hl₁.grown.outputs_mem hl₁.ready p hp)

/-! ## Runs inside of runs -/

/-- All arcs of a node are watched, or none. -/
def Wholly (W : Pending → Prop) : Prop := ∀ x e e', W ⟨x, e⟩ → W ⟨x, e'⟩

/-- A run that consists of one run, of which no catch clauses are in charge. -/
theorem settles_of_alone {q' : Run} (hmem : (q, gs) ∈ [(q', [])]) (hs : Settled W E marks ret q)
    (hset : Settled W E marks ret q' → Settled W E marks ret r) : Settles W E marks ret gs r := by
  obtain ⟨rfl, rfl⟩ := Prod.mk.inj (List.mem_singleton.1 hmem)
  exact (hset hs).settles

/-- What has settled in one of the runs that a run consists of has settled in the whole run, and
    what waited for the catch clauses in charge of the part leads to their nodes. -/
theorem Inside.settled (hr : r.Derived h) (hq : Inside h r gs q) (hW : Watches W q)
    (hfinal : r.IsFinal → Wholly W) (hs : Settled W E marks ret q) :
    Settles W E marks ret gs r := by
  obtain ⟨pieces, hcons, hd, hmem⟩ := hq
  -- with no catch clauses in charge
  have hplain (hset : gs = [] ∧ Settled W E marks ret r) : Settles W E marks ret gs r := by
    obtain ⟨rfl, hset⟩ := hset
    exact hset.settles
  cases hcons with
  | construct => cases hmem
  | skip _ => cases hmem
  | simple _ => exact settles_of_alone hmem hs fun hs => ⟨hs.tracked, hs.outputs⟩
  | branch _ =>
    simp only [List.forall_mem_cons] at hd
    exact hplain (branch_settled hd.1 hd.2.1 hd.2.2.1 hmem hW hs)
  | loopUnentered _ _ _ => exact settles_of_alone hmem hs fun hs => ⟨hs.tracked, hs.outputs⟩
  | tested _ _ _ hne =>
    simp only [List.forall_mem_cons] at hd
    obtain ⟨rfl, hk, hout, hno⟩ := loop_settled hd.1 hne hd.2.1 hd.2.2.1 nofun hmem hW hs
    refine Settled.settles ⟨hk.withPending _, not_or_append hout fun p hp => ?_⟩
    exact List.mem_singleton.1 hp ▸ hno .falseBranch nofun
  | endless _ _ _ hne =>
    simp only [List.forall_mem_cons] at hd
    obtain ⟨rfl, hk, hout, -⟩ := loop_settled hd.1 hne hd.2.1 hd.2.2.1 nofun hmem hW hs
    split
    · exact Settled.settles ⟨hk.withLoopHead _, hout⟩
    · exact Settled.settles ⟨hk, hout⟩
  | rounds =>
    simp only [List.forall_mem_cons] at hd
    exact hplain (rounds_settled (Lowered.ready hr) hd.1 hd.2.1 hmem hW hs)
  | updateUnentered _ => cases hmem
  | update _ => exact settles_of_alone hmem hs fun hs => ⟨hs.tracked, hs.outputs⟩
  | footless _ _ =>
    obtain ⟨rfl, rfl⟩ := Prod.mk.inj (List.mem_singleton.1 hmem)
    simp only [List.forall_mem_cons] at hd
    obtain ⟨hstrays, hleft⟩ := hs.tracked.leave hd.1 rfl
    exact Settled.settles ⟨((hleft.withPending _).skipped _).withPending _, fun p hp =>
      hstrays p (Scope.breaks_strays hp)⟩
  | footed _ hne =>
    simp only [List.forall_mem_cons] at hd
    exact hplain (footed_settled (Lowered.ready hr) hd.1 hne hd.2.1 hmem hW hs)
  | select _ =>
    simp only [List.forall_mem_cons] at hd
    exact hplain (select_settled hd.1 hd.2.1 hmem hW hs)
  | casesEnd => cases hmem
  | case =>
    simp only [List.forall_mem_cons] at hd
    exact hplain (case_settled (Lowered.ready hr) hd.1 hd.2.1 hd.2.2.1 hmem hW hs)
  | jump _ _ _ => cases hmem
  | tryPlain _ hn =>
    simp only [List.forall_mem_cons] at hd
    exact tryPlain_settled hd.1 hd.2.1 hn hmem hW hs
  | tryNodeless _ hn _ =>
    simp only [List.forall_mem_cons] at hd
    obtain ⟨hk, hout, hescapes, hmarked⟩ := finalizer_tracked hd.1 hd.2.1 hd.2.2.1 hn hmem hW hs
    exact ⟨⟨(hk.withPending _).sentAll fun e he => hescapes _ (List.mem_map_of_mem he), fun p hp =>
      hout p (pending_of_nodeless hp)⟩, hmarked⟩
  | tryFinally _ hn _ =>
    simp only [List.forall_mem_cons] at hd
    obtain ⟨hk, hout, -, hmarked⟩ := finalizer_tracked hd.1 hd.2.1 hd.2.2.1 hn hmem hW hs
    refine ⟨⟨(hk.withPending _).sentAll fun e he hw => ?_, fun p hp => hout p (pending_of_finally hp)⟩,
      hmarked⟩
    -- what is sent on starts at an end of the `finally` block
    obtain ⟨-, tail, htail, heq⟩ := mem_redirected he
    have hwholly := hfinal ⟨_, _, _, _, rfl⟩
    refine hout tail htail (hwholly _ e.1.edge _ ?_)
    rw [← heq]
    exact hw
  | catchesEnd => cases hmem
  | catchesUnhandled => cases hmem
  | catchUnentered _ => exact settles_of_alone hmem hs fun hs => ⟨hs.tracked, hs.outputs⟩
  | «catch» hne =>
    simp only [List.forall_mem_cons] at hd
    exact hplain (catch_settled (Lowered.ready hr) hne hd.1 hd.2.1 hd.2.2.1 hmem hW hs)
  | nested _ => exact settles_of_alone hmem hs fun hs => ⟨hs.tracked, hs.outputs⟩
  | blockEnd => cases hmem
  | blockNext =>
    simp only [List.forall_mem_cons] at hd
    simp only [List.mem_cons, Prod.mk.injEq, List.not_mem_nil, or_false] at hmem
    rcases hmem with ⟨rfl, rfl⟩ | ⟨rfl, rfl⟩
    · obtain ⟨hk, hout⟩ := Lowered.tracked hW.back hd.2.1 hs.tracked hs.outputs
      exact Settled.settles ⟨hk, hout⟩
    · exact Settled.settles ⟨hs.tracked, hs.outputs⟩

/-- The marks of inner and of outer catch clauses. -/
theorem zip_append_left {gs : Guards} (gs' : Guards) (hle : gs.length ≤ marks.length) :
    (gs ++ gs').zip marks = gs.zip marks ++ gs'.zip (marks.drop gs.length) := by
  induction gs generalizing marks with
  | nil => rfl
  | cons g gs ih =>
    cases marks with
    | nil => simp at hle
    | cons mark marks =>
      rw [List.cons_append, List.zip_cons_cons, List.zip_cons_cons, ih (Nat.le_of_succ_le_succ hle)]
      rfl

/-- Clauses that are in charge further out. -/
theorem Settles.append (hgs : Settles W E marks ret gs q)
    (hout : Settles W (fun e => E e ∨ Led gs marks e) (marks.drop gs.length) ret gs' r) :
    Settles W E marks ret (gs ++ gs') r := by
  have hzip := zip_append_left gs' hgs.2.length_le
  obtain ⟨hset, hlen, htypes, hnodes⟩ := hout
  refine ⟨⟨?_, hset.outputs⟩, ?_, ?_, ?_⟩
  · rw [List.length_append, ← List.drop_drop]
    refine hset.tracked.congr fun e _ => ?_
    rw [or_assoc, Led, Led, Led, hzip]
    simp only [List.mem_append, or_and_right, exists_or]
  · have hle := hgs.2.length_le
    rw [List.length_drop] at hlen
    rw [List.length_append]
    omega
  · rw [hzip]
    exact List.forall_mem_append.2 ⟨hgs.2.types, htypes⟩
  · rw [hzip]
    exact List.forall_mem_append.2 ⟨hgs.2.nodes, hnodes⟩

/-- What is watched in a run that another one consists of can be watched in that one. -/
theorem Watches.outer (hW : Watches W q') (hq : q.Derived h) (hin : Inside h q gs q') :
    Watches W q where
  back := hW.back
  fresh p hw := Nat.le_trans (hin.precedes hq).1.nextId (hW.fresh p hw)
  exceptional heq := by
    obtain ⟨task, first, last⟩ := q
    obtain rfl : task = _ := heq
    obtain ⟨_, hcons, -, hmem⟩ := hin
    cases hcons
    cases hmem

/-- What has settled in the course of a run has settled in the whole run. -/
theorem Within.settled (hr : r.Derived h) (hq : Within h r gs q) (hW : Watches W q)
    (hfinal : ∀ gs q, Within h r gs q → q.IsFinal → Wholly W) (hs : Settled W E marks ret q) :
    Settles W E marks ret gs r := by
  induction hq generalizing E marks with
  | self => exact hs.settles
  | inside hq hin ih =>
    have hset := hin.settled (hq.derived hr) hW (hfinal _ _ hq) hs
    exact hset.append (ih (hW.outer (hq.derived hr) hin) hset.1)

/-- Arcs that start at new nodes of a part start at new nodes of the whole run. -/
theorem Within.watches (hr : r.Derived h) (hq : Within h r gs q) (hW : Watches W q) :
    Watches W r := by
  induction hq with
  | self => exact hW
  | inside hq hin ih => exact ih (hW.outer (hq.derived hr) hin)

/-! ## Callables -/

namespace Builds

variable {decl : CallableDecl} {body : List Stmt} {n : Nat} {ins es : List Emission}
  {outs : List (OutputSlot × NodeId)} {g : FlowGraph}

/-- The body of a callable is lowered. -/
def bodyRun (ins : List Emission) (body : List Stmt) (t s : Lowering) : Run :=
  (Part.block body).run (t.withFormals (ins.map (·.node.id)) []) s

/-- The watched arcs that lead out of the body of a callable lead to where it ends. -/
theorem edges_settled (hb : Builds h decl body n ins t s es outs u g)
    (hfresh : ∀ p, W p → t.nextId ≤ p.source.number) (hk : Tracked W E marks ret s)
    (hout : ∀ p ∈ s.pending, ¬W p) (e : NodeId × NodeId × FlowEdge) (hw : W ⟨e.1, e.2.2⟩) :
    e ∈ g.edges ↔ E e ∨ ret ⟨e.1, e.2.2⟩ ∧ e.2.1 = g.idAt g.exitHead := by
  have hwhole := hb.whole
  obtain ⟨rest, hline⟩ := List.head?_eq_some_iff.1 hwhole.first
  rw [hwhole.edges, List.mem_append, hk.edges e hw, ← hk.returns _ hw, hline]
  refine or_congr_right ⟨fun hmem => ?_, fun ⟨hret, htarget⟩ => ?_⟩
  · rcases mem_lineArcs_cons hmem with ⟨p, hp, rfl⟩ | ⟨hnode, -⟩
    · exact ⟨(List.mem_append.1 hp).resolve_left fun hp => hout p hp hw, rfl⟩
    · -- no watched arc starts at a node of the line to the exit
      have hold := hk.old _ hw
      have hnew := hfresh _ hw
      rw [← hline] at hnode
      rcases List.mem_append.1 hnode with hnode | hnode
      · obtain ⟨e', he', heq⟩ := List.mem_map.1 hnode
        have hle : s.nextId ≤ e'.node.id.number := hb.closing.le_of_mem e' he'
        rw [heq] at hle
        exact absurd hold (Nat.not_lt.2 hle)
      · have hstart : n + 2 ≤ t.nextId := hb.opening.nextId_le
        rw [List.mem_singleton.1 hnode, hb.exit_id] at hnew
        exact absurd hnew (by simp only; omega)
  · refine List.mem_append_left _ (List.mem_map.2 ⟨_, List.mem_append_right _ hret, ?_⟩)
    exact congrArg (e.1, ·, e.2.2) htarget.symm

/-- What becomes of the watched arcs of a run in the graph of a callable. -/
theorem settled (hb : Builds h decl body n ins t s es outs u g)
    (hq : Within h (bodyRun ins body t s) gs q) (hW : Watches W q)
    (hfinal : ∀ gs q, Within h (bodyRun ins body t s) gs q → q.IsFinal → Wholly W)
    (hs : Settled W E marks ret q) :
    (∀ e, W ⟨e.1, e.2.2⟩ →
      (e ∈ g.edges ↔ (E e ∨ Led gs marks e) ∨ ret ⟨e.1, e.2.2⟩ ∧ e.2.1 = g.idAt g.exitHead)) ∧
      Marked W gs marks ∧ gs.length = marks.length := by
  have hbody : (bodyRun ins body t s).Derived h := hb.body
  obtain ⟨hset, hmarked⟩ := hq.settled hbody hW hfinal hs
  refine ⟨hb.edges_settled (hq.watches hbody hW).fresh hset.tracked hset.outputs, hmarked, ?_⟩
  have hnil := hset.tracked.handlers
  rw [show (bodyRun ins body t s).last.scopes = [] from hb.scopes_eq, List.flatMap_nil,
    List.forall₂_nil_left_iff, List.drop_eq_nil_iff] at hnil
  exact Nat.le_antisymm hmarked.length_le hnil

end Builds

end Lowering

end Slicing
