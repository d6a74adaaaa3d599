import Slicing.Proofs.Flow.Apart
import Slicing.Proofs.Flow.Numbers
import Slicing.Proofs.Flow.Placement
import Slicing.Proofs.Flow.Spot

/-!
# `finally` blocks without nodes

A `finally` block without nodes may be taken away: the flow graph stays the same, up to what is
reported as unreachable in the block itself (`FlowGraph.build_withoutFinalizer`).

The two lowerings differ while the `try` is lowered. With the block, what leaves the `try` waits
for it and is sent on at its end; without, it is sent on at once (`Link.openTry`). Either way it is
sent in the same order, and nothing else is sent out of the `try`, so both end in the same state
(`lowerTry_withoutFinalizer`). A way out that leads nowhere makes both fail, if not at the same
point.

It is asked that no end of the `try` is also a way out of it (`TryApart`), as such an end is lost
at a block without nodes.
-/

namespace Slicing

mutual

/-- The catch clauses in a statement without nodes. Nothing leads to them. -/
def Stmt.idleClauses : Stmt → List ElementId
  | .tryBlock _ body catches none => blockIdleClauses body ++ catches.map (·.id)
  | .tryBlock _ body catches (some finalizer) =>
    blockIdleClauses body ++ catches.map (·.id) ++ blockIdleClauses finalizer
  | .block _ body => blockIdleClauses body
  | _ => []

/-- The catch clauses in the statements of a block without nodes. -/
def blockIdleClauses : List Stmt → List ElementId
  | [] => []
  | stmt :: stmts => stmt.idleClauses ++ blockIdleClauses stmts

end

namespace Lowering

variable {h : Hierarchy} {s t u : Lowering}

/-- The state with elements recorded as unreachable. -/
def noted (s : Lowering) (ids : List ElementId) : Lowering :=
  s.withGraph { s.graph with unreachable := s.graph.unreachable ++ ids }

theorem noted_nil (s : Lowering) : s.noted [] = s := by
  rw [noted, List.append_nil]
  rfl

/-- What is reported behind what was reported. -/
theorem noted_noted (s : Lowering) (ids ids' : List ElementId) :
    (s.noted ids).noted ids' = s.noted (ids ++ ids') := by
  rw [noted, noted, noted, ← List.append_assoc]
  rfl

@[simp] theorem noted_pending (s : Lowering) (ids : List ElementId) :
    (s.noted ids).pending = s.pending := rfl

/-- What has been found unreachable before a blind step stays apart from what it finds. -/
theorem Blind.noted {α : Type} {m : Lower α} (hm : Blind (.same h) (.same h) m) (s : Lowering)
    (ids : List ElementId) :
    (∃ (v : α) (t : Lowering),
      m (s.noted ids) = .ok v (t.withGraph (t.graph.noting (s.graph.unreachable ++ ids))) ∧
      m s = .ok v (t.withGraph (t.graph.noting s.graph.unreachable))) ∨
    ∃ e e' t t', m (s.noted ids) = .error e t ∧ m s = .error e' t' := by
  obtain ⟨bare, hbare⟩ : ∃ bare : Lowering, ∀ ids,
      bare.amid ids s.around = s.withGraph { s.graph with unreachable := ids } :=
    ⟨s.withGraph { s.graph with unreachable := [] }, fun ids => by
      simp [amid, FlowGraph.noting, withGraph, around]⟩
  have hends : Ends (.same h) (s.graph.unreachable ++ ids) s.graph.unreachable
      (m (bare.amid (s.graph.unreachable ++ ids) s.around))
      (m (bare.amid s.graph.unreachable s.around)) := hm.ends rfl
  rw [hbare, hbare] at hends
  change Ends _ _ _ (m (s.noted ids)) (m s) at hends
  revert hends
  generalize m (s.noted ids) = r
  generalize m s = r'
  intro hends
  cases hends with
  | @ok v t a b hrel =>
    obtain rfl : a = b := hrel
    exact .inl ⟨v, t.amid [] a, rfl, rfl⟩
  | lost hlost => exact hlost.elim
  | error => exact .inr ⟨_, _, _, _, rfl, rfl⟩

/-! ## Blocks without nodes -/

/-- Nothing leads to a block, and all of its statements are recorded. -/
theorem lowerBlock_unreached {stmts : List Stmt} (hp : s.pending = []) :
    lowerBlock h stmts s = .ok () (s.noted (stmts.map (·.source.id))) := by
  induction stmts generalizing s with
  | nil => exact congrArg (EStateM.Result.ok ()) s.noted_nil.symm
  | cons stmt stmts ih =>
    rw [lowerBlock, bind_apply, lowerStmt_unreached hp]
    exact (ih (s := s.noted [stmt.source.id]) hp).trans (by rw [noted_noted]; rfl)

/-- Nothing leads to the handlers of a `try`. -/
theorem lowerCatches_unreached (clauses : List (CatchClause Stmt)) :
    lowerCatches h (clauses.map (⟨·.exceptionType, []⟩)) clauses s =
      .ok [] (s.noted (clauses.map (·.id))) := by
  induction clauses generalizing s with
  | nil => exact congrArg (EStateM.Result.ok []) s.noted_nil.symm
  | cons clause clauses ih =>
    obtain ⟨id, exceptionType, var, body⟩ := clause
    exact (ih (s := s.noted [id])).trans (by rw [noted_noted]; rfl)

/-- Turns from the body of a `try` to its catch clauses. -/
def turnToCatches : Lower (List Handler) := do
  let scope ← popScope
  pushScope scope.withoutHandlers
  return scope.handlers

/-- Lowers the body of a `try` and its catch clauses. The result are the arcs at their ends. -/
def lowerGuarded (h : Hierarchy) (body : List Stmt) (catches : List (CatchClause Stmt)) :
    Lower (List Pending) := do
  lowerBlock h body
  let afterBody ← takePending
  let handlers ← turnToCatches
  let afterCatches ← lowerCatches h handlers catches
  return afterBody ++ afterCatches

section Try

variable {source : Element} {body : List Stmt} {catches : List (CatchClause Stmt)}
  {finalizer : List Stmt} {normal : List Pending} {escapes : List (Pending × Escape)}
  {ids : List ElementId}

/-- A `try` that something comes to is entered, and left through its `finally` block if it has one.
    -/
theorem lowerTry_apply {finalizer : Option (List Stmt)} (hp : s.pending ≠ []) :
    lowerStmt h (.tryBlock source body catches finalizer) s = (do
      let normal ← lowerGuarded h body catches
      let scope ← popScope
      match finalizer with
      | none => setPending normal
      | some block => lowerFinalizer h (lowerBlock h block) normal scope.escapes : Lower Unit)
        (s.entered (tryScope catches finalizer.isSome)) := by
  have hnonempty : ¬s.pending.isEmpty = true := by simpa using hp
  rw [lowerStmt.eq_def, lowerGuarded, turnToCatches]
  simp only [bind_assoc, pure_bind]
  refine (congrFun (if_neg hnonempty) s).trans ?_
  rfl

/-- The body and the clauses of a `try` were lowered one after the other. -/
theorem lowerGuarded_eq_ok : lowerGuarded h body catches s = .ok normal u ↔ ∃ t after,
    lowerBlock h body s = .ok () t ∧ lowerCatches h t.innermost.handlers catches
      ((t.left.withPending []).entered t.innermost.withoutHandlers) = .ok after u ∧
      normal = t.pending ++ after := by
  simp only [lowerGuarded, turnToCatches, bind_eq_ok, takePending_eq_ok, popScope_eq_ok,
    pushScope_eq_ok, pure_eq_ok]
  constructor
  · rintro ⟨_, t, hbody, _, _, ⟨rfl, rfl⟩, _, _, ⟨_, _, ⟨rfl, rfl⟩, _, _, rfl, rfl, rfl⟩, after, _,
      hcatches, rfl, rfl⟩
    exact ⟨t, after, hbody, hcatches, rfl⟩
  · rintro ⟨t, after, hbody, hcatches, rfl⟩
    exact ⟨_, t, hbody, _, _, ⟨rfl, rfl⟩, _, _, ⟨_, _, ⟨rfl, rfl⟩, (), _, rfl, rfl, rfl⟩, after, _,
      hcatches, rfl, rfl⟩

/-- A `finally` block without nodes lets everything through. -/
theorem lowerFinalizer_noted {block : Lower Unit}
    (hblock : block (s.withPending (normal ++ escapes.map (·.1))) =
      .ok () ((s.withPending (normal ++ escapes.map (·.1))).noted ids)) :
    lowerFinalizer h block normal escapes s = routeAll h escapes ((s.noted ids).withPending
      ((normal ++ escapes.map (·.1)).filter fun p => !(escapes.map (·.1)).contains p)) := by
  change (block >>= _) (s.withPending (normal ++ escapes.map (·.1))) = _
  rw [bind_apply, hblock]
  exact congrFun (if_pos rfl) _

/-- Without a node in its body, a `try` is not left, and its catch clauses are not reached. -/
theorem lowerGuarded_nodeless {hasFinalizer : Bool}
    (hbody : lowerBlock h body (s.entered (tryScope catches hasFinalizer)) =
      .ok () ((s.entered (tryScope catches hasFinalizer)).noted ids)) :
    lowerGuarded h body catches (s.entered (tryScope catches hasFinalizer)) = .ok s.pending
      (((s.entered (.tryBlock [] hasFinalizer [])).withPending []).noted
        (ids ++ catches.map (·.id))) := by
  refine lowerGuarded_eq_ok.2 ⟨_, [], hbody, (lowerCatches_unreached catches).trans ?_, by simp⟩
  rw [← noted_noted]
  rfl

mutual

/-- A statement without nodes lets everything through. -/
theorem lowerStmt_nodeless (stmt : Stmt) {s : Lowering} (hno : stmt.hasNode = false)
    (hp : s.pending ≠ []) : lowerStmt h stmt s = .ok () (s.noted stmt.idleClauses) := by
  match stmt with
  | .block source body =>
    have hnonempty : ¬s.pending.isEmpty = true := by simpa using hp
    rw [lowerStmt.eq_def]
    exact (congrFun (if_neg hnonempty) s).trans (lowerBlock_nodeless body hno hp)
  | .tryBlock source body catches none =>
    rw [lowerTry_apply hp, bind_apply, lowerGuarded_nodeless (lowerBlock_nodeless body hno hp)]
    rfl
  | .tryBlock source body catches (some finalizer) =>
    rw [Stmt.hasNode, Bool.or_eq_false_iff] at hno
    rw [lowerTry_apply hp, bind_apply, lowerGuarded_nodeless (lowerBlock_nodeless body hno.1 hp)]
    refine (@lowerFinalizer_noted h (s.noted _) s.pending [] _ _
      (lowerBlock_nodeless finalizer hno.2 (by simpa using hp))).trans ?_
    rw [noted_noted, List.map_nil, List.append_nil]
    have hall : (s.pending.filter fun p => !([] : List Pending).contains p) = s.pending := by simp
    rw [hall]
    rfl
  | .simple .. | .branch .. | .whileLoop .. | .doWhile .. | .forLoop .. | .forEach .. | .select ..
  | .breakJump _ | .continueJump _ | .returnJump .. | .throwJump .. => cases hno

/-- A block without nodes lets everything through. -/
theorem lowerBlock_nodeless (stmts : List Stmt) {s : Lowering} (hno : blockHasNode stmts = false)
    (hp : s.pending ≠ []) : lowerBlock h stmts s = .ok () (s.noted (blockIdleClauses stmts)) := by
  match stmts with
  | [] => exact congrArg (EStateM.Result.ok ()) s.noted_nil.symm
  | stmt :: stmts =>
    rw [blockHasNode, Bool.or_eq_false_iff] at hno
    rw [lowerBlock, bind_apply, lowerStmt_nodeless stmt hno.1 hp]
    exact (lowerBlock_nodeless stmts (s := s.noted stmt.idleClauses) hno.2 hp).trans
      (by rw [noted_noted]; rfl)

end

end Try

end Lowering

/-! ## Ways out of a `try` -/

namespace Surroundings

variable (h : Hierarchy) (a : Surroundings)

/-- The surroundings with several ways out sent. -/
def sentAll (escapes : List (Pending × Escape)) : Surroundings :=
  escapes.foldl (fun a e => a.sent h e.1 e.2) a

/-- Several ways out lead somewhere when they are sent one after another. -/
def LandAll (a : Surroundings) : List (Pending × Escape) → Prop
  | [] => True
  | e :: escapes => a.Lands h e.1 e.2 ∧ (a.sent h e.1 e.2).LandAll escapes

variable {h a} {escapes : List (Pending × Escape)}

theorem sentAll_concat (e : Pending × Escape) :
    a.sentAll h (escapes ++ [e]) = (a.sentAll h escapes).sent h e.1 e.2 := by
  rw [sentAll, List.foldl_append]
  rfl

/-- Ways out land if all but the last do and the last one does then. -/
theorem landAll_concat (e : Pending × Escape) : a.LandAll h (escapes ++ [e]) ↔
    a.LandAll h escapes ∧ (a.sentAll h escapes).Lands h e.1 e.2 := by
  induction escapes generalizing a with
  | nil => simp [LandAll, sentAll]
  | cons first escapes ih =>
    rw [List.cons_append, LandAll, LandAll, ih, and_assoc]
    rfl

end Surroundings

/-- Inside of a `try` whose `finally` block is taken away in the second surroundings: what waits
    for it in the first ones has been sent on in the second ones. -/
def Link.openTry (h : Hierarchy) (outer : Surroundings) : Link h where
  Rel a b := ∃ handlers escapes, outer.LandAll h escapes ∧
    a = outer.inside (.tryBlock handlers true escapes) ∧
    b = (outer.sentAll h escapes).inside (.tryBlock handlers false [])
  Lost a := ∃ handlers escapes, ¬outer.LandAll h escapes ∧
    a = outer.inside (.tryBlock handlers true escapes)
  sent_rel := by
    rintro _ _ p escape ⟨handlers, escapes, hland, rfl, rfl⟩ hlands
    rw [Surroundings.inside_lands, take_tryBlock] at hlands ⊢
    rw [Surroundings.inside_sent, Surroundings.inside_sent, take_tryBlock, take_tryBlock]
    by_cases htaken : (offered h p escape handlers).2 = true
    · simp only [if_pos htaken]
      exact ⟨.inl trivial, _, escapes, hland, rfl, rfl⟩
    · simp only [if_neg htaken] at hlands ⊢
      have hland' := (Surroundings.landAll_concat (p, escape)).2 ⟨hland, hlands.resolve_left nofun⟩
      refine ⟨.inl rfl, _, escapes ++ [(p, escape)], hland', rfl, ?_⟩
      rw [Surroundings.sentAll_concat]
      rfl
  sent_lost := by
    rintro _ _ p escape ⟨handlers, escapes, hland, rfl, rfl⟩ hno -
    rw [Surroundings.inside_lands, take_tryBlock, not_or] at hno
    rw [Surroundings.inside_sent, take_tryBlock]
    by_cases htaken : (offered h p escape handlers).2 = true
    · simp [if_pos htaken] at hno
    · simp only [if_neg htaken]
      exact ⟨_, escapes ++ [(p, escape)], fun hland' =>
        hno.2 ((Surroundings.landAll_concat (p, escape)).1 hland').2, rfl⟩
  lost_sent := by
    rintro _ p escape ⟨handlers, escapes, hland, rfl⟩
    rw [Surroundings.inside_sent, take_tryBlock]
    by_cases htaken : (offered h p escape handlers).2 = true
    · simp only [if_pos htaken]
      exact ⟨_, escapes, hland, rfl⟩
    · simp only [if_neg htaken]
      exact ⟨_, escapes ++ [(p, escape)], fun hland' =>
        hland ((Surroundings.landAll_concat (p, escape)).1 hland').1, rfl⟩

namespace Lowering

variable {h : Hierarchy} {s t u : Lowering} {ids : List ElementId} {a outer : Surroundings}
  {escapes : List (Pending × Escape)}

theorem amid_sentAll : (s.amid ids a).sentAll h escapes = s.amid ids (a.sentAll h escapes) := by
  induction escapes generalizing a with
  | nil => rfl
  | cons e escapes ih => exact ih (a := a.sent h e.1 e.2)

theorem sentAll_noted (ps : List Pending) : ((s.noted ids).withPending ps).sentAll h escapes =
    ((s.sentAll h escapes).withPending ps).noted ids := by
  induction escapes generalizing s with
  | nil => rfl
  | cons e escapes ih => exact ih (s := s.sent h e.1 e.2)

/-- Ways out that land are sent. -/
theorem routeAll_landed (hland : s.around.LandAll h escapes) :
    routeAll h escapes s = .ok () (s.sentAll h escapes) := by
  induction escapes generalizing s with
  | nil => rfl
  | cons e escapes ih =>
    have hroute : route h e.1 e.2 s = .ok () (s.sent h e.1 e.2) := route_eq_ok.2 ⟨hland.1, rfl⟩
    rw [routeAll, bind_apply, hroute]
    exact ih hland.2

/-- A way out that does not land is an error. -/
theorem routeAll_stranded (hland : ¬s.around.LandAll h escapes) :
    ∃ e t, routeAll h escapes s = .error e t := by
  induction escapes generalizing s with
  | nil => exact absurd trivial hland
  | cons first escapes ih =>
    rw [routeAll, bind_apply]
    rcases route_ok_or_error (h := h) s first.1 first.2 with ⟨hlands, hrun⟩ | ⟨-, e, hrun⟩
    · rw [hrun]
      exact ih fun hland' => hland ⟨hlands, hland'⟩
    · exact ⟨e, s, by rw [hrun]⟩

/-- Going on to the clauses does not look at what was reported. -/
theorem turnToCatches_blind : Blind (.openTry h outer) (.openTry h outer) turnToCatches where
  ends {ids ids' s a b} hrel := by
    obtain ⟨handlers, escapes, hland, rfl, rfl⟩ := hrel
    exact .ok (l := .openTry h outer) handlers s ⟨[], escapes, hland, rfl, rfl⟩
  lost {s t v} hlost hrun := by
    obtain ⟨handlers, escapes, hland, haround⟩ := hlost
    obtain ⟨hinner, hleft⟩ := left_of_around haround
    simp only [turnToCatches, bind_eq_ok, popScope_eq_ok, pushScope_eq_ok, pure_eq_ok] at hrun
    obtain ⟨_, _, ⟨rfl, rfl⟩, _, _, rfl, rfl, rfl⟩ := hrun
    refine ⟨[], escapes, hland, ?_⟩
    change s.left.around.inside s.innermost.withoutHandlers = _
    rw [hinner, hleft]
    rfl

/-- Lowering the body and the clauses does not look at what was reported. -/
theorem lowerGuarded_blind (body : List Stmt) (catches : List (CatchClause Stmt)) :
    Blind (.openTry h outer) (.openTry h outer) (lowerGuarded h body catches) :=
  .bind (lowerBlock_blind _ body) fun _ => .bind .takePending fun _ => .bind turnToCatches_blind
    fun handlers => .bind (lowerCatches_blind _ handlers catches) fun _ => .pure _

section Try

variable {source : Element} {body : List Stmt} {catches : List (CatchClause Stmt)}
  {finalizer : List Stmt}

/-- Wherever a `try` is lowered, none of its ends is also a way out that waits for its `finally`
    block. -/
def TryApart (h : Hierarchy) (body : List Stmt) (catches : List (CatchClause Stmt)) : Prop :=
  ∀ {s t : Lowering} {normal : List Pending}, Ready (.block []) s →
    lowerGuarded h body catches (s.entered (tryScope catches true)) = .ok normal t →
      ∀ p ∈ normal, p ∉ t.innermost.escapes.map (·.1)

/-- Ends stay apart from ways out if no jump leaves a `finally` block with nodes inside of the
    `try`. -/
theorem tryApart_of_endsApart (hbody : blockEndsApart true body)
    (hcatches : catchesEndsApart true catches) : TryApart h body catches := by
  intro s u _ hr hrun
  obtain ⟨t, after, hblock, hclauses, rfl⟩ := lowerGuarded_eq_ok.1 hrun
  have hl := lowered_block h body hblock (try_ready hr.sound hr.inputs)
  have hl' := lowered_catches h _ catches hclauses (catches_ready after hl.grown)
  exact try_apart hl hl' hbody hcatches

/-- From some state, a `try` is lowered with nothing at its ends, and nothing leaves it. -/
def TryEndless (h : Hierarchy) (body : List Stmt) (catches : List (CatchClause Stmt)) : Prop :=
  ∃ s t, Ready (.block []) s ∧ s.pending ≠ [] ∧
    lowerGuarded h body catches (s.entered (tryScope catches true)) = .ok [] t ∧
    t.innermost.escapes = []

/-- What is reported as unreachable in a block without nodes: all of it if nothing leads to it. -/
def idleReport (stmts : List Stmt) (tails : List Pending) : List ElementId :=
  if tails = [] then stmts.map (·.source.id) else blockIdleClauses stmts

/-- A block without nodes adds nothing but what is unreachable in it. -/
theorem lowerBlock_noted (hno : blockHasNode finalizer = false) (s : Lowering) :
    lowerBlock h finalizer s = .ok () (s.noted (idleReport finalizer s.pending)) := by
  rw [idleReport]
  split
  case isTrue hp => exact lowerBlock_unreached hp
  case isFalse hp => exact lowerBlock_nodeless finalizer hno hp

section Finalizer

variable {normal : List Pending} {escapes : List (Pending × Escape)}

/-- What waits for a `finally` block without nodes is sent on where it leads. -/
theorem lowerFinalizer_landed (hno : blockHasNode finalizer = false)
    (hland : s.around.LandAll h escapes) (hapart : ∀ p ∈ normal, p ∉ escapes.map (·.1)) :
    lowerFinalizer h (lowerBlock h finalizer) normal escapes s =
      .ok () (((s.sentAll h escapes).withPending normal).noted
        (idleReport finalizer (normal ++ escapes.map (·.1)))) := by
  have hblock := lowerBlock_noted (h := h) hno (s.withPending (normal ++ escapes.map (·.1)))
  -- the ends that are kept are those that are no ways out
  have hnormal : (normal ++ escapes.map (·.1)).filter
      (fun p => !(escapes.map (·.1)).contains p) = normal := by
    rw [List.filter_append, List.filter_eq_self.2, List.filter_eq_nil_iff.2, List.append_nil]
    · intro p hp
      simpa using hp
    · intro p hp
      simpa using hapart p hp
  have hland' (ids : List ElementId) :
      ((s.noted ids).withPending normal).around.LandAll h escapes := hland
  rw [lowerFinalizer_noted hblock, hnormal, routeAll_landed (hland' _), sentAll_noted]
  rfl

/-- If some of it leads nowhere, lowering fails. -/
theorem lowerFinalizer_stranded (hno : blockHasNode finalizer = false)
    (hland : ¬s.around.LandAll h escapes) :
    ∃ e t, lowerFinalizer h (lowerBlock h finalizer) normal escapes s = .error e t := by
  rw [lowerFinalizer_noted (lowerBlock_noted hno _)]
  exact routeAll_stranded hland

end Finalizer

/-- A `try` is lowered to the same with or without a `finally` block that has no nodes, or
    neither way. -/
theorem lowerTry_withoutFinalizer (hr : Ready (.block []) s)
    (hno : blockHasNode finalizer = false) (hapart : TryApart h body catches) :
    (∃ t ids, (ids = [] ∨ ids = blockIdleClauses finalizer ∨
        TryEndless h body catches ∧ ids = finalizer.map (·.source.id)) ∧
      lowerStmt h (.tryBlock source body catches (some finalizer)) s = .ok () (t.noted ids) ∧
      lowerStmt h (.tryBlock source body catches none) s = .ok () t) ∨
    ∃ e e' t t', lowerStmt h (.tryBlock source body catches (some finalizer)) s = .error e t ∧
      lowerStmt h (.tryBlock source body catches none) s = .error e' t' := by
  by_cases hp : s.pending = []
  · refine .inl ⟨_, [], .inl rfl, ?_, lowerStmt_unreached hp⟩
    rw [lowerStmt_unreached hp, noted_nil]
    rfl
  rw [lowerTry_apply hp, lowerTry_apply hp, bind_apply, bind_apply]
  have hends : Ends (.openTry h s.around) [] []
      (lowerGuarded h body catches (s.entered (tryScope catches true)))
      (lowerGuarded h body catches (s.entered (tryScope catches false))) :=
    (lowerGuarded_blind body catches).ends (s := s) ⟨_, [], trivial, rfl, rfl⟩
  have hguarded := @hapart s
  have hendless (u : Lowering)
      (hrun : lowerGuarded h body catches (s.entered (tryScope catches true)) = .ok [] u)
      (hescapes : u.innermost.escapes = []) : TryEndless h body catches :=
    ⟨s, u, hr, hp, hrun, hescapes⟩
  simp only [Option.isSome_some, Option.isSome_none]
  revert hends hguarded hendless
  generalize lowerGuarded h body catches (s.entered (tryScope catches true)) = r
  generalize lowerGuarded h body catches (s.entered (tryScope catches false)) = r'
  intro hends hguarded hendless
  cases hends with
  | ok normal t hrel =>
    -- with the block, the ways out wait for it; without, they have been sent on, in the same order
    obtain ⟨handlers, escapes, hland, rfl, rfl⟩ := hrel
    have hrun := @lowerFinalizer_landed h (t.amid [] s.around) finalizer normal escapes hno hland
      (hguarded hr rfl)
    refine .inl ⟨_, idleReport finalizer (normal ++ escapes.map (·.1)), ?_, hrun, ?_⟩
    · rw [idleReport]
      split
      case isTrue htails =>
        obtain ⟨rfl, hescapes⟩ := List.append_eq_nil_iff.1 htails
        exact .inr (.inr ⟨hendless _ rfl (List.map_eq_nil_iff.1 hescapes), rfl⟩)
      case isFalse => exact .inr (.inl rfl)
    · rw [amid_sentAll]
      rfl
  | @lost normal t _ _ hlost =>
    -- a way out that led nowhere without the block is sent nowhere at its end
    obtain ⟨handlers, escapes, hland, haround⟩ := hlost
    obtain ⟨hinner, hleft⟩ := left_of_around haround
    have hstranded : ¬t.left.around.LandAll h escapes := by rwa [hleft]
    obtain ⟨e, t', hrun⟩ := @lowerFinalizer_stranded h t.left finalizer normal escapes hno hstranded
    refine .inr ⟨e, _, t', _, ?_, rfl⟩
    dsimp only
    rw [bind_apply, popScope_apply, hinner]
    exact hrun
  | error => exact .inr ⟨_, _, _, _, rfl, rfl⟩

end Try

end Lowering

namespace FlowGraph

open Lowering (TryApart TryEndless)

variable {h : Hierarchy} {decl : CallableDecl} {spot : Spot} {source : Element} {body : List Stmt}
  {catches : List (CatchClause Stmt)} {finalizer : List Stmt}

/-- Without a `finally` block that has no nodes, the flow graph of a callable is the same, up to
    what is reported as unreachable in the block: the catch clauses in it, of which there are none
    in blocks, or all of its statements if nothing leads to them. -/
theorem build_withoutFinalizer
    (hbody : decl.body = some (spot.fill (.tryBlock source body catches (some finalizer))))
    (hno : blockHasNode finalizer = false) (hapart : TryApart h body catches) (n : Nat) :
    (∃ e e', (build h decl n).1 = .error e ∧
      (build h { decl with body := some (spot.fill (.tryBlock source body catches none)) } n).1 =
        .error e') ∨
    ∃ (g : FlowGraph) (front ids rest : List ElementId) (k : Nat),
      (ids = [] ∨ ids = blockIdleClauses finalizer ∨
        TryEndless h body catches ∧ ids = finalizer.map (·.source.id)) ∧
      build h decl n = (.ok { g with unreachable := front ++ ids ++ rest }, k) ∧
      build h { decl with body := some (spot.fill (.tryBlock source body catches none)) } n =
        (.ok { g with unreachable := front ++ rest }, k) := by
  have hrun (stmt : Stmt) := @build_eq { decl with body := some (spot.fill stmt) } h _ rfl n
  have hcallable (stmt : Stmt) :
      Lowering.lowerCallable h { decl with body := some (spot.fill stmt) } (spot.fill stmt)
        (Lowering.start { decl with body := some (spot.fill stmt) } n) =
      Lowering.lowerCallable h decl (spot.fill stmt) (Lowering.start decl n) := rfl
  have hdecl : build h decl n = build h { decl with
      body := some (spot.fill (.tryBlock source body catches (some finalizer))) } n := by rw [← hbody]
  rw [hdecl, hrun, hrun, hcallable, hcallable]
  cases Lowering.lowerCallable_comes (h := h) decl spot n with
  | never r hr =>
    rw [hr, hr]
    cases r with
    | ok _ t => exact .inr ⟨t.graph, t.graph.unreachable, [], [], t.nextId, .inl rfl, by simp, by simp⟩
    | error e t => exact .inl ⟨e, e, rfl, rfl⟩
  | once t rest hready hrest hr =>
    rw [hr, hr, Lowering.bind_apply, Lowering.bind_apply]
    rcases @Lowering.lowerTry_withoutFinalizer h t source _ _ _ hready hno hapart with
      ⟨u, ids, hids, hwith, hwithout⟩ | ⟨e, e', _, _, hwith, hwithout⟩
    · rw [hwith, hwithout]
      -- what is reported in the block stays in front of what is found later
      rcases hrest.noted u ids with ⟨_, v, hv, hv'⟩ | ⟨e, e', _, _, he, he'⟩
      · dsimp only
        rw [hv, hv']
        exact .inr ⟨v.graph, u.graph.unreachable, ids, v.graph.unreachable, v.nextId, hids, rfl, rfl⟩
      · dsimp only
        rw [he, he']
        exact .inl ⟨e, e', rfl, rfl⟩
    · rw [hwith, hwithout]
      exact .inl ⟨e, e', rfl, rfl⟩

/-- A loop that a `break` or a `return` leaves through a `finally` block without nodes. -/
def leavingLoop (finalizer : Option (List Stmt)) : CallableDecl where
  id := ⟨0⟩
  name := "f"
  kind := .method
  owner := ⟨0⟩
  signature := ⟨"f", []⟩
  isStatic := true
  params := []
  returnsValue := false
  body := some [
    .forLoop ⟨⟨0⟩, "for", none⟩ [] none [] [.tryBlock ⟨⟨1⟩, "try", none⟩
      [.branch ⟨⟨2⟩, "if", none⟩ .none [.breakJump ⟨⟨3⟩, "break", none⟩] [],
        .simple ⟨⟨4⟩, "x", none⟩ ⟨[], [], [], ["E"]⟩]
      [⟨⟨5⟩, some "E", "e", [.returnJump ⟨⟨6⟩, "return", none⟩ none]⟩] finalizer],
    .simple ⟨⟨7⟩, "z", none⟩ .none]
  span := none

/-- The loop has the same graph without its `finally` block, or is rejected both ways. -/
theorem leavingLoop_withoutFinalizer :
    (∃ e e', (build ⟨[], []⟩ (leavingLoop (some [.block ⟨⟨8⟩, "{}", none⟩ []])) 0).1 = .error e ∧
      (build ⟨[], []⟩ (leavingLoop none) 0).1 = .error e') ∨
    ∃ (g : FlowGraph) (front ids rest : List ElementId) (k : Nat),
      (ids = [] ∨ ids = [] ∨ TryEndless ⟨[], []⟩ [.branch ⟨⟨2⟩, "if", none⟩ .none
          [.breakJump ⟨⟨3⟩, "break", none⟩] [], .simple ⟨⟨4⟩, "x", none⟩ ⟨[], [], [], ["E"]⟩]
          [⟨⟨5⟩, some "E", "e", [.returnJump ⟨⟨6⟩, "return", none⟩ none]⟩] ∧ ids = [⟨8⟩]) ∧
      build ⟨[], []⟩ (leavingLoop (some [.block ⟨⟨8⟩, "{}", none⟩ []])) 0 =
        (.ok { g with unreachable := front ++ ids ++ rest }, k) ∧
      build ⟨[], []⟩ (leavingLoop none) 0 = (.ok { g with unreachable := front ++ rest }, k) := by
  have hbody : (leavingLoop (some [.block ⟨⟨8⟩, "{}", none⟩ []])).body =
    some ((Spot.within [] (.forBody ⟨⟨0⟩, "for", none⟩ [] none []) (.here [] []) [_]).fill _) := rfl
  exact build_withoutFinalizer hbody rfl (Lowering.tryApart_of_endsApart (by decide) (by decide)) 0

/-- A `try` that nothing leaves, with a block in its `finally` block. -/
def endlessTry (finalizer : Option (List Stmt)) : CallableDecl where
  id := ⟨0⟩
  name := "f"
  kind := .method
  owner := ⟨0⟩
  signature := ⟨"f", []⟩
  isStatic := true
  params := []
  returnsValue := false
  body := some [
    .tryBlock ⟨⟨0⟩, "try", none⟩ [.forLoop ⟨⟨1⟩, "for", none⟩ [] none [] []] [] finalizer]
  span := none

/-- The block in its `finally` block is reported, and is not there to be reported without it. -/
theorem endlessTry_unreachable : ∃ g g',
    (build ⟨[], []⟩ (endlessTry (some [.block ⟨⟨2⟩, "{}", none⟩ []])) 0).1 = .ok g ∧
    (build ⟨[], []⟩ (endlessTry none) 0).1 = .ok g' ∧
    ⟨2⟩ ∈ g.unreachable ∧ ⟨2⟩ ∉ g'.unreachable := by
  have hreported : (match (build ⟨[], []⟩ (endlessTry (some [.block ⟨⟨2⟩, "{}", none⟩ []])) 0).1,
        (build ⟨[], []⟩ (endlessTry none) 0).1 with
      | .ok g, .ok g' => decide (⟨2⟩ ∈ g.unreachable ∧ ⟨2⟩ ∉ g'.unreachable)
      | _, _ => false) = true := by decide +kernel
  obtain ⟨g, hg⟩ := Lowering.build_ok ⟨[], []⟩ (endlessTry (some [.block ⟨⟨2⟩, "{}", none⟩ []])) 0
    (by decide)
  obtain ⟨g', hg'⟩ := Lowering.build_ok ⟨[], []⟩ (endlessTry none) 0 (by decide)
  rw [hg, hg'] at hreported
  exact ⟨g, g', hg, hg', of_decide_eq_true hreported⟩

end FlowGraph

end Slicing
