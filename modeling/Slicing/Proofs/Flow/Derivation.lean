import Slicing.Proofs.Flow.Extension

/-!
# Derivations of lowering

What a successful run of lowering does, as a relation between its first and its last
state with one rule for each construct (`Lowered`). The properties of flow graphs are
proved by induction on this relation, or along an execution by looking up the rule of
the construct that is executed.

What is lowered in one go (`Part`) starts from some arcs (`Part.inputs`) and ends in
others (`Part.outputs`). Each rule asks that what it starts from is there (`Ready`), so
that a derivation carries this for all the parts in it.

Nodes are only added (`Lowered.nodes`). A part without nodes leaves everything as it was,
and if it was reached, its statements are such that there are none (`Lowered.inert`).
-/

namespace Slicing

mutual

/-- There are nodes for a statement if it can be reached. -/
def Stmt.hasNode : Stmt → Bool
  | .tryBlock _ body _ none => blockHasNode body
  | .tryBlock _ body _ (some finalizer) => blockHasNode body || blockHasNode finalizer
  | .block _ body => blockHasNode body
  | _ => true

/-- There are nodes for the statements of a block if it can be reached. -/
def blockHasNode : List Stmt → Bool
  | [] => false
  | stmt :: stmts => stmt.hasNode || blockHasNode stmts

end

theorem Stmt.hasNode_of_loop {stmt : Stmt} {l : Loop} (hl : stmt.loop? = some l) : stmt.hasNode = true := by
  cases stmt <;> first | rfl | cases hl

theorem Stmt.hasNode_of_jump {stmt : Stmt} {j : Jump} (hj : stmt.jump? = some j) : stmt.hasNode = true := by
  cases stmt <;> first | rfl | cases hj

namespace Lowering

variable {h : Hierarchy} {s s' t u : Lowering} {p : Pending}

/-! ## Parts -/

/-- The ways out that wait for a `finally` block go on from each of its ends. -/
def redirected (escapes : List (Pending × Escape)) (tails : List Pending) :
    List (Pending × Escape) :=
  ((escapes.map (·.2)).eraseDups).flatMap fun escape => tails.map fun tail =>
    match escape with
    | .throwJump _ => (⟨tail.source, escape.edge⟩, escape)
    | _ => (tail, escape)

/-- A `try` of which nothing has been lowered. -/
def tryScope (catches : List (CatchClause Stmt)) (hasFinalizer : Bool) : Scope :=
  .tryBlock (catches.map (⟨·.exceptionType, []⟩)) hasFinalizer []

/-- The frontier of a `switch` at a case: the end of the case before, and the
    selector. -/
def caseFrontier (selector : NodeId) (fallthrough : List Pending) (label : Option String) :
    List Pending :=
  fallthrough ++ [⟨selector, ⟨.trueBranch, some (label.getD "default")⟩⟩]

/-- The arc that skips a `switch` without a default. -/
def skipArcs (selector : NodeId) (cases : List (SwitchCase Stmt)) : List Pending :=
  if cases.all (·.label.isSome) then [⟨selector, ⟨.falseBranch, some "default"⟩⟩] else []

/-- The arc past all cases goes from the selector, for want of a default. -/
theorem eq_of_mem_skipArcs {selector : NodeId} {cases : List (SwitchCase Stmt)} {p : Pending}
    (hp : p ∈ skipArcs selector cases) : p = ⟨selector, ⟨.falseBranch, some "default"⟩⟩ := by
  unfold skipArcs at hp
  split at hp
  · exact List.mem_singleton.1 hp
  · cases hp

/-- What is lowered in one go. -/
inductive Part where
  | stmt (stmt : Stmt)
  | block (stmts : List Stmt)
  /-- The update of a loop, which is left out if nothing leads to it. -/
  | update (stmts : List Stmt)
  /-- The rounds of a loop, entered from a node and led back to a head. -/
  | rounds (node head : NodeId) (enter : FlowKind) (body update : List Stmt)
      (breaks : List Pending)
  | cases (source : Element) (selector : NodeId) (fallthrough : List Pending)
      (cases : List (SwitchCase Stmt))
  | catches (handlers : List Handler) (clauses : List (CatchClause Stmt)) (after : List Pending)

/-- The arcs that a part starts from. -/
def Part.inputs (s : Lowering) : Part → List Pending
  | .stmt _ | .block _ | .update _ => s.pending
  | .rounds node _ enter _ _ _ => [.plain node enter]
  | .cases _ selector fallthrough rest =>
    fallthrough ++ rest.flatMap fun c => caseFrontier selector [] c.label
  | .catches handlers _ _ => handlers.flatMap (·.incoming)

/-- The old nodes that a part may lead back to. -/
def Part.heads : Part → NodeId → Prop
  | .rounds _ head _ _ _ _ => (· = head)
  | _ => Nowhere

/-- The arcs that a part ends in. -/
def Part.outputs (s : Lowering) : Part → List Pending
  | .catches _ _ after => after
  | _ => s.pending

/-- The arcs that a part without nodes passes on. -/
def Part.passed (s : Lowering) : Part → List Pending
  | .stmt _ | .block _ | .update _ => s.pending
  | .cases _ _ fallthrough _ => fallthrough
  | .rounds .. | .catches .. => []

theorem Part.passed_subset (s : Lowering) (part : Part) : part.passed s ⊆ part.inputs s := by
  cases part with
  | cases => exact List.subset_append_left _ _
  | rounds => exact List.nil_subset _
  | catches => exact List.nil_subset _
  | stmt => exact List.Subset.refl _
  | block => exact List.Subset.refl _
  | update => exact List.Subset.refl _

/-- A part can be lowered: what it starts from and leads back to is there. -/
structure Ready (part : Part) (s : Lowering) : Prop where
  sound : s.Sound
  inputs : ∀ p ∈ part.inputs s, p.source ∈ s.graph.ids
  heads : ∀ id, part.heads id → id ∈ s.graph.ids

/-! ## Rules -/

/-- The derivations of lowering. -/
inductive Lowered (h : Hierarchy) : Part → Lowering → Lowering → Prop
  | skip {stmt : Stmt} {s : Lowering} :
      Ready (.stmt stmt) s → s.pending = [] →
        Lowered h (.stmt stmt) s (s.skipped stmt.source.id)
  | simple {source : Element} {effects : Effects} {s s' : Lowering} {head id : NodeId} :
      Ready (.stmt (.simple source effects)) s → s.pending ≠ [] →
        Constructs h s ⟨.statement, some source.id⟩ effects head id s' →
        Lowered h (.stmt (.simple source effects)) s s'
  | branch {source : Element} {cond : Effects} {thenBranch elseBranch : List Stmt}
      {s t u v : Lowering} {head id : NodeId} :
      Ready (.stmt (.branch source cond thenBranch elseBranch)) s → s.pending ≠ [] →
        Constructs h s ⟨.predicate, some source.id⟩ cond head id t →
        Lowered h (.block thenBranch) (t.withPending [.plain id .trueBranch]) u →
        Lowered h (.block elseBranch) (u.withPending [.plain id .falseBranch]) v →
        Lowered h (.stmt (.branch source cond thenBranch elseBranch)) s
          (v.withPending (v.pending ++ u.pending))
  | loopUnentered {stmt : Stmt} {l : Loop} {s t : Lowering} :
      Ready (.stmt stmt) s → s.pending ≠ [] → stmt.loop? = some l →
        Lowered h (.block l.init) s t → t.pending = [] → Lowered h (.stmt stmt) s t
  | tested {stmt : Stmt} {l : Loop} {s t u v : Lowering} {head id : NodeId}
      {breaks : List Pending} :
      Ready (.stmt stmt) s → s.pending ≠ [] → stmt.loop? = some l → l.cond.isSome →
        Lowered h (.block l.init) s t → t.pending ≠ [] → Constructs h t l.point l.test head id u →
        Lowered h (.rounds id head .trueBranch l.body l.update breaks) u v →
        Lowered h (.stmt stmt) s (v.withPending (v.pending ++ [.plain id .falseBranch]))
  | endless {stmt : Stmt} {l : Loop} {s t u v : Lowering} {head : NodeId}
      {breaks : List Pending} :
      Ready (.stmt stmt) s → s.pending ≠ [] → stmt.loop? = some l → l.cond = none →
        Lowered h (.block l.init) s t → t.pending ≠ [] →
        Constructs h t l.point l.test head head u →
        Lowered h (.rounds head head .unconditional l.body l.update breaks) u v →
        Lowered h (.stmt stmt) s (if breaks.isEmpty then v.withLoopHead head else v)
  | rounds {node head : NodeId} {enter : FlowKind} {body update : List Stmt}
      {s t u : Lowering} :
      Ready (.rounds node head enter body update t.innermost.breaks) s →
        Lowered h (.block body) ((s.withPending [.plain node enter]).entered (.loop [] [])) t →
        Lowered h (.update update) (t.left.withPending (t.pending ++ t.innermost.continues)) u →
        Lowered h (.rounds node head enter body update t.innermost.breaks) s
          (((u.withPending []).closed head u.pending).withPending t.innermost.breaks)
  | updateUnentered {stmts : List Stmt} {s : Lowering} :
      Ready (.update stmts) s → s.pending = [] → Lowered h (.update stmts) s s
  | update {stmts : List Stmt} {s t : Lowering} :
      Ready (.update stmts) s → s.pending ≠ [] → Lowered h (.block stmts) s t →
        Lowered h (.update stmts) s t
  | footless {source : Element} {body : List Stmt} {cond : Effects} {s t : Lowering} :
      Ready (.stmt (.doWhile source body cond)) s → s.pending ≠ [] →
        Lowered h (.block body) (s.entered (.loop [] [])) t →
        t.pending ++ t.innermost.continues = [] →
        Lowered h (.stmt (.doWhile source body cond)) s
          (((t.left.withPending []).skipped source.id).withPending t.innermost.breaks)
  | footed {source : Element} {body : List Stmt} {cond : Effects} {s t u : Lowering}
      {head id : NodeId} :
      Ready (.stmt (.doWhile source body cond)) s → s.pending ≠ [] →
        Lowered h (.block body) (s.entered (.loop [] [])) t →
        t.pending ++ t.innermost.continues ≠ [] →
        Constructs h (t.left.withPending (t.pending ++ t.innermost.continues))
          ⟨.predicate, some source.id⟩ cond head id u →
        Lowered h (.stmt (.doWhile source body cond)) s
          ((u.closed (if s.graph.size < t.graph.size then u.graph.idAt s.graph.size else head)
            [.plain id .loopBack]).withPending (.plain id .falseBranch :: t.innermost.breaks))
  | select {source : Element} {selector : Effects} {cases : List (SwitchCase Stmt)}
      {s t u : Lowering} {head id : NodeId} :
      Ready (.stmt (.select source selector cases)) s → s.pending ≠ [] →
        Constructs h s ⟨.predicate, some source.id⟩ selector head id t →
        Lowered h (.cases source id [] cases) (t.entered (.select [])) u →
        Lowered h (.stmt (.select source selector cases)) s
          (u.left.withPending (u.pending ++ u.innermost.breaks ++ skipArcs id cases))
  | casesEnd {source : Element} {selector : NodeId} {fallthrough : List Pending} {s : Lowering} :
      Ready (.cases source selector fallthrough []) s →
        Lowered h (.cases source selector fallthrough []) s (s.withPending fallthrough)
  | case {source : Element} {selector : NodeId} {fallthrough : List Pending}
      {c : SwitchCase Stmt} {cases : List (SwitchCase Stmt)} {s t u v : Lowering}
      {head : NodeId} :
      Ready (.cases source selector fallthrough (c :: cases)) s →
        Constructs h (s.withPending (caseFrontier selector fallthrough c.label))
          ⟨.caseLabel, some c.id⟩ .none head head t →
        Lowered h (.block c.body) t u →
        Lowered h (.cases source selector u.pending cases) (u.withPending []) v →
        Lowered h (.cases source selector fallthrough (c :: cases)) s v
  | jump {stmt : Stmt} {j : Jump} {s t : Lowering} {head id : NodeId} :
      Ready (.stmt stmt) s → s.pending ≠ [] → stmt.jump? = some j →
        Constructs h s ⟨j.kind, some j.source.id⟩ j.value head id t →
        Lowered h (.stmt stmt) s ((t.withPending []).sent h ⟨id, j.escape.edge⟩ j.escape)
  | tryPlain {source : Element} {body : List Stmt} {catches : List (CatchClause Stmt)}
      {s t u : Lowering} {after : List Pending} :
      Ready (.stmt (.tryBlock source body catches none)) s → s.pending ≠ [] →
        Lowered h (.block body) (s.entered (tryScope catches false)) t →
        Lowered h (.catches t.innermost.handlers catches after)
          ((t.left.withPending []).entered t.innermost.withoutHandlers) u →
        Lowered h (.stmt (.tryBlock source body catches none)) s
          (u.left.withPending (t.pending ++ after))
  | tryNodeless {source : Element} {body finalizer : List Stmt}
      {catches : List (CatchClause Stmt)} {s t u v : Lowering} {after : List Pending} :
      Ready (.stmt (.tryBlock source body catches (some finalizer))) s → s.pending ≠ [] →
        Lowered h (.block body) (s.entered (tryScope catches true)) t →
        Lowered h (.catches t.innermost.handlers catches after)
          ((t.left.withPending []).entered t.innermost.withoutHandlers) u →
        Lowered h (.block finalizer)
          (u.left.withPending (t.pending ++ after ++ u.innermost.escapes.map (·.1))) v →
        v.graph.size = u.graph.size →
        Lowered h (.stmt (.tryBlock source body catches (some finalizer))) s
          ((v.withPending
            (v.pending.filter fun p => !(u.innermost.escapes.map (·.1)).contains p)).sentAll h
              u.innermost.escapes)
  | tryFinally {source : Element} {body finalizer : List Stmt}
      {catches : List (CatchClause Stmt)} {s t u v : Lowering} {after : List Pending} :
      Ready (.stmt (.tryBlock source body catches (some finalizer))) s → s.pending ≠ [] →
        Lowered h (.block body) (s.entered (tryScope catches true)) t →
        Lowered h (.catches t.innermost.handlers catches after)
          ((t.left.withPending []).entered t.innermost.withoutHandlers) u →
        Lowered h (.block finalizer)
          (u.left.withPending (t.pending ++ after ++ u.innermost.escapes.map (·.1))) v →
        v.graph.size ≠ u.graph.size →
        Lowered h (.stmt (.tryBlock source body catches (some finalizer))) s
          ((v.withPending (if (t.pending ++ after).isEmpty then [] else v.pending)).sentAll h
            (redirected u.innermost.escapes v.pending))
  | catchesEnd {handlers : List Handler} {s : Lowering} :
      Ready (.catches handlers [] []) s → Lowered h (.catches handlers [] []) s s
  | catchesUnhandled {clauses : List (CatchClause Stmt)} {s : Lowering} :
      Ready (.catches [] clauses []) s → Lowered h (.catches [] clauses []) s s
  | catchUnentered {handler : Handler} {handlers : List Handler} {clause : CatchClause Stmt}
      {clauses : List (CatchClause Stmt)} {after : List Pending} {s t : Lowering} :
      Ready (.catches (handler :: handlers) (clause :: clauses) after) s → handler.incoming = [] →
        Lowered h (.catches handlers clauses after) (s.skipped clause.id) t →
        Lowered h (.catches (handler :: handlers) (clause :: clauses) after) s t
  | catch {handler : Handler} {handlers : List Handler} {c : CatchClause Stmt}
      {clauses : List (CatchClause Stmt)} {after : List Pending} {s t u v : Lowering}
      {head : NodeId} :
      Ready (.catches (handler :: handlers) (c :: clauses) (u.pending ++ after)) s →
        handler.incoming ≠ [] →
        Constructs h (s.withPending handler.incoming) ⟨.catchClause, some c.id⟩ .none head head t →
        Lowered h (.block c.body) t u →
        Lowered h (.catches handlers clauses after) (u.withPending []) v →
        Lowered h (.catches (handler :: handlers) (c :: clauses) (u.pending ++ after)) s v
  | nested {source : Element} {body : List Stmt} {s t : Lowering} :
      Ready (.stmt (.block source body)) s → s.pending ≠ [] → Lowered h (.block body) s t →
        Lowered h (.stmt (.block source body)) s t
  | blockEnd {s : Lowering} : Ready (.block []) s → Lowered h (.block []) s s
  | blockNext {stmt : Stmt} {stmts : List Stmt} {s t u : Lowering} :
      Ready (.block (stmt :: stmts)) s → Lowered h (.stmt stmt) s t →
        Lowered h (.block stmts) t u → Lowered h (.block (stmt :: stmts)) s u

/-- What a derivation starts from is there. -/
theorem Lowered.ready {part : Part} (hl : Lowered h part s s') : Ready part s := by
  cases hl <;> assumption

/-! ## Parts without nodes -/

/-- Lowering adds nodes behind those there are. -/
theorem Lowered.nodes {part : Part} (hl : Lowered h part s s') :
    s.graph.nodes <+: s'.graph.nodes := by
  induction hl with
  | skip _ _ => exact List.prefix_rfl
  | simple _ _ hc => exact hc.nodes.1
  | branch _ _ hc _ _ ih₁ ih₂ => exact (hc.nodes.1.trans ih₁).trans ih₂
  | loopUnentered _ _ _ _ _ ih => exact ih
  | tested _ _ _ _ _ _ hc _ ih₁ ih₂ => exact (ih₁.trans hc.nodes.1).trans ih₂
  | endless _ _ _ _ _ _ hc _ ih₁ ih₂ =>
    have := (ih₁.trans hc.nodes.1).trans ih₂
    split
    exacts [this, this]
  | rounds _ _ _ ih₁ ih₂ =>
    rw [withPending_graph, closed_nodes]
    exact ih₁.trans ih₂
  | updateUnentered _ _ => exact List.prefix_rfl
  | update _ _ _ ih => exact ih
  | footless _ _ _ _ ih => exact ih
  | footed _ _ _ _ hc ih =>
    rw [withPending_graph, closed_nodes]
    exact ih.trans hc.nodes.1
  | select _ _ hc _ ih => exact hc.nodes.1.trans ih
  | casesEnd _ => exact List.prefix_rfl
  | case _ hc _ _ ih₁ ih₂ => exact (hc.nodes.1.trans ih₁).trans ih₂
  | jump _ _ _ hc => exact hc.nodes.1
  | tryPlain _ _ _ _ ih₁ ih₂ => exact ih₁.trans ih₂
  | tryNodeless _ _ _ _ _ _ ih₁ ih₂ ih₃ =>
    rw [sentAll_graph]
    exact (ih₁.trans ih₂).trans ih₃
  | tryFinally _ _ _ _ _ _ ih₁ ih₂ ih₃ =>
    rw [sentAll_graph]
    exact (ih₁.trans ih₂).trans ih₃
  | catchesEnd _ => exact List.prefix_rfl
  | catchesUnhandled _ => exact List.prefix_rfl
  | catchUnentered _ _ _ ih => exact ih
  | «catch» _ _ hc _ _ ih₁ ih₂ => exact (hc.nodes.1.trans ih₁).trans ih₂
  | nested _ _ _ ih => exact ih
  | blockEnd _ => exact List.prefix_rfl
  | blockNext _ _ _ ih₁ ih₂ => exact ih₁.trans ih₂

theorem Lowered.size_le {part : Part} (hl : Lowered h part s s') :
    s.graph.size ≤ s'.graph.size :=
  hl.nodes.length_le

/-- Two states that differ at most in the numbers in use and in what is unreachable. -/
structure Same (s s' : Lowering) : Prop where
  arcs : s'.graph.arcs = s.graph.arcs
  pending : s'.pending = s.pending
  scopes : s'.scopes = s.scopes
  returns : s'.returns = s.returns
  loopHeads : s'.loopHeads = s.loopHeads

theorem Same.trans (h₁ : Same s t) (h₂ : Same t u) : Same s u :=
  ⟨h₂.1.trans h₁.1, h₂.2.trans h₁.2, h₂.3.trans h₁.3, h₂.4.trans h₁.4, h₂.5.trans h₁.5⟩

/-- There are nodes for a part if it can be reached. -/
def Part.hasNode : Part → Bool
  | .stmt st => st.hasNode
  | .block stmts | .update stmts => blockHasNode stmts
  | .rounds .. | .cases .. | .catches .. => true

/-- What a part without nodes does: nothing. -/
def Inert (s s' : Lowering) : Part → Prop
  | .rounds .. | .cases .. => True
  | .catches _ _ after => after = [] ∧ Same s s'
  | part => Same s s' ∧ (s.pending ≠ [] → part.hasNode = false)

/-- What is entered and left unchanged leaves the statements around as they were. -/
theorem Same.innermost_eq {scope : Scope} (hsame : Same (s.entered scope) t) :
    t.innermost = scope ∧ t.left.scopes = s.scopes := by
  rw [innermost, left_scopes, hsame.scopes]
  exact ⟨rfl, rfl⟩

/-- Without a node in its body or its handlers, a `try` has nothing to take in. -/
theorem try_inert {catches : List (CatchClause Stmt)} {hasFinalizer : Bool}
    (h₁ : Same (s.entered (tryScope catches hasFinalizer)) t)
    (h₂ : Same ((t.left.withPending []).entered t.innermost.withoutHandlers) u) :
    u.innermost.escapes = [] ∧ Same s (u.left.withPending t.pending) := by
  obtain ⟨hinner, hscopes⟩ := h₁.innermost_eq
  obtain ⟨hinner', hscopes'⟩ := h₂.innermost_eq
  rw [hinner', hinner]
  refine ⟨rfl, h₂.arcs.trans h₁.arcs, h₁.pending, ?_, h₂.returns.trans h₁.returns,
    h₂.loopHeads.trans h₁.loopHeads⟩
  exact hscopes'.trans hscopes

/-- A part that adds no nodes does nothing, and has none, unless nothing comes to it. -/
theorem Lowered.inert {part : Part} (hl : Lowered h part s s')
    (hsize : s'.graph.size = s.graph.size) : Inert s s' part := by
  -- only parts that place nothing are left, as any node makes the graph larger
  induction hl with
  | skip _ hp => exact ⟨⟨rfl, rfl, rfl, rfl, rfl⟩, fun hne => absurd hp hne⟩
  | simple _ _ hc => exact absurd hsize (Nat.ne_of_gt hc.nodes.2)
  | branch _ _ hc hl₁ hl₂ _ _ =>
    have := hc.nodes.2
    have : _ ≤ _ := hl₁.size_le
    have : _ ≤ _ := hl₂.size_le
    simp only [withPending_graph] at *
    omega
  | loopUnentered _ hp _ _ hnil ih =>
    -- the frontier would have come through unchanged
    exact absurd ((ih hsize).1.pending.symm.trans hnil) hp
  | tested _ _ _ _ hl₁ _ hc hl₂ _ _ =>
    have := hc.nodes.2
    have := hl₁.size_le
    have := hl₂.size_le
    simp only [withPending_graph] at *
    omega
  | endless _ _ _ _ hl₁ _ hc hl₂ _ _ =>
    have := hc.nodes.2
    have := hl₁.size_le
    have := hl₂.size_le
    split at hsize
    · rw [withLoopHead_graph] at hsize
      omega
    · omega
  | rounds => trivial
  | updateUnentered _ hp => exact ⟨⟨rfl, rfl, rfl, rfl, rfl⟩, fun hne => absurd hp hne⟩
  | update _ _ _ ih => exact ih hsize
  | footless _ hp _ hfoot ih =>
    exact absurd ((ih hsize).1.pending.symm.trans (List.append_eq_nil_iff.1 hfoot).1) hp
  | footed _ _ hl _ hc ih =>
    have := hc.nodes.2
    have : _ ≤ _ := hl.size_le
    simp only [withPending_graph, entered_graph, left_graph, closed_size] at *
    omega
  | select _ _ hc hl _ =>
    have := hc.nodes.2
    have : _ ≤ _ := hl.size_le
    simp only [withPending_graph, entered_graph, left_graph] at *
    omega
  | casesEnd => trivial
  | case => trivial
  | jump _ _ _ hc => exact absurd hsize (Nat.ne_of_gt hc.nodes.2)
  | tryPlain _ _ hl₁ hl₂ ih₁ ih₂ =>
    have : _ ≤ _ := hl₁.size_le
    have : _ ≤ _ := hl₂.size_le
    simp only [withPending_graph, entered_graph, left_graph] at *
    obtain ⟨rfl, h₂⟩ := ih₂ (by omega)
    obtain ⟨h₁, hno⟩ := ih₁ (by omega)
    rw [List.append_nil]
    exact ⟨(try_inert h₁ h₂).2, hno⟩
  | tryNodeless _ hp hl₁ hl₂ hl₃ _ ih₁ ih₂ ih₃ =>
    have : _ ≤ _ := hl₁.size_le
    have : _ ≤ _ := hl₂.size_le
    have : _ ≤ _ := hl₃.size_le
    simp only [sentAll_graph, withPending_graph, entered_graph, left_graph] at *
    obtain ⟨rfl, h₂⟩ := ih₂ (by omega)
    obtain ⟨h₁, hno₁⟩ := ih₁ (by omega)
    obtain ⟨hescapes, hsame⟩ := try_inert h₁ h₂
    obtain ⟨h₃, hno₃⟩ := ih₃ (by omega)
    rw [hescapes, List.append_nil, List.map_nil, List.append_nil] at h₃ hno₃
    rw [hescapes, List.map_nil]
    refine ⟨by simpa [sentAll] using hsame.trans h₃, fun _ => ?_⟩
    refine Bool.or_eq_false_iff.2 ⟨hno₁ hp, hno₃ ?_⟩
    rw [withPending_pending, h₁.pending]
    exact hp
  | tryFinally _ _ hl₁ hl₂ hl₃ hne _ _ _ =>
    have : _ ≤ _ := hl₁.size_le
    have : _ ≤ _ := hl₂.size_le
    have : _ ≤ _ := hl₃.size_le
    simp only [sentAll_graph, withPending_graph, entered_graph, left_graph] at *
    omega
  | catchesEnd _ => exact ⟨rfl, rfl, rfl, rfl, rfl, rfl⟩
  | catchesUnhandled _ => exact ⟨rfl, rfl, rfl, rfl, rfl, rfl⟩
  | catchUnentered _ _ _ ih =>
    obtain ⟨hafter, hsame⟩ := ih hsize
    exact ⟨hafter, hsame.arcs, hsame.pending, hsame.scopes, hsame.returns, hsame.loopHeads⟩
  | «catch» _ _ hc hl₁ hl₂ _ _ =>
    have := hc.nodes.2
    have : _ ≤ _ := hl₁.size_le
    have : _ ≤ _ := hl₂.size_le
    simp only [withPending_graph] at *
    omega
  | nested _ _ _ ih => exact ih hsize
  | blockEnd _ => exact ⟨⟨rfl, rfl, rfl, rfl, rfl⟩, fun _ => rfl⟩
  | blockNext _ hl₁ hl₂ ih₁ ih₂ =>
    have := hl₁.size_le
    have := hl₂.size_le
    obtain ⟨h₁, hno₁⟩ := ih₁ (by omega)
    obtain ⟨h₂, hno₂⟩ := ih₂ (by omega)
    refine ⟨h₁.trans h₂, fun hne => Bool.or_eq_false_iff.2 ⟨hno₁ hne, hno₂ ?_⟩⟩
    rw [h₁.pending]
    exact hne

/-- A `try` without a node in its body has none in its handlers. -/
theorem catches_unentered {catches : List (CatchClause Stmt)} {after : List Pending}
    {handlers : List Handler} (hin : ∀ hd ∈ handlers, hd.incoming = [])
    (hl : Lowered h (.catches handlers catches after) s s') : s'.graph.size = s.graph.size := by
  induction catches generalizing handlers s after with
  | nil =>
    cases hl with
    | catchesEnd _ => rfl
    | catchesUnhandled _ => rfl
  | cons clause catches ih =>
    cases hl with
    | catchesUnhandled _ => rfl
    | catchUnentered _ _ hl =>
      have hrest := ih (fun hd hmem => hin hd (List.mem_cons_of_mem _ hmem)) hl
      exact hrest
    | «catch» _ hne _ _ _ => exact absurd (hin _ List.mem_cons_self) hne

/-- If the body of a `try` adds no node its clauses add none. -/
theorem try_size {catches : List (CatchClause Stmt)} {after : List Pending} {body : List Stmt}
    {hasFinalizer : Bool} (hl₁ : Lowered h (.block body) (s.entered (tryScope catches hasFinalizer)) t)
    (hl₂ : Lowered h (.catches t.innermost.handlers catches after)
      ((t.left.withPending []).entered t.innermost.withoutHandlers) u)
    (hsize : t.graph.size = s.graph.size) : u.graph.size = s.graph.size := by
  have hsame := (hl₁.inert hsize).1
  refine (catches_unentered (fun hd hmem => ?_) hl₂).trans hsize
  rw [hsame.innermost_eq.1] at hmem
  obtain ⟨clause, -, rfl⟩ := List.mem_map.1 hmem
  rfl

/-- A part for which there are no nodes adds none. -/
theorem Lowered.size_eq {part : Part} (hl : Lowered h part s s') (hno : part.hasNode = false) :
    s'.graph.size = s.graph.size := by
  -- the hypothesis rules out the constructs with a node of their own
  induction hl with
  | skip _ _ => rfl
  | simple _ _ _ => cases hno
  | branch _ _ _ _ _ _ _ => cases hno
  | loopUnentered _ _ hloop _ _ _ =>
    exact absurd hno (by simp [Part.hasNode, Stmt.hasNode_of_loop hloop])
  | tested _ _ hloop _ _ _ _ _ _ _ =>
    exact absurd hno (by simp [Part.hasNode, Stmt.hasNode_of_loop hloop])
  | endless _ _ hloop _ _ _ _ _ _ _ =>
    exact absurd hno (by simp [Part.hasNode, Stmt.hasNode_of_loop hloop])
  | rounds _ _ _ _ _ => cases hno
  | updateUnentered _ _ => rfl
  | update _ _ _ ih => exact ih hno
  | footless _ _ _ _ _ => cases hno
  | footed _ _ _ _ _ _ => cases hno
  | select _ _ _ _ _ => cases hno
  | casesEnd _ => cases hno
  | case _ _ _ _ _ _ => cases hno
  | jump _ _ hj _ => exact absurd hno (by simp [Part.hasNode, Stmt.hasNode_of_jump hj])
  | tryPlain _ _ hl₁ hl₂ ih₁ _ =>
    have hsize := try_size hl₁ hl₂ (ih₁ hno)
    exact hsize
  | tryNodeless _ _ hl₁ hl₂ _ hsize ih₁ _ _ =>
    rw [Part.hasNode, Stmt.hasNode, Bool.or_eq_false_iff] at hno
    rw [sentAll_graph]
    exact hsize.trans (try_size hl₁ hl₂ (ih₁ hno.1))
  | tryFinally _ _ hl₁ hl₂ _ hsize ih₁ _ ih₃ =>
    rw [Part.hasNode, Stmt.hasNode, Bool.or_eq_false_iff] at hno
    exact absurd (ih₃ hno.2) hsize
  | catchesEnd _ => cases hno
  | catchesUnhandled _ => cases hno
  | catchUnentered _ _ _ _ => cases hno
  | «catch» _ _ _ _ _ _ _ => cases hno
  | nested _ _ _ ih => exact ih hno
  | blockEnd _ => rfl
  | blockNext _ _ _ ih₁ ih₂ =>
    rw [Part.hasNode, blockHasNode, Bool.or_eq_false_iff] at hno
    exact (ih₂ hno.2).trans (ih₁ hno.1)

end Lowering

end Slicing
