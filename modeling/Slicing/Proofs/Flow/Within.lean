import Slicing.Proofs.Flow.Origins

/-!
# Runs within runs

A `Run` is the lowering of a part, or of the nodes of a construct, from one state to another. What
a run consists of is read off the rules of lowering (`Consists`), and what holds of a run if it holds
of those that it consists of holds of every run that lowering makes (`Lowered.along`). `Within`
relates a run to those at any depth in it.

Next to a run inside of another stand the catch clauses that are in charge of what is raised in it,
the innermost first, each with its node if it has one (`Guards`). These are the clauses of the `try`
statements whose body the run is in. While its catch clauses and its `finally` block are lowered, a
`try` handles nothing.
-/

namespace Slicing

namespace Lowering

/-- What is lowered in a run: a part, or a construct with the calls that it evaluates. -/
inductive Task where
  | part (part : Part)
  | construct (point : Point) (effects : Effects) (head id : NodeId)

/-- Something is lowered. -/
structure Run where
  task : Task
  first : Lowering
  last : Lowering

/-- A part is lowered. -/
abbrev Part.run (part : Part) (s s' : Lowering) : Run := ⟨.part part, s, s'⟩

/-- A construct is lowered. -/
abbrev constructRun (point : Point) (effects : Effects) (head id : NodeId) (s s' : Lowering) : Run :=
  ⟨.construct point effects head id, s, s'⟩

/-- Lowering makes a run. -/
def Run.Derived (h : Hierarchy) : Run → Prop
  | ⟨.part part, s, s'⟩ => Lowered h part s s'
  | ⟨.construct point effects head id, s, s'⟩ => Constructs h s point effects head id s'

/-- A run is of a `try` with a `finally` block. -/
def Run.IsFinal (r : Run) : Prop :=
  ∃ source body catches finalizer, r.task = .part (.stmt (.tryBlock source body catches (some finalizer)))

/-- The arcs that a run ends in. -/
def Run.outputs (r : Run) : List Pending :=
  match r.task with
  | .part part => part.outputs r.last
  | .construct .. => r.last.pending

/-- The catch clauses in charge, the innermost first, with their nodes. -/
abbrev Guards := List (CatchClause Stmt × Option NodeId)

/-- The nodes of catch clauses. There is none for a clause that nothing leads to. -/
inductive ClauseNodes (h : Hierarchy) : List Handler → List (CatchClause Stmt) → List Pending →
    Lowering → Lowering → List (Option NodeId) → Prop
  | nil {handlers : List Handler} {s : Lowering} : ClauseNodes h handlers [] [] s s []
  | unhandled {clauses : List (CatchClause Stmt)} {s : Lowering} :
      ClauseNodes h [] clauses [] s s (clauses.map fun _ => none)
  | unentered {handler : Handler} {handlers : List Handler} {clause : CatchClause Stmt}
      {clauses : List (CatchClause Stmt)} {after : List Pending} {s t : Lowering}
      {nodes : List (Option NodeId)} :
      handler.incoming = [] → ClauseNodes h handlers clauses after (s.skipped clause.id) t nodes →
        ClauseNodes h (handler :: handlers) (clause :: clauses) after s t (none :: nodes)
  | entered {handler : Handler} {handlers : List Handler} {c : CatchClause Stmt}
      {clauses : List (CatchClause Stmt)} {after : List Pending} {s t u v : Lowering} {head : NodeId}
      {nodes : List (Option NodeId)} :
      handler.incoming ≠ [] →
        Constructs h (s.withPending handler.incoming) ⟨.catchClause, some c.id⟩ .none head head t →
        Lowered h (.block c.body) t u →
        ClauseNodes h handlers clauses after (u.withPending []) v nodes →
        ClauseNodes h (handler :: handlers) (c :: clauses) (u.pending ++ after) s v
          (some head :: nodes)

/-- The runs that a run consists of, with the catch clauses that are in charge of them beyond those
    in charge of the whole run. -/
inductive Consists (h : Hierarchy) : Run → List (Run × Guards) → Prop
  | construct {point : Point} {effects : Effects} {head id : NodeId} {s s' : Lowering} :
      Consists h (constructRun point effects head id s s') []
  | skip {stmt : Stmt} {s : Lowering} :
      s.pending = [] → Consists h ((Part.stmt stmt).run s (s.skipped stmt.source.id)) []
  | simple {source : Element} {effects : Effects} {s s' : Lowering} {head id : NodeId} :
      s.pending ≠ [] →
        Consists h ((Part.stmt (.simple source effects)).run s s')
          [(constructRun ⟨.statement, some source.id⟩ effects head id s s', [])]
  | branch {source : Element} {cond : Effects} {thenBranch elseBranch : List Stmt}
      {s t u v : Lowering} {head id : NodeId} :
      s.pending ≠ [] →
        Consists h
          ((Part.stmt (.branch source cond thenBranch elseBranch)).run s
            (v.withPending (v.pending ++ u.pending)))
          [(constructRun ⟨.predicate, some source.id⟩ cond head id s t, []),
            ((Part.block thenBranch).run (t.withPending [.plain id .trueBranch]) u, []),
            ((Part.block elseBranch).run (u.withPending [.plain id .falseBranch]) v, [])]
  | loopUnentered {stmt : Stmt} {l : Loop} {s t : Lowering} :
      s.pending ≠ [] → stmt.loop? = some l → t.pending = [] →
        Consists h ((Part.stmt stmt).run s t) [((Part.block l.init).run s t, [])]
  | tested {stmt : Stmt} {l : Loop} {s t u v : Lowering} {head id : NodeId}
      {breaks : List Pending} :
      s.pending ≠ [] → stmt.loop? = some l → l.cond.isSome → t.pending ≠ [] →
        Consists h
          ((Part.stmt stmt).run s (v.withPending (v.pending ++ [.plain id .falseBranch])))
          [((Part.block l.init).run s t, []), (constructRun l.point l.test head id t u, []),
            ((Part.rounds id head .trueBranch l.body l.update breaks).run u v, [])]
  | endless {stmt : Stmt} {l : Loop} {s t u v : Lowering} {head : NodeId}
      {breaks : List Pending} :
      s.pending ≠ [] → stmt.loop? = some l → l.cond = none → t.pending ≠ [] →
        Consists h ((Part.stmt stmt).run s (if breaks.isEmpty then v.withLoopHead head else v))
          [((Part.block l.init).run s t, []), (constructRun l.point l.test head head t u, []),
            ((Part.rounds head head .unconditional l.body l.update breaks).run u v, [])]
  | rounds {node head : NodeId} {enter : FlowKind} {body update : List Stmt}
      {s t u : Lowering} :
      Consists h
        ((Part.rounds node head enter body update t.innermost.breaks).run s
          (((u.withPending []).closed head u.pending).withPending t.innermost.breaks))
        [((Part.block body).run ((s.withPending [.plain node enter]).entered (.loop [] [])) t, []),
          ((Part.update update).run (t.left.withPending (t.pending ++ t.innermost.continues)) u, [])]
  | updateUnentered {stmts : List Stmt} {s : Lowering} :
      s.pending = [] → Consists h ((Part.update stmts).run s s) []
  | update {stmts : List Stmt} {s t : Lowering} :
      s.pending ≠ [] → Consists h ((Part.update stmts).run s t) [((Part.block stmts).run s t, [])]
  | footless {source : Element} {body : List Stmt} {cond : Effects} {s t : Lowering} :
      s.pending ≠ [] → t.pending ++ t.innermost.continues = [] →
        Consists h
          ((Part.stmt (.doWhile source body cond)).run s
            (((t.left.withPending []).skipped source.id).withPending t.innermost.breaks))
          [((Part.block body).run (s.entered (.loop [] [])) t, [])]
  | footed {source : Element} {body : List Stmt} {cond : Effects} {s t u : Lowering}
      {head id : NodeId} :
      s.pending ≠ [] → t.pending ++ t.innermost.continues ≠ [] →
        Consists h
          ((Part.stmt (.doWhile source body cond)).run s
            ((u.closed (if s.graph.size < t.graph.size then u.graph.idAt s.graph.size else head)
              [.plain id .loopBack]).withPending (.plain id .falseBranch :: t.innermost.breaks)))
          [((Part.block body).run (s.entered (.loop [] [])) t, []),
            (constructRun ⟨.predicate, some source.id⟩ cond head id
              (t.left.withPending (t.pending ++ t.innermost.continues)) u, [])]
  | select {source : Element} {selector : Effects} {cases : List (SwitchCase Stmt)}
      {s t u : Lowering} {head id : NodeId} :
      s.pending ≠ [] →
        Consists h
          ((Part.stmt (.select source selector cases)).run s
            (u.left.withPending (u.pending ++ u.innermost.breaks ++ skipArcs id cases)))
          [(constructRun ⟨.predicate, some source.id⟩ selector head id s t, []),
            ((Part.cases source id [] cases).run (t.entered (.select [])) u, [])]
  | casesEnd {source : Element} {selector : NodeId} {fallthrough : List Pending} {s : Lowering} :
      Consists h ((Part.cases source selector fallthrough []).run s (s.withPending fallthrough)) []
  | case {source : Element} {selector : NodeId} {fallthrough : List Pending}
      {c : SwitchCase Stmt} {cases : List (SwitchCase Stmt)} {s t u v : Lowering} {head : NodeId} :
      Consists h ((Part.cases source selector fallthrough (c :: cases)).run s v)
        [(constructRun ⟨.caseLabel, some c.id⟩ .none head head
            (s.withPending (caseFrontier selector fallthrough c.label)) t, []),
          ((Part.block c.body).run t u, []),
          ((Part.cases source selector u.pending cases).run (u.withPending []) v, [])]
  | jump {stmt : Stmt} {j : Jump} {s t : Lowering} {head id : NodeId} :
      s.pending ≠ [] → stmt.jump? = some j →
        Constructs h s ⟨j.kind, some j.source.id⟩ j.value head id t →
        Consists h
          ((Part.stmt stmt).run s ((t.withPending []).sent h ⟨id, j.escape.edge⟩ j.escape)) []
  | tryPlain {source : Element} {body : List Stmt} {catches : List (CatchClause Stmt)}
      {s t u : Lowering} {after : List Pending} {nodes : List (Option NodeId)} :
      s.pending ≠ [] →
        ClauseNodes h t.innermost.handlers catches after
          ((t.left.withPending []).entered t.innermost.withoutHandlers) u nodes →
        Consists h
          ((Part.stmt (.tryBlock source body catches none)).run s
            (u.left.withPending (t.pending ++ after)))
          [((Part.block body).run (s.entered (tryScope catches false)) t, catches.zip nodes),
            ((Part.catches t.innermost.handlers catches after).run
              ((t.left.withPending []).entered t.innermost.withoutHandlers) u, [])]
  | tryNodeless {source : Element} {body finalizer : List Stmt}
      {catches : List (CatchClause Stmt)} {s t u v : Lowering} {after : List Pending}
      {nodes : List (Option NodeId)} :
      s.pending ≠ [] →
        ClauseNodes h t.innermost.handlers catches after
          ((t.left.withPending []).entered t.innermost.withoutHandlers) u nodes →
        v.graph.size = u.graph.size →
        Consists h
          ((Part.stmt (.tryBlock source body catches (some finalizer))).run s
            ((v.withPending
              (v.pending.filter fun p => !(u.innermost.escapes.map (·.1)).contains p)).sentAll h
                u.innermost.escapes))
          [((Part.block body).run (s.entered (tryScope catches true)) t, catches.zip nodes),
            ((Part.catches t.innermost.handlers catches after).run
              ((t.left.withPending []).entered t.innermost.withoutHandlers) u, []),
            ((Part.block finalizer).run
              (u.left.withPending (t.pending ++ after ++ u.innermost.escapes.map (·.1))) v, [])]
  | tryFinally {source : Element} {body finalizer : List Stmt}
      {catches : List (CatchClause Stmt)} {s t u v : Lowering} {after : List Pending}
      {nodes : List (Option NodeId)} :
      s.pending ≠ [] →
        ClauseNodes h t.innermost.handlers catches after
          ((t.left.withPending []).entered t.innermost.withoutHandlers) u nodes →
        v.graph.size ≠ u.graph.size →
        Consists h
          ((Part.stmt (.tryBlock source body catches (some finalizer))).run s
            ((v.withPending (if (t.pending ++ after).isEmpty then [] else v.pending)).sentAll h
              (redirected u.innermost.escapes v.pending)))
          [((Part.block body).run (s.entered (tryScope catches true)) t, catches.zip nodes),
            ((Part.catches t.innermost.handlers catches after).run
              ((t.left.withPending []).entered t.innermost.withoutHandlers) u, []),
            ((Part.block finalizer).run
              (u.left.withPending (t.pending ++ after ++ u.innermost.escapes.map (·.1))) v, [])]
  | catchesEnd {handlers : List Handler} {s : Lowering} :
      Consists h ((Part.catches handlers [] []).run s s) []
  | catchesUnhandled {clauses : List (CatchClause Stmt)} {s : Lowering} :
      Consists h ((Part.catches [] clauses []).run s s) []
  | catchUnentered {handler : Handler} {handlers : List Handler} {clause : CatchClause Stmt}
      {clauses : List (CatchClause Stmt)} {after : List Pending} {s t : Lowering} :
      handler.incoming = [] →
        Consists h ((Part.catches (handler :: handlers) (clause :: clauses) after).run s t)
          [((Part.catches handlers clauses after).run (s.skipped clause.id) t, [])]
  | catch {handler : Handler} {handlers : List Handler} {c : CatchClause Stmt}
      {clauses : List (CatchClause Stmt)} {after : List Pending} {s t u v : Lowering}
      {head : NodeId} :
      handler.incoming ≠ [] →
        Consists h ((Part.catches (handler :: handlers) (c :: clauses) (u.pending ++ after)).run s v)
          [(constructRun ⟨.catchClause, some c.id⟩ .none head head
              (s.withPending handler.incoming) t, []),
            ((Part.block c.body).run t u, []),
            ((Part.catches handlers clauses after).run (u.withPending []) v, [])]
  | nested {source : Element} {body : List Stmt} {s t : Lowering} :
      s.pending ≠ [] →
        Consists h ((Part.stmt (.block source body)).run s t) [((Part.block body).run s t, [])]
  | blockEnd {s : Lowering} : Consists h ((Part.block []).run s s) []
  | blockNext {stmt : Stmt} {stmts : List Stmt} {s t u : Lowering} :
      Consists h ((Part.block (stmt :: stmts)).run s u)
        [((Part.stmt stmt).run s t, []), ((Part.block stmts).run t u, [])]

variable {h : Hierarchy} {s s' t : Lowering} {q q' r : Run} {gs gs' : Guards}
  {pieces : List (Run × Guards)}

/-- A run is one of those that another one consists of. -/
def Inside (h : Hierarchy) (r : Run) (gs : Guards) (q : Run) : Prop :=
  ∃ pieces, Consists h r pieces ∧ (∀ piece ∈ pieces, piece.1.Derived h) ∧ (q, gs) ∈ pieces

/-- A run takes place in the course of another one. -/
inductive Within (h : Hierarchy) (r : Run) : Guards → Run → Prop
  | self : Within h r [] r
  | inside {gs gs' : Guards} {q q' : Run} :
      Within h r gs q → Inside h q gs' q' → Within h r (gs' ++ gs) q'

/-- The runs that a run consists of are made by lowering. -/
theorem Inside.derived (hq : Inside h r gs q) : q.Derived h :=
  let ⟨_, _, hpieces, hmem⟩ := hq
  hpieces _ hmem

/-- The runs in the course of one are made by lowering. -/
theorem Within.derived (hr : r.Derived h) (hq : Within h r gs q) : q.Derived h := by
  cases hq with
  | self => exact hr
  | inside _ hin => exact hin.derived

/-- The runs in the course of a run are those in the course of the runs around it. -/
theorem Within.trans (hq : Within h r gs q) (hq' : Within h q gs' q') :
    Within h r (gs' ++ gs) q' := by
  induction hq' with
  | self => exact hq
  | inside _ hin ih =>
    rw [List.append_assoc]
    exact .inside ih hin

/-- The runs that a run consists of take place in its course. -/
theorem Inside.within (hq : Inside h r gs q) : Within h r gs q := by
  simpa using Within.self.inside hq

/-! ## Runs consist of runs -/

/-- Catch clauses that have been lowered have nodes, unless nothing leads to them. -/
theorem Lowered.clauseNodes {handlers : List Handler} {clauses : List (CatchClause Stmt)}
    {after : List Pending} (hl : Lowered h (.catches handlers clauses after) s t) :
    ∃ nodes, ClauseNodes h handlers clauses after s t nodes := by
  induction clauses generalizing handlers after s with
  | nil =>
    cases hl with
    | catchesEnd _ => exact ⟨_, .nil⟩
    | catchesUnhandled _ => exact ⟨_, .nil⟩
  | cons clause clauses ih =>
    cases hl with
    | catchesUnhandled _ => exact ⟨_, .unhandled⟩
    | catchUnentered _ hin hl =>
      obtain ⟨nodes, hnodes⟩ := ih hl
      exact ⟨_, .unentered hin hnodes⟩
    | «catch» _ hin hc hl₁ hl₂ =>
      obtain ⟨nodes, hnodes⟩ := ih hl₂
      exact ⟨_, .entered hin hc hl₁ hnodes⟩

/-- Each clause has a node or has none. -/
theorem ClauseNodes.map_zip {handlers : List Handler} {clauses : List (CatchClause Stmt)}
    {after : List Pending} {nodes : List (Option NodeId)}
    (hn : ClauseNodes h handlers clauses after s t nodes) : (clauses.zip nodes).map (·.1) = clauses := by
  have hlen : clauses.length = nodes.length := by
    induction hn with
    | nil => rfl
    | unhandled => exact (List.length_map _).symm
    | unentered _ _ ih => exact congrArg (· + 1) ih
    | entered _ _ _ _ ih => exact congrArg (· + 1) ih
  exact List.map_fst_zip (Nat.le_of_eq hlen)

section Pieces

variable {P : Run → Prop} {a b c : Run} {ga gb gc : Guards}

theorem Pieces.none : ∀ piece ∈ ([] : List (Run × Guards)), P piece.1 := List.forall_mem_nil _

theorem Pieces.one (ha : P a) : ∀ piece ∈ [(a, ga)], P piece.1 :=
  List.forall_mem_cons.2 ⟨ha, Pieces.none⟩

/-- A property of two runs. -/
theorem Pieces.two (ha : P a) (hb : P b) : ∀ piece ∈ [(a, ga), (b, gb)], P piece.1 :=
  List.forall_mem_cons.2 ⟨ha, Pieces.one hb⟩

theorem Pieces.three (ha : P a) (hb : P b) (hc : P c) :
    ∀ piece ∈ [(a, ga), (b, gb), (c, gc)], P piece.1 :=
  List.forall_mem_cons.2 ⟨ha, Pieces.two hb hc⟩

end Pieces

/-- What holds of a run if it holds of those that it consists of holds of all runs. -/
theorem Lowered.along {P : Run → Prop} {part : Part}
    (hstep : ∀ r pieces, r.Derived h → Consists h r pieces →
      (∀ piece ∈ pieces, piece.1.Derived h) → (∀ piece ∈ pieces, P piece.1) → P r)
    (hl : Lowered h part s s') : P (part.run s s') := by
  -- the line of a construct consists of no runs
  have hconstruct {point : Point} {effects : Effects} {head id : NodeId} {s t : Lowering}
      (hc : Constructs h s point effects head id t) : P (constructRun point effects head id s t) :=
    hstep _ [] hc .construct Pieces.none Pieces.none
  induction hl with
  | skip hr hp => exact hstep _ _ (.skip hr hp) (.skip hp) Pieces.none Pieces.none
  | simple hr hp hc =>
    exact hstep _ _ (.simple hr hp hc) (.simple hp)
      (Pieces.one hc) (Pieces.one (hconstruct hc))
  | branch hr hp hc hl₁ hl₂ ih₁ ih₂ =>
    exact hstep _ _ (.branch hr hp hc hl₁ hl₂) (.branch hp)
      (Pieces.three hc hl₁ hl₂) (Pieces.three (hconstruct hc) ih₁ ih₂)
  | loopUnentered hr hp hloop hl hnil ih =>
    exact hstep _ _ (.loopUnentered hr hp hloop hl hnil) (.loopUnentered hp hloop hnil)
      (Pieces.one hl) (Pieces.one ih)
  | tested hr hp hloop hcond hl₁ hne hc hl₂ ih₁ ih₂ =>
    exact hstep _ _ (.tested hr hp hloop hcond hl₁ hne hc hl₂) (.tested hp hloop hcond hne)
      (Pieces.three hl₁ hc hl₂) (Pieces.three ih₁ (hconstruct hc) ih₂)
  | endless hr hp hloop hcond hl₁ hne hc hl₂ ih₁ ih₂ =>
    exact hstep _ _ (.endless hr hp hloop hcond hl₁ hne hc hl₂) (.endless hp hloop hcond hne)
      (Pieces.three hl₁ hc hl₂) (Pieces.three ih₁ (hconstruct hc) ih₂)
  | rounds hr hl₁ hl₂ ih₁ ih₂ =>
    exact hstep _ _ (.rounds hr hl₁ hl₂) .rounds
      (Pieces.two hl₁ hl₂) (Pieces.two ih₁ ih₂)
  | updateUnentered hr hp =>
    exact hstep _ _ (.updateUnentered hr hp) (.updateUnentered hp) Pieces.none Pieces.none
  | update hr hp hl ih =>
    exact hstep _ _ (.update hr hp hl) (.update hp)
      (Pieces.one hl) (Pieces.one ih)
  | footless hr hp hl hfoot ih =>
    exact hstep _ _ (.footless hr hp hl hfoot) (.footless hp hfoot)
      (Pieces.one hl) (Pieces.one ih)
  | footed hr hp hl hfoot hc ih =>
    exact hstep _ _ (.footed hr hp hl hfoot hc) (.footed hp hfoot)
      (Pieces.two hl hc) (Pieces.two ih (hconstruct hc))
  | select hr hp hc hl ih =>
    exact hstep _ _ (.select hr hp hc hl) (.select hp)
      (Pieces.two hc hl) (Pieces.two (hconstruct hc) ih)
  | casesEnd hr => exact hstep _ _ (.casesEnd hr) .casesEnd Pieces.none Pieces.none
  | case hr hc hl₁ hl₂ ih₁ ih₂ =>
    exact hstep _ _ (.case hr hc hl₁ hl₂) .case
      (Pieces.three hc hl₁ hl₂) (Pieces.three (hconstruct hc) ih₁ ih₂)
  | jump hr hp hj hc => exact hstep _ _ (.jump hr hp hj hc) (.jump hp hj hc) Pieces.none Pieces.none
  | tryPlain hr hp hl₁ hl₂ ih₁ ih₂ =>
    obtain ⟨nodes, hnodes⟩ := hl₂.clauseNodes
    exact hstep _ _ (.tryPlain hr hp hl₁ hl₂) (.tryPlain hp hnodes)
      (Pieces.two hl₁ hl₂) (Pieces.two ih₁ ih₂)
  | tryNodeless hr hp hl₁ hl₂ hl₃ hsize ih₁ ih₂ ih₃ =>
    obtain ⟨nodes, hnodes⟩ := hl₂.clauseNodes
    exact hstep _ _ (.tryNodeless hr hp hl₁ hl₂ hl₃ hsize) (.tryNodeless hp hnodes hsize)
      (Pieces.three hl₁ hl₂ hl₃) (Pieces.three ih₁ ih₂ ih₃)
  | tryFinally hr hp hl₁ hl₂ hl₃ hsize ih₁ ih₂ ih₃ =>
    obtain ⟨nodes, hnodes⟩ := hl₂.clauseNodes
    exact hstep _ _ (.tryFinally hr hp hl₁ hl₂ hl₃ hsize) (.tryFinally hp hnodes hsize)
      (Pieces.three hl₁ hl₂ hl₃) (Pieces.three ih₁ ih₂ ih₃)
  | catchesEnd hr => exact hstep _ _ (.catchesEnd hr) .catchesEnd Pieces.none Pieces.none
  | catchesUnhandled hr =>
    exact hstep _ _ (.catchesUnhandled hr) .catchesUnhandled Pieces.none Pieces.none
  | catchUnentered hr hin hl ih =>
    exact hstep _ _ (.catchUnentered hr hin hl) (.catchUnentered hin)
      (Pieces.one hl) (Pieces.one ih)
  | «catch» hr hin hc hl₁ hl₂ ih₁ ih₂ =>
    exact hstep _ _ (.catch hr hin hc hl₁ hl₂) (.catch hin)
      (Pieces.three hc hl₁ hl₂) (Pieces.three (hconstruct hc) ih₁ ih₂)
  | nested hr hp hl ih =>
    exact hstep _ _ (.nested hr hp hl) (.nested hp)
      (Pieces.one hl) (Pieces.one ih)
  | blockEnd hr => exact hstep _ _ (.blockEnd hr) .blockEnd Pieces.none Pieces.none
  | blockNext hr hl₁ hl₂ ih₁ ih₂ =>
    exact hstep _ _ (.blockNext hr hl₁ hl₂) .blockNext
      (Pieces.two hl₁ hl₂) (Pieces.two ih₁ ih₂)

/-! ## One run after the other -/

/-- A state comes before another one. -/
structure Precedes (s t : Lowering) : Prop where
  nextId : s.nextId ≤ t.nextId
  nodes : s.graph.nodes <+: t.graph.nodes
  unreachable : s.graph.unreachable ⊆ t.graph.unreachable

theorem Precedes.refl (s : Lowering) : Precedes s s :=
  ⟨Nat.le_refl _, List.prefix_rfl, List.Subset.refl _⟩

theorem Precedes.trans {u : Lowering} (h₁ : Precedes s t) (h₂ : Precedes t u) : Precedes s u :=
  ⟨Nat.le_trans h₁.1 h₂.1, h₁.2.trans h₂.2, List.Subset.trans h₁.3 h₂.3⟩

/-- States with the same nodes and the same report. -/
theorem Precedes.of_eq (hid : s.nextId = t.nextId) (hnodes : s.graph.nodes = t.graph.nodes)
    (hun : s.graph.unreachable = t.graph.unreachable) : Precedes s t :=
  ⟨Nat.le_of_eq hid, hnodes ▸ List.prefix_rfl, hun ▸ List.Subset.refl _⟩

/-- Sending ways out leaves nodes and report. -/
theorem Precedes.sentAll (s : Lowering) (ps : List Pending) (escapes : List (Pending × Escape)) :
    Precedes s ((s.withPending ps).sentAll h escapes) := by
  apply Precedes.of_eq
  · rw [sentAll_nextId, withPending_nextId]
  · rw [sentAll_graph, withPending_graph]
  · rw [sentAll_graph, withPending_graph]

/-- Leading arcs back to the head of a loop leaves nodes and report. -/
theorem Precedes.closed (s : Lowering) (head : NodeId) (tails : List Pending) :
    Precedes s (s.closed head tails) :=
  .of_eq rfl (closed_nodes s head tails).symm (closed_unreachable s head tails).symm

/-- An element is added to the report. -/
theorem Precedes.skipped (s : Lowering) (element : ElementId) : Precedes s (s.skipped element) :=
  ⟨Nat.le_refl _, List.prefix_rfl, List.subset_append_left _ _⟩

/-- What there is before a construct is there behind it. -/
theorem Constructs.precedes {point : Point} {effects : Effects} {head id : NodeId}
    (hc : Constructs h s point effects head id t) : Precedes s t := by
  refine ⟨hc.nextId_le, hc.nodes.1, ?_⟩
  obtain ⟨es, he, -⟩ := hc
  rw [he.unreachable_eq]
  exact List.Subset.refl _

/-- The runs that another one consists of follow each other, with related states in between. -/
def Linked (R : Lowering → Lowering → Prop) (s : Lowering) : List (Run × Guards) → Lowering → Prop
  | [], s' => R s s'
  | piece :: rest, s' => R s piece.1.first ∧ Linked R piece.1.last rest s'

section Linked

variable {R : Lowering → Lowering → Prop} (htrans : ∀ {s t u}, R s t → R t u → R s u)
include htrans

/-- Runs in a row lead from their first state to their last one. -/
theorem Linked.ends (hl : Linked R s pieces s') (hd : ∀ piece ∈ pieces, R piece.1.first piece.1.last) :
    R s s' := by
  induction pieces generalizing s with
  | nil => exact hl
  | cons piece rest ih =>
    rw [List.forall_mem_cons] at hd
    exact htrans (htrans hl.1 hd.1) (ih hl.2 hd.2)

/-- Each of some runs in a row starts behind the first state and ends before the last one. -/
theorem Linked.mem (hl : Linked R s pieces s') (hd : ∀ piece ∈ pieces, R piece.1.first piece.1.last) :
    ∀ piece ∈ pieces, R s piece.1.first ∧ R piece.1.last s' := by
  induction pieces generalizing s with
  | nil => exact List.forall_mem_nil _
  | cons piece rest ih =>
    rw [List.forall_mem_cons] at hd ⊢
    refine ⟨⟨hl.1, hl.2.ends htrans hd.2⟩, fun next hnext => ?_⟩
    have hrest := ih hl.2 hd.2 next hnext
    exact ⟨htrans (htrans hl.1 hd.1) hrest.1, hrest.2⟩

end Linked

/-- The runs that a run consists of follow each other from its first state to its last one. -/
theorem Consists.linked (hr : r.Derived h) (hc : Consists h r pieces) :
    Linked Precedes r.first pieces r.last := by
  cases hc with
  | construct => exact Constructs.precedes hr
  | skip _ => exact .skipped _ _
  | jump _ _ hc =>
    have ht := hc.precedes
    exact ⟨ht.1, ht.2, ht.3⟩
  | updateUnentered | casesEnd | catchesEnd | catchesUnhandled | blockEnd => exact .of_eq rfl rfl rfl
  | simple | loopUnentered | update | nested => exact ⟨.of_eq rfl rfl rfl, .of_eq rfl rfl rfl⟩
  | @footless source _ _ _ t _ _ =>
    have ht := Precedes.skipped t source.id
    exact ⟨.of_eq rfl rfl rfl, ht.1, ht.2, ht.3⟩
  | catchUnentered => exact ⟨.skipped _ _, .of_eq rfl rfl rfl⟩
  | @rounds _ head _ _ _ _ t u =>
    have hu := Precedes.closed (u.withPending []) head u.pending
    exact ⟨.of_eq rfl rfl rfl, .of_eq rfl rfl rfl, hu.1, hu.2, hu.3⟩
  | @footed _ _ _ s t u head id _ _ =>
    have hu := Precedes.closed u
      (if s.graph.size < t.graph.size then u.graph.idAt s.graph.size else head)
      [.plain id .loopBack]
    exact ⟨.of_eq rfl rfl rfl, .of_eq rfl rfl rfl, hu.1, hu.2, hu.3⟩
  | select | tryPlain | blockNext => exact ⟨.of_eq rfl rfl rfl, .of_eq rfl rfl rfl, .of_eq rfl rfl rfl⟩
  | branch | tested | case | «catch» =>
    exact ⟨.of_eq rfl rfl rfl, .of_eq rfl rfl rfl, .of_eq rfl rfl rfl, .of_eq rfl rfl rfl⟩
  | endless =>
    refine ⟨.of_eq rfl rfl rfl, .of_eq rfl rfl rfl, .of_eq rfl rfl rfl, ?_⟩
    split <;> exact .of_eq rfl rfl rfl
  | tryNodeless | tryFinally =>
    exact ⟨.of_eq rfl rfl rfl, .of_eq rfl rfl rfl, .of_eq rfl rfl rfl, .sentAll _ _ _⟩

/-- The first state of a run comes before its last one. -/
theorem Run.Derived.precedes (hr : r.Derived h) : Precedes r.first r.last := by
  obtain ⟨task, first, last⟩ := r
  cases task with
  | construct point effects head id => exact Constructs.precedes hr
  | part part =>
    exact Lowered.along (P := fun r => Precedes r.first r.last)
      (fun r pieces hr hc _ hd => (hc.linked hr).ends .trans hd) hr

/-- A run that another one consists of starts and ends in between. -/
theorem Inside.precedes (hr : r.Derived h) (hq : Inside h r gs q) :
    Precedes r.first q.first ∧ Precedes q.last r.last := by
  obtain ⟨pieces, hc, hd, hmem⟩ := hq
  exact (hc.linked hr).mem .trans (fun piece hpiece => (hd piece hpiece).precedes) _ hmem

/-- A run in the course of another one starts and ends in between. -/
theorem Within.precedes (hr : r.Derived h) (hq : Within h r gs q) :
    Precedes r.first q.first ∧ Precedes q.last r.last := by
  induction hq with
  | self => exact ⟨.refl _, .refl _⟩
  | inside hq hin ih =>
    obtain ⟨hfirst, hlast⟩ := hin.precedes (hq.derived hr)
    exact ⟨ih.1.trans hfirst, hlast.trans ih.2⟩

/-! ## Constructs that are reached -/

/-- If a run is of a construct, then what it starts from is there, and it is not empty. -/
def Run.Reached (r : Run) : Prop :=
  ∀ point effects head id, r.task = .construct point effects head id →
    Ready (.block []) r.first ∧ r.first.pending ≠ []

theorem Part.reached (part : Part) (s t : Lowering) : (part.run s t).Reached := nofun

/-- Where a run consists of a construct, that one is reached. -/
theorem Consists.reached (hc : Consists h r pieces) (hr : r.Derived h)
    (hd : ∀ piece ∈ pieces, piece.1.Derived h) : ∀ piece ∈ pieces, piece.1.Reached := by
  cases hc with
  | construct | skip | updateUnentered | casesEnd | jump | catchesEnd | catchesUnhandled | blockEnd =>
    exact List.forall_mem_nil _
  | simple hne =>
    exact Pieces.one fun _ _ _ _ _ => ⟨(Lowered.ready hr).toBlock, hne⟩
  | branch hne =>
    exact Pieces.three (fun _ _ _ _ _ => ⟨(Lowered.ready hr).toBlock, hne⟩) (Part.reached _ _ _)
      (Part.reached _ _ _)
  | select hne =>
    exact Pieces.two (fun _ _ _ _ _ => ⟨(Lowered.ready hr).toBlock, hne⟩) (Part.reached _ _ _)
  | tested _ _ _ hne | endless _ _ _ hne =>
    simp only [List.forall_mem_cons] at hd
    have hinit : Lowered h _ _ _ := hd.1
    exact Pieces.three (Part.reached _ _ _) (fun _ _ _ _ _ => ⟨⟨hinit.grown.ext.sound,
      hinit.grown.outputs_mem hinit.ready, fun _ hf => hf.elim⟩, hne⟩) (Part.reached _ _ _)
  | footed _ hne =>
    simp only [List.forall_mem_cons] at hd
    have hbody : Lowered h _ _ _ := hd.1
    exact Pieces.two (Part.reached _ _ _) fun _ _ _ _ _ =>
      ⟨continue_ready _ (Lowered.ready hr).inputs hbody.grown [], hne⟩
  | case =>
    have hready := Lowered.ready hr
    exact Pieces.three (fun _ _ _ _ _ => ⟨⟨hready.sound.withPending _, fun p hp =>
      hready.from_mem (caseFrontier_from hp), fun _ hf => hf.elim⟩, by simp [caseFrontier]⟩)
      (Part.reached _ _ _) (Part.reached _ _ _)
  | «catch» hne =>
    have hready := Lowered.ready hr
    exact Pieces.three (fun _ _ _ _ _ => ⟨⟨hready.sound.withPending _, fun p hp =>
      hready.inputs p (List.mem_append_left _ hp), fun _ hf => hf.elim⟩, hne⟩)
      (Part.reached _ _ _) (Part.reached _ _ _)
  | loopUnentered | update | catchUnentered | footless | nested =>
    exact Pieces.one (Part.reached _ _ _)
  | rounds | tryPlain | blockNext => exact Pieces.two (Part.reached _ _ _) (Part.reached _ _ _)
  | tryNodeless | tryFinally =>
    exact Pieces.three (Part.reached _ _ _) (Part.reached _ _ _) (Part.reached _ _ _)

/-- A construct that a run consists of is reached. -/
theorem Inside.reached (hr : r.Derived h) (hq : Inside h r gs q) : q.Reached :=
  let ⟨_, hc, hd, hmem⟩ := hq
  hc.reached hr hd _ hmem

end Lowering

end Slicing
