import Slicing.Proofs.Flow.Surroundings

/-!
# A place for a statement

A `Spot` is a place in a block, at any depth, where a statement may stand (`Spot.fill`): between
other statements, and in parts of statements around it (`Enclosing`).

Lowering a block with a spot either does not come to the spot at all, whatever stands there, or it
lowers the statement in some state and then goes on (`Comes`, `lowerBlock_comes`). How it goes on
does not depend on the statement, nor on what has been found unreachable before. So what is known
of a statement wherever it may be lowered carries over to all blocks that it stands in.
-/

namespace Slicing

/-- A statement around a block, without the block. -/
inductive Enclosing where
  | thenBranch (source : Element) (cond : Effects) (elseBranch : List Stmt)
  | elseBranch (source : Element) (cond : Effects) (thenBranch : List Stmt)
  | whileLoop (source : Element) (cond : Effects)
  | doWhile (source : Element) (cond : Effects)
  | forInit (source : Element) (cond : Option Effects) (update body : List Stmt)
  | forUpdate (source : Element) (init : List Stmt) (cond : Option Effects) (body : List Stmt)
  | forBody (source : Element) (init : List Stmt) (cond : Option Effects) (update : List Stmt)
  | forEach (source : Element) (var : String) (iterable : Effects)
  | case (source : Element) (selector : Effects) (before : List (SwitchCase Stmt)) (id : ElementId)
      (label : Option String) (after : List (SwitchCase Stmt))
  | tryBody (source : Element) (catches : List (CatchClause Stmt)) (finalizer : Option (List Stmt))
  | clause (source : Element) (body : List Stmt) (before : List (CatchClause Stmt)) (id : ElementId)
      (exceptionType : Option String) (var : String) (after : List (CatchClause Stmt))
      (finalizer : Option (List Stmt))
  | finalizer (source : Element) (body : List Stmt) (catches : List (CatchClause Stmt))
  | block (source : Element)

/-- The statement around a block. -/
def Enclosing.fill (stmts : List Stmt) : Enclosing → Stmt
  | .thenBranch source cond other => .branch source cond stmts other
  | .elseBranch source cond other => .branch source cond other stmts
  | .whileLoop source cond => .whileLoop source cond stmts
  | .doWhile source cond => .doWhile source stmts cond
  | .forInit source cond update body => .forLoop source stmts cond update body
  | .forUpdate source init cond body => .forLoop source init cond stmts body
  | .forBody source init cond update => .forLoop source init cond update stmts
  | .forEach source var iterable => .forEach source var iterable stmts
  | .case source selector before id label after =>
    .select source selector (before ++ ⟨id, label, stmts⟩ :: after)
  | .tryBody source catches last => .tryBlock source stmts catches last
  | .clause source body before id exceptionType var after last =>
    .tryBlock source body (before ++ ⟨id, exceptionType, var, stmts⟩ :: after) last
  | .finalizer source body catches => .tryBlock source body catches (some stmts)
  | .block source => .block source stmts

/-- A place for a statement in a block. -/
inductive Spot where
  | here (before after : List Stmt)
  | within (before : List Stmt) (enclosing : Enclosing) (inner : Spot) (after : List Stmt)

/-- The block with a statement in its place. -/
def Spot.fill (stmt : Stmt) : Spot → List Stmt
  | .here before after => before ++ stmt :: after
  | .within before enclosing inner after => before ++ enclosing.fill (inner.fill stmt) :: after

namespace Lowering

variable {h : Hierarchy} {X Y α β : Type} {s : Lowering}

/-- A run with a place for something that is lowered in one state, if at all. Behind it, the run
    goes on in one way, blind to what has been found unreachable before. -/
inductive Comes (h : Hierarchy) (lower : X → Lower Unit)
    (run : X → EStateM.Result Error Lowering α) : Prop
  | never (r : EStateM.Result Error Lowering α) : (∀ x, run x = r) → Comes h lower run
  | once (t : Lowering) (rest : Lower α) : Ready (.block []) t → Blind (.same h) (.same h) rest →
      (∀ x, run x = (lower x >>= fun _ => rest) t) → Comes h lower run

/-- Where one block may be lowered, any other may. -/
theorem Ready.ofBlock {stmts stmts' : List Stmt} (hr : Ready (.block stmts) s) :
    Ready (.block stmts') s :=
  ⟨hr.sound, hr.inputs, fun _ hf => hf.elim⟩

/-- Where some catch clauses may be lowered, any others may. -/
theorem Ready.ofCatches {handlers : List Handler} {clauses clauses' : List (CatchClause Stmt)}
    {after after' : List Pending} (hr : Ready (.catches handlers clauses after) s) :
    Ready (.catches handlers clauses' after') s :=
  ⟨hr.sound, hr.inputs, fun _ hf => hf.elim⟩

namespace Comes

variable {lower : X → Lower Unit}

/-- The place is at the front. -/
theorem here {rest : Lower α} (hr : Ready (.block []) s) (hrest : Blind (.same h) (.same h) rest) :
    Comes h lower fun x => (lower x >>= fun _ => rest) s :=
  .once s rest hr hrest fun _ => rfl

theorem self (hr : Ready (.block []) s) : Comes h lower fun x => lower x s :=
  .once s (pure ()) hr (.pure ()) fun x => by rw [bind_pure_unit]

/-- The place is behind a step. -/
theorem after {m : Lower β} {next : X → β → Lower α}
    (hnext : ∀ v t, m s = .ok v t → Comes h lower fun x => next x v t) :
    Comes h lower fun x => (m >>= next x) s := by
  cases hm : m s with
  | ok v t =>
    simp only [bind_apply, hm]
    exact hnext v t hm
  | error e t => exact .never (.error e t) fun x => by rw [bind_apply, hm]

theorem get {next : X → Lowering → Lower α} (hnext : Comes h lower fun x => next x s s) :
    Comes h lower fun x => ((get : Lower Lowering) >>= next x) s := hnext

/-- The place is in the first of two steps. -/
theorem bind {m : X → Lower β} {rest : β → Lower α} (hm : Comes h lower fun x => m x s)
    (hrest : ∀ v, Blind (.same h) (.same h) (rest v)) : Comes h lower fun x => (m x >>= rest) s := by
  cases hm with
  | never r hr =>
    cases r with
    | ok v t => exact .never (rest v t) fun x => by rw [bind_apply, hr]
    | error e t => exact .never (.error e t) fun x => by rw [bind_apply, hr]
  | once t rest' hready hrest' hr =>
    refine .once t (rest' >>= rest) hready (.bind hrest' hrest) fun x => ?_
    rw [← bind_assoc, bind_apply, hr, bind_apply (lower x >>= fun _ => rest')]

/-- The place is in a step that is only taken under a condition. -/
theorem ite {p : Prop} [Decidable p] {m : X → Lower α} {m' : Lower α}
    (hm : p → Comes h lower fun x => m x s) :
    Comes h lower fun x => (if p then m x else m') s := by
  by_cases hp : p
  · simp only [if_pos hp]
    exact hm hp
  · exact .never (m' s) fun x => by rw [if_neg hp]

/-- What is lowered in the place has itself a place in it. -/
theorem trans {lower' : Y → Lower Unit} {fill : Y → X} {run : X → EStateM.Result Error Lowering α}
    (hrun : Comes h lower run)
    (hfill : ∀ t, Ready (.block []) t → Comes h lower' fun y => lower (fill y) t) :
    Comes h lower' fun y => run (fill y) := by
  cases hrun with
  | never r hr => exact .never r fun y => hr (fill y)
  | once t rest hready hrest hr =>
    simp only [hr]
    exact (hfill t hready).bind fun _ => hrest

end Comes

/-! ## Loops -/

/-- The rounds of a loop come to its body. -/
theorem lowerLoop_comes_body {node head : NodeId} {enter : FlowKind} {update : List Stmt}
    (hs : s.Sound) (hnode : node ∈ s.graph.ids) : Comes h (lowerBlock h) fun stmts =>
      lowerLoop node head enter (lowerBlock h stmts) (lowerBlock h update) s := by
  refine .after fun _ _ ht => .after fun _ _ hu => ?_
  obtain rfl := setPending_eq_ok.1 ht
  obtain rfl := pushScope_eq_ok.1 hu
  have hnode : ∀ p ∈ [Pending.plain node enter], p.source ∈ s.graph.ids := fun p hp => by
    rw [List.mem_singleton.1 hp]
    exact hnode
  exact .here (loop_ready [.plain node enter] hs hnode) (.bind popScope_blind fun scope => endRounds_blind head scope (lowerBlock_blind _ _))

/-- The rounds of a loop come to its update, or never do. -/
theorem lowerLoop_comes_update {node head : NodeId} {enter : FlowKind} {body : List Stmt}
    (hs : s.Sound) (hnode : node ∈ s.graph.ids) : Comes h (lowerBlock h) fun stmts =>
      lowerLoop node head enter (lowerBlock h body) (lowerBlock h stmts) s := by
  have hnode : ∀ p ∈ [Pending.plain node enter], p.source ∈ s.graph.ids := fun p hp => by
    rw [List.mem_singleton.1 hp]
    exact hnode
  refine .after fun _ _ ht => .after fun _ _ hu => .after fun _ v hbody => .after fun scope _ hpop =>
    .after fun _ _ hadd => .get <| .ite fun _ => ?_
  obtain rfl := setPending_eq_ok.1 ht
  obtain rfl := pushScope_eq_ok.1 hu
  obtain ⟨rfl, rfl⟩ := popScope_eq_ok.1 hpop
  obtain rfl := addPending_eq_ok.1 hadd
  have hl := lowered_block h body hbody (loop_ready _ hs hnode)
  exact .here (continue_ready _ hnode hl.grown []) (closeRounds_blind head _)

/-- A loop with its test in front, whose rounds have a place in them. -/
theorem lowerHeadedLoop_comes {header : Node} {cond : Effects} {body update : List Stmt → Lower Unit}
    (hr : Ready (.block []) s) (hp : s.pending ≠ []) (hheader : header.id = ⟨s.nextId⟩)
    (hcallable : header.callable = s.graph.callable)
    (hloop : ∀ {t : Lowering} {node head : NodeId}, t.Sound → node ∈ t.graph.ids →
      Comes h (lowerBlock h) fun stmts => lowerLoop node head .trueBranch (body stmts) (update stmts) t) :
    Comes h (lowerBlock h) fun stmts =>
      lowerHeadedLoop h header cond (body stmts) (update stmts) s.numbered := by
  refine .after fun _ t hplace => ?_
  have hc := placeWith_constructs hr.sound.below hheader hcallable hplace
  have hext := hc.extends hr.sound hp hr.inputs
  exact .bind (hloop hext.sound hc.made.2.mem) fun _ => .addPending _

/-! ## Statements -/

/-- A statement that nothing leads to is recorded and left out. -/
theorem lowerStmt_unreached {stmt : Stmt} (hp : s.pending = []) :
    lowerStmt h stmt s = .ok () (s.skipped stmt.source.id) := by
  have hempty : s.pending.isEmpty = true := by rw [hp]; rfl
  rw [lowerStmt.eq_def, bind_apply]
  exact congrFun (if_pos hempty) s

/-- The place is in a statement that something leads to. -/
theorem Comes.reached {lower : X → Lower Unit} {element : X → ElementId} {m : X → Lower Unit}
    (hp : s.pending ≠ []) (hm : Comes h lower fun x => m x s) : Comes h lower fun x =>
      ((MonadState.get : Lower Lowering) >>= fun s : Lowering =>
        if s.pending.isEmpty then skip (element x) else m x) s := by
  have hnonempty : ¬s.pending.isEmpty = true := by simpa using hp
  refine .get ?_
  simp only [if_neg hnonempty]
  exact hm

/-- An `if` comes to its first branch. -/
theorem lowerThen_comes {source : Element} {cond : Effects} {other : List Stmt}
    (hr : Ready (.block []) s) (hp : s.pending ≠ []) : Comes h (lowerBlock h) fun stmts =>
      lowerStmt h ((Enclosing.thenBranch source cond other).fill stmts) s := by
  simp only [Enclosing.fill, lowerStmt]
  refine .reached hp <| .after fun _ _ hnode => .after fun node t hplace =>
    .after fun _ _ hset => ?_
  obtain ⟨rfl, rfl⟩ := newStmtNode_eq_ok.1 hnode
  obtain rfl := setPending_eq_ok.1 hset
  have hc := placeWith_constructs hr.sound.below rfl rfl hplace
  have hext := (hc.extends hr.sound hp hr.inputs).withPending [.plain node.2 .trueBranch]
  exact .here (block_ready hext (made_plain hc.made.2)) <|
    .bind .takePending fun _ => .bind (.setPending _) fun _ =>
    .bind (lowerBlock_blind _ other) fun _ => .addPending _

/-- An `if` comes to its second branch. -/
theorem lowerElse_comes {source : Element} {cond : Effects} {other : List Stmt}
    (hr : Ready (.block []) s) (hp : s.pending ≠ []) : Comes h (lowerBlock h) fun stmts =>
      lowerStmt h ((Enclosing.elseBranch source cond other).fill stmts) s := by
  simp only [Enclosing.fill, lowerStmt]
  refine .reached hp <| .after fun _ _ hnode => .after fun node t hplace =>
    .after fun _ _ hset => .after fun _ u hthen => .after fun _ _ htake => .after fun _ _ hset' => ?_
  obtain ⟨rfl, rfl⟩ := newStmtNode_eq_ok.1 hnode
  obtain rfl := setPending_eq_ok.1 hset
  obtain ⟨rfl, rfl⟩ := takePending_eq_ok.1 htake
  obtain rfl := setPending_eq_ok.1 hset'
  have hc := placeWith_constructs hr.sound.below rfl rfl hplace
  have hext := (hc.extends hr.sound hp hr.inputs).withPending [.plain node.2 .trueBranch]
  have hl := lowered_block h other hthen (block_ready hext (made_plain hc.made.2))
  have hext' := (block_made hext (made_plain hc.made.2) hl.grown).1.withPending [.plain node.2 .falseBranch]
  exact .here (block_ready hext' (made_plain (hl.grown.ext.made_of_right hc.made.2))) (.addPending _)

/-- A counting loop, whose rounds have a place in them. -/
theorem lowerFor_comes {source : Element} {init : List Stmt} {cond : Option Effects}
    {body update : List Stmt → List Stmt} (hr : Ready (.block []) s) (hp : s.pending ≠ [])
    (hloop : ∀ {t : Lowering} {node head : NodeId} {enter : FlowKind}, t.Sound → node ∈ t.graph.ids →
      Comes h (lowerBlock h) fun stmts =>
        lowerLoop node head enter (lowerBlock h (body stmts)) (lowerBlock h (update stmts)) t) :
    Comes h (lowerBlock h) fun stmts =>
      lowerStmt h (.forLoop source init cond (update stmts) (body stmts)) s := by
  simp only [lowerStmt]
  refine .reached hp <| .after fun _ t hinit => .get <| .ite fun ht => ?_
  have ht : t.pending ≠ [] := by simpa using ht
  have hl := lowered_block h init hinit hr.ofBlock
  have hready : Ready (.block []) t :=
    ⟨hl.grown.ext.sound, hl.grown.outputs_mem hl.ready, fun _ hf => hf.elim⟩
  cases cond with
  | some cond =>
    refine .after fun _ _ hnode => ?_
    obtain ⟨rfl, rfl⟩ := newStmtNode_eq_ok.1 hnode
    exact lowerHeadedLoop_comes hready ht rfl rfl hloop
  | none =>
    refine .after fun _ _ hnode => .after fun _ _ hplace => ?_
    obtain ⟨rfl, rfl⟩ := newStmtNode_eq_ok.1 hnode
    obtain ⟨rfl, rfl⟩ := place_eq_ok.1 hplace
    have hc := place_constructs h (t.stmtNode .predicate source) hready.sound.below rfl rfl
    have hext := hc.extends hready.sound ht hready.inputs
    exact .bind (hloop hext.sound hc.made.2.mem) fun _ => .ite (.modify fun _ _ _ => rfl) (.pure _)

/-- Cases come to the body of each of them. -/
theorem lowerCases_comes {source : Element} {selector : NodeId} {fallthrough : List Pending}
    {before after : List (SwitchCase Stmt)} {id : ElementId} {label : Option String}
    (hr : ∀ stmts, Ready (.cases source selector fallthrough (before ++ ⟨id, label, stmts⟩ :: after)) s) :
    Comes h (lowerBlock h) fun stmts =>
      lowerCases h source selector fallthrough (before ++ ⟨id, label, stmts⟩ :: after) s := by
  induction before generalizing s fallthrough with
  | nil =>
    simp only [List.nil_append, lowerCases]
    refine .after fun _ _ hset => .after fun _ _ hnode => .after fun _ _ hplace => ?_
    obtain rfl := setPending_eq_ok.1 hset
    obtain ⟨rfl, rfl⟩ := newNode_eq_ok.1 hnode
    obtain ⟨rfl, rfl⟩ := place_eq_ok.1 hplace
    have hc := place_constructs h (s := s.withPending (caseFrontier selector fallthrough label))
      { s.freshNode .caseLabel (caseText label) with
        element := some id, span := source.span } (hr []).sound.below rfl rfl
    have hext := case_extends (c := ⟨id, label, []⟩) (hr []) hc
    exact .here (block_ready hext hc.made_pending) <| .bind .takePending fun _ =>
      lowerCases_blind _ source selector _ after
  | cons c before ih =>
    obtain ⟨id', label', body⟩ := c
    simp only [List.cons_append, lowerCases]
    refine .after fun _ _ hset => .after fun _ _ hnode => .after fun _ _ hplace =>
      .after fun _ u hbody => .after fun _ _ htake => ?_
    obtain rfl := setPending_eq_ok.1 hset
    obtain ⟨rfl, rfl⟩ := newNode_eq_ok.1 hnode
    obtain ⟨rfl, rfl⟩ := place_eq_ok.1 hplace
    obtain ⟨rfl, rfl⟩ := takePending_eq_ok.1 htake
    have hc := place_constructs h (s := s.withPending (caseFrontier selector fallthrough label'))
      { s.freshNode .caseLabel (caseText label') with
        element := some id', span := source.span } (hr []).sound.below rfl rfl
    have hext := case_extends (c := ⟨id', label', body⟩) (hr []) hc
    have hl := lowered_block h body hbody (block_ready hext hc.made_pending)
    obtain ⟨hext', hout⟩ := block_made hext hc.made_pending hl.grown
    exact ih fun stmts => case_ready (hr stmts) hext' hout

/-- The node of a catch clause is placed. -/
theorem clause_placed {handler : Handler} {handlers : List Handler} {clauses : List (CatchClause Stmt)}
    (hr : Ready (.catches (handler :: handlers) clauses []) s) (hne : handler.incoming ≠ [])
    (clause : CatchClause Stmt) {node : Node}
    (hnode : node = { s.freshNode .catchClause (catchText clause.exceptionType clause.var) with
      element := some clause.id, defs := [clause.var] }) :
    Extends (From ((handler :: handlers).flatMap (·.incoming))) Nowhere s
        ((s.withPending handler.incoming).numbered.placed node) ∧
      ∀ p ∈ ((s.withPending handler.incoming).numbered.placed node).pending,
        Made s ((s.withPending handler.incoming).numbered.placed node) p.source := by
  subst hnode
  have hc := place_constructs ⟨[], []⟩ (s := s.withPending handler.incoming)
    { s.freshNode .catchClause (catchText clause.exceptionType clause.var) with
      element := some clause.id, defs := [clause.var] } hr.sound.below rfl rfl
  have hready : Ready (.catches (handler :: handlers) (clause :: clauses) []) s := hr.ofCatches
  exact ⟨catch_extends hready hne hc, hc.made_pending⟩

/-- Catch clauses come to the body of each of them, if something leads there. -/
theorem lowerCatches_comes {handlers : List Handler} {before after clauses : List (CatchClause Stmt)}
    {id : ElementId} {exceptionType : Option String} {var : String}
    (hr : Ready (.catches handlers clauses []) s) : Comes h (lowerBlock h) fun stmts =>
      lowerCatches h handlers (before ++ ⟨id, exceptionType, var, stmts⟩ :: after) s := by
  induction before generalizing s handlers with
  | nil =>
    cases handlers with
    | nil => exact .never (.ok [] s) fun _ => rfl
    | cons handler handlers =>
      simp only [List.nil_append, lowerCatches]
      by_cases hin : handler.incoming.isEmpty = true
      · -- nothing is caught by the clause, and its body is left out
        simp only [if_pos hin]
        exact .never _ fun _ => rfl
      · simp only [if_neg hin]
        refine .after fun _ _ hset => .after fun _ _ hnode => .after fun _ _ hplace => ?_
        obtain rfl := setPending_eq_ok.1 hset
        obtain ⟨rfl, rfl⟩ := newNode_eq_ok.1 hnode
        obtain ⟨rfl, rfl⟩ := place_eq_ok.1 hplace
        obtain ⟨hext, hmade⟩ := clause_placed hr (by simpa using hin) ⟨id, exceptionType, var, []⟩ rfl
        exact .here (block_ready hext hmade) <| .bind .takePending fun _ =>
          .bind (lowerCatches_blind _ handlers after) fun _ => .pure _
  | cons clause before ih =>
    cases handlers with
    | nil => exact .never (.ok [] s) fun _ => rfl
    | cons handler handlers =>
      obtain ⟨id', exceptionType', var', body⟩ := clause
      simp only [List.cons_append, lowerCatches]
      by_cases hin : handler.incoming.isEmpty = true
      · simp only [if_pos hin]
        refine .after fun _ _ hskip => ?_
        obtain rfl := skip_eq_ok.1 hskip
        exact ih (unentered_ready hr id')
      · simp only [if_neg hin]
        refine .after fun _ _ hset => .after fun _ _ hnode => .after fun _ _ hplace =>
          .after fun _ u hbody => .after fun _ _ htake => ?_
        obtain rfl := setPending_eq_ok.1 hset
        obtain ⟨rfl, rfl⟩ := newNode_eq_ok.1 hnode
        obtain ⟨rfl, rfl⟩ := place_eq_ok.1 hplace
        obtain ⟨rfl, rfl⟩ := takePending_eq_ok.1 htake
        obtain ⟨hext, hmade⟩ := clause_placed hr (by simpa using hin) ⟨id', exceptionType', var', body⟩ rfl
        have hl := lowered_block h body hbody (block_ready hext hmade)
        have hext' := (block_made hext hmade hl.grown).1
        exact .bind (ih (catch_ready hr hext')) fun _ => .pure _

/-- A `switch` comes to the body of a case. -/
theorem lowerSelect_comes {source : Element} {selector : Effects}
    {before after : List (SwitchCase Stmt)} {id : ElementId} {label : Option String}
    (hr : Ready (.block []) s) (hp : s.pending ≠ []) : Comes h (lowerBlock h) fun stmts =>
      lowerStmt h ((Enclosing.case source selector before id label after).fill stmts) s := by
  have hall (stmts : List Stmt) : (before ++ ⟨id, label, stmts⟩ :: after).all (·.label.isSome) =
      (before ++ ⟨id, label, []⟩ :: after).all (·.label.isSome) := by
    simp
  simp only [Enclosing.fill, lowerStmt, hall]
  refine .reached hp <| .after fun _ _ hnode => .after fun node t hplace =>
    .after fun _ _ hpush => ?_
  obtain ⟨rfl, rfl⟩ := newStmtNode_eq_ok.1 hnode
  obtain rfl := pushScope_eq_ok.1 hpush
  have hc := placeWith_constructs hr.sound.below rfl rfl hplace
  have hext := hc.extends hr.sound hp hr.inputs
  refine .bind (lowerCases_comes fun _ => cases_ready hext.sound hc.made.2) fun _ =>
    .bind popScope_blind fun _ => .bind (.addPending _) fun _ => .ite (.addPending _) (.pure _)

/-- A `try` comes to the body of a catch clause, or never does. -/
theorem lowerClause_comes {source : Element} {body : List Stmt}
    {before after : List (CatchClause Stmt)} {id : ElementId} {exceptionType : Option String}
    {var : String} {last : Option (List Stmt)} (hr : Ready (.block []) s) (hp : s.pending ≠ []) :
    Comes h (lowerBlock h) fun stmts =>
      lowerStmt h ((Enclosing.clause source body before id exceptionType var after last).fill stmts) s := by
  have hkinds (stmts : List Stmt) :
      (before ++ ⟨id, exceptionType, var, stmts⟩ :: after).map (fun clause => Handler.mk clause.exceptionType []) =
        (before ++ ⟨id, exceptionType, var, []⟩ :: after).map (fun clause => ⟨clause.exceptionType, []⟩) := by
    simp
  simp only [Enclosing.fill, lowerStmt, hkinds]
  refine .reached hp <| .after fun _ _ hpush => .after fun _ t hbody => .after fun _ _ htake =>
    .after fun _ _ hpop => .after fun _ _ hpush' => ?_
  obtain rfl := pushScope_eq_ok.1 hpush
  obtain ⟨rfl, rfl⟩ := takePending_eq_ok.1 htake
  obtain ⟨rfl, rfl⟩ := popScope_eq_ok.1 hpop
  obtain rfl := pushScope_eq_ok.1 hpush'
  have hl : Lowered h (.block body) (s.entered (tryScope (before ++ ⟨id, exceptionType, var, []⟩ :: after)
    last.isSome)) t := lowered_block h body hbody (try_ready hr.sound hr.inputs)
  have hready := catches_ready [] hl.grown
  exact .bind (lowerCatches_comes hready) fun _ =>
    .bind popScope_blind fun _ => endTry_blind last _ _ fun block _ => lowerBlock_blind _ block

/-- A `try` comes to its `finally` block, if something leads there. -/
theorem lowerFinalizer_comes {source : Element} {body : List Stmt}
    {catches : List (CatchClause Stmt)} (hr : Ready (.block []) s) (hp : s.pending ≠ []) :
    Comes h (lowerBlock h) fun stmts =>
      lowerStmt h ((Enclosing.finalizer source body catches).fill stmts) s := by
  simp only [Enclosing.fill, lowerStmt, Option.isSome_some]
  refine .reached hp <| .after fun _ _ hpush => .after fun _ t hbody => .after fun _ _ htake =>
    .after fun _ _ hpop => .after fun _ _ hpush' => .after fun after u hcatches =>
    .after fun _ _ hpop' => .get <| .after fun _ _ hset => ?_
  obtain rfl := pushScope_eq_ok.1 hpush
  obtain ⟨rfl, rfl⟩ := takePending_eq_ok.1 htake
  obtain ⟨rfl, rfl⟩ := popScope_eq_ok.1 hpop
  obtain rfl := pushScope_eq_ok.1 hpush'
  obtain ⟨rfl, rfl⟩ := popScope_eq_ok.1 hpop'
  obtain rfl := setPending_eq_ok.1 hset
  have hl : Lowered h (.block body) (s.entered (tryScope catches true)) t :=
    lowered_block h body hbody (try_ready hr.sound hr.inputs)
  have hready := catches_ready after hl.grown
  have hl' := lowered_catches h _ catches hcatches hready
  obtain ⟨hext, hescapes, hout⟩ := try_grown hl.grown hl'.grown
  exact .here (finalizer_ready [] hext hr.inputs (finalizer_inputs hescapes hout)) <|
    .get_bind (fun _ _ _ => rfl) fun _ => .ite (.bind (.setPending _) fun _ => routeAll_blind _)
    (.bind (.setPending _) fun _ => routeAll_blind _)

/-- Lowering a statement around a block lowers the block in one state, if at all. -/
theorem lowerStmt_comes (enclosing : Enclosing) (hr : Ready (.block []) s) :
    Comes h (lowerBlock h) fun stmts => lowerStmt h (enclosing.fill stmts) s := by
  by_cases hp : s.pending = []
  · have hsource (stmts : List Stmt) : (enclosing.fill stmts).source = (enclosing.fill []).source := by
      cases enclosing <;> rfl
    exact .never _ fun stmts => (lowerStmt_unreached hp).trans (by rw [hsource])
  -- what is lowered before the block does not depend on it, and what comes behind is blind to it
  cases enclosing with
  | thenBranch source cond other => exact lowerThen_comes hr hp
  | elseBranch source cond other => exact lowerElse_comes hr hp
  | whileLoop source cond =>
    simp only [Enclosing.fill, lowerStmt]
    refine .reached hp <| .after fun _ _ hnode => ?_
    obtain ⟨rfl, rfl⟩ := newStmtNode_eq_ok.1 hnode
    exact lowerHeadedLoop_comes hr hp rfl rfl fun hs hnode => @lowerLoop_comes_body h _ _ _ _ [] hs hnode
  | forEach source var iterable =>
    simp only [Enclosing.fill, lowerStmt]
    refine .reached hp <| .after fun _ _ hnode => ?_
    obtain ⟨rfl, rfl⟩ := newStmtNode_eq_ok.1 hnode
    exact lowerHeadedLoop_comes hr hp rfl rfl fun hs hnode => @lowerLoop_comes_body h _ _ _ _ [] hs hnode
  | doWhile source cond =>
    simp only [Enclosing.fill, lowerStmt]
    refine .reached hp <| .get <| .after fun _ _ hpush => ?_
    obtain rfl := pushScope_eq_ok.1 hpush
    exact .here (loop_ready s.pending hr.sound hr.inputs) <| .bind popScope_blind fun _ =>
      .get_bind (fun _ _ _ => rfl) fun _ => .bind (.addPending _) fun _ =>
      .get_bind (fun _ _ _ => rfl) fun _ => .ite (.bind (.skip _) fun _ => .setPending _) <|
      .bind (.newStmtNode _ _) fun _ => .bind (placeWith_blind _ _) fun _ =>
      .bind (.modifyGraph fun g ids => g.addArc_noting ids _ _ _) fun _ => .setPending _
  | forInit source cond update body =>
    simp only [Enclosing.fill, lowerStmt]
    exact .reached hp <| .here hr <| .get_bind (fun _ _ _ => rfl) fun _ => .ite
      (forRounds_blind source cond (lowerBlock_blind _ body) (lowerBlock_blind _ update)) (.pure _)
  | forUpdate source init cond body =>
    exact lowerFor_comes hr hp fun hs hnode => lowerLoop_comes_update hs hnode
  | forBody source init cond update =>
    exact lowerFor_comes hr hp fun hs hnode => lowerLoop_comes_body hs hnode
  | case source selector before id label after => exact lowerSelect_comes hr hp
  | tryBody source catches last =>
    simp only [Enclosing.fill, lowerStmt]
    refine .reached hp <| .after fun _ _ hpush => ?_
    obtain rfl := pushScope_eq_ok.1 hpush
    exact .here (try_ready hr.sound hr.inputs) <| .bind .takePending fun _ =>
      .bind popScope_blind fun scope => .bind (.pushScope _) fun _ =>
      .bind (lowerCatches_blind _ scope.handlers catches) fun _ => .bind .popScope fun _ =>
      endTry_blind last _ _ fun block _ => lowerBlock_blind _ block
  | clause source body before id exceptionType var after last => exact lowerClause_comes hr hp
  | finalizer source body catches => exact lowerFinalizer_comes hr hp
  | block source =>
    simp only [Enclosing.fill, lowerStmt]
    exact .reached hp (.self hr)

/-- Lowering a block with a place for a statement lowers the statement in one state, if at all. -/
theorem lowerBlock_comes (spot : Spot) (hr : Ready (.block []) s) :
    Comes h (lowerStmt h) fun stmt => lowerBlock h (spot.fill stmt) s := by
  -- the statements in front are the same whatever stands in the place
  have hbefore {X : Type} {lower : X → Lower Unit} (fill : X → Stmt) (before after : List Stmt)
      {s : Lowering} (hr : Ready (.block []) s)
      (hfill : ∀ t, Ready (.block []) t → Comes h lower fun x => lowerStmt h (fill x) t) :
      Comes h lower fun x => lowerBlock h (before ++ fill x :: after) s := by
    induction before generalizing s with
    | nil =>
      simp only [List.nil_append, lowerBlock]
      exact .bind (hfill s hr) fun _ => lowerBlock_blind _ after
    | cons stmt before ih =>
      simp only [List.cons_append, lowerBlock]
      refine .after fun _ t hstmt => ih ?_
      exact next_ready hr.toStmt (lowered_stmt h stmt hstmt hr.toStmt).grown
  induction spot generalizing s with
  | here before after => exact hbefore id before after hr fun t ht => .self ht
  | within before enclosing inner after ih =>
    exact hbefore (fun stmt => enclosing.fill (inner.fill stmt)) before after hr fun t ht =>
      (lowerStmt_comes enclosing ht).trans fun u hu => ih hu

/-- Lowering a callable with a place for a statement lowers the statement in one state, if at all. -/
theorem lowerCallable_comes (decl : CallableDecl) (spot : Spot) (n : Nat) :
    Comes h (lowerStmt h) fun stmt => lowerCallable h decl (spot.fill stmt) (start decl n) := by
  refine .after fun _ t hins => ?_
  obtain ⟨ins, t', hopen, rfl, -⟩ := placeFormalIns_eq_ok (h := h) (t := start decl n) [] []
    (start_sound decl n).below .done hins
  exact .bind (lowerBlock_comes spot (opening_ready hopen _ [])) fun _ => finish_blind decl

end Lowering

end Slicing
