import Slicing.Proofs.Flow.CallControl

/-!
# The numbers of nodes

The callables of a program are lowered one after another, and the nodes of each are numbered
from where the one before stopped. Numbers only go up, also where lowering fails
(`lowerBlock_counts`), and the nodes of a graph have numbers from the range of its callable
(`FlowGraph.build_numbers`). So the graphs of different callables share no node
(`FlowGraph.buildAll_disjoint`), and each node says which callable it is of
(`FlowGraph.callable_of_mem_nodes`).
-/

namespace Slicing

namespace Lowering

variable {h : Hierarchy} {s s' t u : Lowering} {α β : Type}

/-! ## Numbers go up -/

/-- The state behind a step, whether it succeeds or fails. -/
def behind (m : Lower α) (s : Lowering) : Lowering :=
  match m s with
  | .ok _ s' => s'
  | .error _ s' => s'

/-- A step gives no number away twice. -/
def Counts (m : Lower α) : Prop := ∀ s, s.nextId ≤ (behind m s).nextId

namespace Counts

/-- Steps in order give no number away twice. -/
theorem bind {m : Lower α} {f : α → Lower β} (hm : Counts m) (hf : ∀ a, Counts (f a)) :
    Counts (m >>= f) := by
  intro s
  have hstep := hm s
  unfold behind at hstep ⊢
  change _ ≤ Lowering.nextId (match EStateM.bind m f s with | .ok _ s' => s' | .error _ s' => s')
  unfold EStateM.bind
  cases hrun : m s with
  | ok a t =>
    rw [hrun] at hstep
    exact Nat.le_trans hstep (hf a t)
  | error e t =>
    rw [hrun] at hstep
    exact hstep

theorem pure (a : α) : Counts (pure a : Lower α) := fun _ => Nat.le_refl _

theorem ite {p : Prop} [Decidable p] {m m' : Lower α} (hm : Counts m) (hm' : Counts m') :
    Counts (if p then m else m') := by
  split
  exacts [hm, hm']

theorem get : Counts (get : Lower Lowering) := fun _ => Nat.le_refl _

theorem modifyGraph (f : FlowGraph → FlowGraph) : Counts (modifyGraph f) := fun _ => Nat.le_refl _

theorem setPending (ps : List Pending) : Counts (setPending ps) := fun _ => Nat.le_refl _

theorem addPending (ps : List Pending) : Counts (addPending ps) := fun _ => Nat.le_refl _

theorem takePending : Counts takePending := fun _ => Nat.le_refl _

theorem pushScope (scope : Scope) : Counts (pushScope scope) := fun _ => Nat.le_refl _

theorem popScope : Counts popScope := by
  intro s
  rw [behind, popScope_apply]
  exact Nat.le_refl _

/-- A new node gets the next number. -/
theorem newNode (kind : NodeKind) (text : String) : Counts (newNode kind text) :=
  fun _ => Nat.le_succ _

theorem newStmtNode (kind : NodeKind) (source : Element) : Counts (newStmtNode kind source) :=
  fun _ => Nat.le_succ _

/-- Placing a node gives no number away. -/
theorem place (node : Node) : Counts (place node) := fun _ => Nat.le_refl _

end Counts

theorem route_counts (p : Pending) (escape : Escape) : Counts (route h p escape) := by
  intro s
  rw [behind, route_apply]
  obtain ⟨scopes, taken⟩ := deliver h p escape s.scopes
  cases taken <;> cases escape <;> exact Nat.le_refl _

theorem routeAll_counts (escapes : List (Pending × Escape)) : Counts (routeAll h escapes) := by
  induction escapes with
  | nil => exact .pure _
  | cons e escapes ih => exact .bind (route_counts _ _) fun _ => ih

theorem raiseAll_counts (node : NodeId) (exceptionTypes : List String) :
    Counts (raiseAll h node exceptionTypes) :=
  routeAll_counts _

theorem jump_counts (node : NodeId) (escape : Escape) : Counts (jump h node escape) :=
  .bind (.setPending []) fun _ => route_counts _ _

theorem placeActualOut_counts (site : CallSite) (slot : OutputSlot) (var : String) :
    Counts (placeActualOut site slot var) :=
  .bind (.newNode _ _) fun _ => .bind (.place _) fun _ => .pure _

/-- The arguments that are written back get new numbers. -/
theorem placeWrittenArgs_counts (site : CallSite) (passing : List Passing)
    (args : List (Argument CallSite)) (position : Nat) :
    Counts (placeWrittenArgs site passing position args) := by
  induction args generalizing position with
  | nil => exact .pure _
  | cons arg args ih =>
    unfold placeWrittenArgs
    split
    · exact .bind (placeActualOut_counts _ _ _) fun _ => .bind (ih _) fun _ => .pure _
    · exact ih _

theorem placeCall_counts (site : CallSite) (actualIns : List NodeId) :
    Counts (placeCall h site actualIns) := by
  refine .bind (.newNode _ _) fun _ => .bind (.place _) fun _ => .bind (raiseAll_counts _ _) fun _ =>
    .bind ?_ fun _ => .bind (placeWrittenArgs_counts _ _ _ _) fun _ => .modifyGraph _
  exact .ite (.bind (placeActualOut_counts _ _ _) fun _ => .pure _) (.pure _)

mutual

/-- The nodes of a call get new numbers. -/
theorem lowerCall_counts (h : Hierarchy) (site : CallSite) : Counts (lowerCall h site) := by
  match site with
  | ⟨id, text, target, dispatch, args, resultUsed, throws⟩ =>
    exact .bind (lowerArgs_counts h id 0 args) fun _ => placeCall_counts _ _

theorem lowerArgs_counts (h : Hierarchy) (site : CallSiteId) (position : Nat)
    (args : List (Argument CallSite)) : Counts (lowerArgs h site position args) := by
  match args with
  | [] => exact .pure _
  | ⟨text, uses, calls, _⟩ :: args =>
    exact .bind (.newNode _ _) fun _ => .bind (lowerCalls_counts h calls) fun _ =>
      .bind (.place _) fun _ => .bind (lowerArgs_counts h site (position + 1) args) fun _ => .pure _

theorem lowerCalls_counts (h : Hierarchy) (sites : List CallSite) : Counts (lowerCalls h sites) := by
  match sites with
  | [] => exact .pure _
  | site :: sites => exact .bind (lowerCall_counts h site) fun _ => lowerCalls_counts h sites

end

/-- The nodes of a construct get new numbers. -/
theorem placeWith_counts (node : Node) (effects : Effects) : Counts (placeWith h node effects) :=
  .bind .get fun _ => .bind (lowerCalls_counts h _) fun _ => .bind (.place _) fun _ =>
    .bind .get fun _ => .bind (raiseAll_counts _ _) fun _ => .pure _

/-- The rounds of a loop give no number away twice. -/
theorem lowerLoop_counts (node head : NodeId) (enter : FlowKind) {body update : Lower Unit}
    (hbody : Counts body) (hupdate : Counts update) :
    Counts (lowerLoop node head enter body update) := by
  refine .bind (.setPending _) fun _ => .bind (.pushScope _) fun _ => .bind hbody fun _ =>
    .bind .popScope fun scope => .bind (.addPending _) fun _ => .bind .get fun _ => ?_
  have hclose : Counts (do
      closeLoop head (← takePending)
      setPending scope.breaks
      pure scope.breaks) :=
    .bind .takePending fun _ => .bind (.modifyGraph _) fun _ => .bind (.setPending _) fun _ => .pure _
  exact .ite (.bind hupdate fun _ => hclose) hclose

theorem lowerHeadedLoop_counts (header : Node) (cond : Effects) {body update : Lower Unit}
    (hbody : Counts body) (hupdate : Counts update) :
    Counts (lowerHeadedLoop h header cond body update) :=
  .bind (placeWith_counts _ _) fun _ => .bind (lowerLoop_counts _ _ _ hbody hupdate) fun _ =>
    .addPending _

theorem lowerEndlessLoop_counts (source : Element) {body update : Lower Unit}
    (hbody : Counts body) (hupdate : Counts update) :
    Counts (lowerEndlessLoop source body update) :=
  .bind (.newStmtNode _ _) fun _ => .bind (.place _) fun _ =>
    .bind (lowerLoop_counts _ _ _ hbody hupdate) fun _ => .ite (fun _ => Nat.le_refl _) (.pure _)

theorem lowerFootedLoop_counts (source : Element) (cond : Effects) {body : Lower Unit}
    (hbody : Counts body) : Counts (lowerFootedLoop h source body cond) :=
  .bind .get fun _ => .bind (.pushScope _) fun _ => .bind hbody fun _ => .bind .popScope fun _ =>
    .bind .get fun _ => .bind (.addPending _) fun _ => .bind .get fun _ =>
    .ite (.bind (.modifyGraph _) fun _ => .setPending _)
      (.bind (.newStmtNode _ _) fun _ => .bind (placeWith_counts _ _) fun _ =>
        .bind (.modifyGraph _) fun _ => .setPending _)

theorem lowerFinalizer_counts {block : Lower Unit} (hblock : Counts block) (normal : List Pending)
    (escapes : List (Pending × Escape)) : Counts (lowerFinalizer h block normal escapes) :=
  .bind .get fun _ => .bind (.setPending _) fun _ => .bind hblock fun _ => .bind .get fun _ =>
    .ite (.bind (.setPending _) fun _ => routeAll_counts _)
      (.bind (.setPending _) fun _ => routeAll_counts _)

mutual

/-- Lowering a statement gives no number away twice. -/
theorem lowerStmt_counts (h : Hierarchy) (stmt : Stmt) : Counts (lowerStmt h stmt) := by
  unfold lowerStmt
  refine .bind .get fun s => .ite (.modifyGraph _) ?_
  match stmt with
  | .simple source effects =>
    exact .bind (.newStmtNode _ _) fun _ => .bind (placeWith_counts _ _) fun _ => .pure _
  | .branch source cond thenBranch elseBranch =>
    exact .bind (.newStmtNode _ _) fun _ => .bind (placeWith_counts _ _) fun _ =>
      .bind (.setPending _) fun _ => .bind (lowerBlock_counts h thenBranch) fun _ =>
      .bind .takePending fun _ => .bind (.setPending _) fun _ =>
      .bind (lowerBlock_counts h elseBranch) fun _ => .addPending _
  | .whileLoop source cond body =>
    exact .bind (.newStmtNode _ _) fun _ =>
      lowerHeadedLoop_counts _ _ (lowerBlock_counts h body) (.pure _)
  | .forEach source var iterable body =>
    exact .bind (.newStmtNode _ _) fun _ =>
      lowerHeadedLoop_counts _ _ (lowerBlock_counts h body) (.pure _)
  | .doWhile source body cond => exact lowerFootedLoop_counts _ _ (lowerBlock_counts h body)
  | .forLoop source init cond update body =>
    refine .bind (lowerBlock_counts h init) fun _ => .bind .get fun _ => .ite ?_ (.pure _)
    have hbody := lowerBlock_counts h body
    have hupdate := lowerBlock_counts h update
    match cond with
    | some cond => exact .bind (.newStmtNode _ _) fun _ => lowerHeadedLoop_counts _ _ hbody hupdate
    | none => exact lowerEndlessLoop_counts _ hbody hupdate
  | .select source selector cases =>
    exact .bind (.newStmtNode _ _) fun _ => .bind (placeWith_counts _ _) fun _ =>
      .bind (.pushScope _) fun _ => .bind (lowerCases_counts h source _ [] cases) fun _ =>
      .bind .popScope fun _ => .bind (.addPending _) fun _ => .ite (.addPending _) (.pure _)
  | .breakJump source | .continueJump source | .returnJump source none =>
    exact .bind (.newStmtNode _ _) fun _ => .bind (.place _) fun _ => jump_counts _ _
  | .returnJump source (some value) | .throwJump source exceptionType value =>
    exact .bind (.newStmtNode _ _) fun _ => .bind (placeWith_counts _ _) fun _ => jump_counts _ _
  | .tryBlock source body catches finalizer =>
    refine .bind (.pushScope _) fun _ => .bind (lowerBlock_counts h body) fun _ =>
      .bind .takePending fun _ => .bind .popScope fun _ => .bind (.pushScope _) fun _ =>
      .bind (lowerCatches_counts h _ catches) fun _ => .bind .popScope fun _ => ?_
    match finalizer with
    | none => exact .setPending _
    | some block => exact lowerFinalizer_counts (lowerBlock_counts h block) _ _
  | .block source body => exact lowerBlock_counts h body

/-- Lowering a block gives no number away twice. -/
theorem lowerBlock_counts (h : Hierarchy) (stmts : List Stmt) : Counts (lowerBlock h stmts) := by
  match stmts with
  | [] => exact .pure _
  | stmt :: stmts => exact .bind (lowerStmt_counts h stmt) fun _ => lowerBlock_counts h stmts

theorem lowerCases_counts (h : Hierarchy) (source : Element) (selector : NodeId)
    (fallthrough : List Pending) (cases : List (SwitchCase Stmt)) :
    Counts (lowerCases h source selector fallthrough cases) := by
  match cases with
  | [] => exact .setPending _
  | ⟨id, label, body⟩ :: cases =>
    exact .bind (.setPending _) fun _ => .bind (.newNode _ _) fun _ => .bind (.place _) fun _ =>
      .bind (lowerBlock_counts h body) fun _ => .bind .takePending fun _ =>
      lowerCases_counts h source selector _ cases

/-- Lowering catch clauses gives no number away twice. -/
theorem lowerCatches_counts (h : Hierarchy) (handlers : List Handler)
    (clauses : List (CatchClause Stmt)) : Counts (lowerCatches h handlers clauses) := by
  match clauses with
  | [] => exact .pure _
  | ⟨id, exceptionType, var, body⟩ :: clauses =>
    match handlers with
    | [] => exact .pure _
    | handler :: handlers =>
      refine .ite (.bind (.modifyGraph _) fun _ => lowerCatches_counts h handlers clauses) ?_
      exact .bind (.setPending _) fun _ => .bind (.newNode _ _) fun _ => .bind (.place _) fun _ =>
        .bind (lowerBlock_counts h body) fun _ => .bind .takePending fun _ =>
        .bind (lowerCatches_counts h handlers clauses) fun _ => .pure _

end

/-! ## Callables -/

theorem placeFormalIns_counts (params : List Param) (position : Nat) :
    Counts (placeFormalIns position params) := by
  induction params generalizing position with
  | nil => exact .pure _
  | cons param params ih =>
    exact .bind (.newNode _ _) fun _ => .bind (.place _) fun _ => .bind (.modifyGraph _) fun _ => ih _

theorem placeFormalOut_counts (slot : OutputSlot) (text var : String) :
    Counts (placeFormalOut slot text var) :=
  .bind (.newNode _ _) fun _ => .bind (.place _) fun _ => .modifyGraph _

theorem placeWrittenParams_counts (params : List Param) (position : Nat) :
    Counts (placeWrittenParams position params) := by
  induction params generalizing position with
  | nil => exact .pure _
  | cons param params ih => exact .ite (.bind (placeFormalOut_counts _ _ _) fun _ => ih _) (ih _)

theorem finish_counts (decl : CallableDecl) : Counts (finish decl) := by
  have hleave : Counts (leave decl.params) :=
    .bind (placeWrittenParams_counts _ _) fun _ => .bind .takePending fun _ =>
      .bind (.modifyGraph _) fun _ => .bind (.modifyGraph _) fun _ => .bind .get fun _ =>
      .modifyGraph _
  rw [finish_eq]
  exact .bind .get fun _ => .bind (.addPending _) fun _ =>
    .ite (.bind (placeFormalOut_counts _ _ _) fun _ => hleave) hleave

/-- Lowering a callable gives no number away twice. -/
theorem lowerCallable_counts (h : Hierarchy) (decl : CallableDecl) (body : List Stmt) :
    Counts (lowerCallable h decl body) :=
  .bind (placeFormalIns_counts _ _) fun _ => .bind (lowerBlock_counts h body) fun _ =>
    finish_counts decl

/-! ## Numbers of graphs -/

/-- Looking for the head of the exit and for loops adds no nodes. -/
theorem flagged_headed_ids (g : FlowGraph) (heads : List NodeId) :
    (flagged (headed g) heads).ids = g.ids := by
  obtain ⟨q, hq⟩ := headed_eq g
  rw [hq]
  rfl

/-- The numbers are in use when a callable is left. -/
theorem leave_below {params : List Param} {es : List Emission} {ins : List NodeId}
    {outs : List (OutputSlot × NodeId)} {x : Unit} (hs : s.Below) (he : Emits h s es t)
    (hr : leave params (t.withFormals ins outs) = .ok x s') : s'.Below := by
  simp only [leave, bind_eq_ok, takePending_eq_ok, modifyGraph_eq_ok, get_eq_ok] at hr
  obtain ⟨_, _, hparams, tails, _, ⟨rfl, rfl⟩, _, _, rfl, _, _, rfl, _, _, ⟨rfl, rfl⟩, rfl⟩ := hr
  obtain ⟨es', outs', t', he', rfl, -⟩ := placeWrittenParams_eq_ok hs he hparams
  have hids := flagged_headed_ids
    (exiting (t'.withFormals ins (outs ++ outs')).graph t'.pending) t'.loopHeads
  intro id hid
  have hid : id ∈ (exiting (t'.withFormals ins (outs ++ outs')).graph t'.pending).ids := hids ▸ hid
  rw [FlowGraph.ids, exiting_nodes] at hid
  exact he'.keepsBelow hs id hid

/-- The numbers are in use when a callable is finished. -/
theorem finish_below {decl : CallableDecl} {x : Unit} (hs : s.Below)
    (hr : finish decl s = .ok x s') : s'.Below := by
  simp only [finish_eq, bind_eq_ok, get_eq_ok, addPending_eq_ok] at hr
  obtain ⟨_, s, ⟨rfl, rfl⟩, _, _, rfl, hr⟩ := hr
  have hs' : (s.withPending (s.pending ++ s.returns)).Below := hs
  have hstart : s.withPending (s.pending ++ s.returns) =
      (s.withPending (s.pending ++ s.returns)).withFormals s.graph.formalIns s.graph.formalOuts := rfl
  rw [hstart] at hr
  split at hr
  · simp only [bind_eq_ok] at hr
    obtain ⟨_, _, hout, hr⟩ := hr
    obtain ⟨e, t, he, rfl, -⟩ := placeFormalOut_emits (h := ⟨[], []⟩) hs' .done hout
    exact leave_below hs' he hr
  · exact leave_below (h := ⟨[], []⟩) hs' .done hr

/-- The numbers are in use when a callable is lowered. -/
theorem lowerCallable_below {decl : CallableDecl} {body : List Stmt} {n : Nat} {x : Unit}
    (hr : lowerCallable h decl body (start decl n) = .ok x s') : s'.Below := by
  simp only [lowerCallable, bind_eq_ok] at hr
  obtain ⟨_, s₁, hins, _, s, hblock, hfinish⟩ := hr
  obtain ⟨ins, t, hopen, rfl, -⟩ := placeFormalIns_eq_ok (h := h) (t := start decl n) [] []
    (start_sound decl n).below .done hins
  have hlowered := lowered_block h body hblock (opening_ready hopen _ body)
  exact finish_below hlowered.grown.ext.sound.below hfinish

namespace Builds

variable {decl : CallableDecl} {body : List Stmt} {n : Nat} {ins es : List Emission}
  {outs : List (OutputSlot × NodeId)} {g : FlowGraph}

/-- The nodes of a callable have numbers from its start on. -/
theorem le_number (hb : Builds h decl body n ins t s es outs u g) {id : NodeId} (hid : id ∈ g.ids) :
    n ≤ id.number := by
  have hinner (hid : Inner n id) : n ≤ id.number := Nat.le_of_succ_le (Nat.le_of_succ_le hid)
  rcases hb.whole.mem_ids hid with ⟨hid, hne⟩ | hid
  · rcases hb.mem_body hid hne with hid | hmade
    · rcases List.mem_cons.1 hid with rfl | hid
      exacts [Nat.le_refl n, hinner (hb.inner_of_mem_ins hid)]
    · exact hinner (hb.inner_of_made hmade)
  · rcases List.mem_append.1 hid with hid | hid
    · exact hinner (hb.inner_of_mem_es hid).1
    · rw [List.mem_singleton.1 hid, hb.exit_id]
      exact Nat.le_succ n

theorem callable_eq (hb : Builds h decl body n ins t s es outs u g) : g.callable = decl.id := by
  have hframe := exiting_frame (u.withFormals s.graph.formalIns outs).graph u.pending
  obtain ⟨q, hq⟩ := headed_eq (exiting (u.withFormals s.graph.formalIns outs).graph u.pending)
  rw [hb.graph, hq]
  exact hframe.callable.trans (hb.closing.frame.callable.trans
    (hb.body.grown.ext.frame.callable.trans hb.opening.frame.callable))

/-- All nodes are nodes of the callable. -/
theorem callable_of_mem_nodes (hb : Builds h decl body n ins t s es outs u g) :
    ∀ node ∈ g.nodes, node.callable = decl.id := by
  have hline {s t : Lowering} {es : List Emission} (he : Emits h s es t)
      (hs : s.graph.callable = decl.id ∧ ∀ node ∈ s.graph.nodes, node.callable = decl.id) :
      t.graph.callable = decl.id ∧ ∀ node ∈ t.graph.nodes, node.callable = decl.id := by
    refine ⟨he.callable_eq.trans hs.1, fun node hnode => ?_⟩
    rw [he.nodes_eq, List.mem_append, List.mem_map] at hnode
    obtain hnode | ⟨e, hmem, rfl⟩ := hnode
    · exact hs.2 node hnode
    · exact (he.callable_of_mem e hmem).trans hs.1
  have hstart : (start decl n).graph.callable = decl.id ∧
      ∀ node ∈ (start decl n).graph.nodes, node.callable = decl.id := by
    simp [start, FlowGraph.ofDecl, FlowGraph.nodes]
  have hopening := hline hb.opening hstart
  have hbody : s.graph.callable = decl.id ∧ ∀ node ∈ s.graph.nodes, node.callable = decl.id := by
    refine ⟨hb.body.grown.ext.frame.callable.trans hopening.1, fun node hnode => ?_⟩
    exact (hb.body.grown.ext.owned node hnode).elim (hopening.2 node) (·.trans hopening.1)
  rw [hb.nodes_eq]
  exact (hline hb.closing hbody).2

end Builds

end Lowering

namespace FlowGraph

variable {h : Hierarchy} {decl : CallableDecl} {n : Nat} {g : FlowGraph}

/-- Building a callable with a body gives its graph or an error, and the next number. -/
theorem build_eq (h : Hierarchy) {body : List Stmt} (hbody : decl.body = some body) (n : Nat) :
    build h decl n = match Lowering.lowerCallable h decl body (Lowering.start decl n) with
      | .ok _ s => (.ok s.graph, s.nextId)
      | .error e s => (.error e, s.nextId) := by
  unfold build
  rw [hbody]
  rfl

/-- The numbers of a callable go up, whether it has a graph or not. -/
theorem build_le (h : Hierarchy) (decl : CallableDecl) (n : Nat) : n ≤ (build h decl n).2 := by
  cases hbody : decl.body with
  | none =>
    unfold build
    rw [hbody]
    exact Nat.le_add_right n 2
  | some body =>
    have hcounts := Lowering.lowerCallable_counts h decl body (Lowering.start decl n)
    have hstart : n ≤ (Lowering.start decl n).nextId := Nat.le_add_right n 2
    unfold Lowering.behind at hcounts
    rw [build_eq h hbody]
    split at hcounts
    · rename_i hrun
      rw [hrun]
      exact Nat.le_trans hstart hcounts
    · rename_i hrun
      rw [hrun]
      exact Nat.le_trans hstart hcounts

/-- The nodes of a graph have the numbers of its callable. -/
theorem build_numbers (hg : (build h decl n).1 = .ok g) :
    ∀ id ∈ g.ids, n ≤ id.number ∧ id.number < (build h decl n).2 := by
  intro id hid
  cases hbody : decl.body with
  | none =>
    simp only [build, hbody, Except.ok.injEq] at hg ⊢
    rw [← hg, ids_addArc] at hid
    rcases List.mem_cons.1 hid with rfl | hid
    · exact ⟨Nat.le_refl n, Nat.lt_add_of_pos_right (by decide)⟩
    · rw [List.mem_singleton.1 hid]
      exact ⟨Nat.le_succ n, Nat.lt_succ_self _⟩
  | some body =>
    obtain ⟨ins, t, s, es, outs, u, hb⟩ := Lowering.build_eq_ok hbody hg
    refine ⟨hb.le_number hid, ?_⟩
    rw [build_eq h hbody] at hg ⊢
    split at hg
    · rename_i hrun
      cases hg
      exact Lowering.lowerCallable_below hrun id hid
    · cases hg

/-- The graph of a callable says so. -/
theorem build_callable (hg : (build h decl n).1 = .ok g) : g.callable = decl.id := by
  cases hbody : decl.body with
  | none =>
    simp only [build, hbody, Except.ok.injEq] at hg
    rw [← hg]
    exact (SameFrame.addArc (ofDecl decl n) _ _ _).callable
  | some body =>
    obtain ⟨ins, t, s, es, outs, u, hb⟩ := Lowering.build_eq_ok hbody hg
    exact hb.callable_eq

/-- The nodes of a graph are nodes of its callable. -/
theorem callable_of_mem_nodes (hg : (build h decl n).1 = .ok g) :
    ∀ node ∈ g.nodes, node.callable = decl.id := by
  cases hbody : decl.body with
  | none =>
    simp only [build, hbody, Except.ok.injEq] at hg
    rw [← hg, nodes_addArc]
    simp [ofDecl, nodes]
  | some body =>
    obtain ⟨ins, t, s, es, outs, u, hb⟩ := Lowering.build_eq_ok hbody hg
    exact hb.callable_of_mem_nodes

/-- A callable without a body has no nodes for its parameters and calls. -/
theorem build_bodyless (hbody : decl.body = none) (hg : (build h decl n).1 = .ok g) :
    g.formalIns = [] ∧ g.callSites = [] := by
  simp only [build, hbody, Except.ok.injEq] at hg
  rw [← hg]
  exact ⟨(SameFrame.addArc (ofDecl decl n) _ _ _).formalIns, callSites_addArc _ _ _ _⟩

/-! ## The graphs of a program -/

/-- Each callable is built with numbers from the start on. -/
theorem mem_buildAll {decls : List CallableDecl} {outcome : CallableDecl × Except Error FlowGraph}
    (hmem : outcome ∈ (buildAll h decls n).1) :
    outcome.1 ∈ decls ∧ ∃ m, n ≤ m ∧ outcome.2 = (build h outcome.1 m).1 := by
  induction decls generalizing n with
  | nil => cases hmem
  | cons decl decls ih =>
    rcases List.mem_cons.1 hmem with rfl | hmem
    · exact ⟨List.mem_cons_self, n, Nat.le_refl n, rfl⟩
    · obtain ⟨hdecl, m, hm, heq⟩ := ih hmem
      exact ⟨List.mem_cons_of_mem _ hdecl, m, Nat.le_trans (build_le h decl n) hm, heq⟩

/-- Graphs that are built one after another share no node. -/
theorem pairwise_buildAll (h : Hierarchy) (decls : List CallableDecl) (n : Nat) :
    (buildAll h decls n).1.Pairwise fun o o' =>
      ∀ g g', o.2 = .ok g → o'.2 = .ok g' → g.ids.Disjoint g'.ids := by
  induction decls generalizing n with
  | nil => exact .nil
  | cons decl decls ih =>
    refine .cons (fun o hmem g g' hg hg' id hid hid' => ?_) (ih _)
    -- the numbers of the first graph end before those of the others begin
    obtain ⟨-, m, hm, heq⟩ := mem_buildAll hmem
    have hlt : id.number < (build h decl n).2 := (build_numbers hg id hid).2
    have hle : m ≤ id.number := (build_numbers (heq.symm.trans hg') id hid').1
    exact absurd (Nat.lt_of_lt_of_le hlt hm) (Nat.not_lt.2 hle)

/-- The graphs of different callables share no node. -/
theorem buildAll_disjoint {decls : List CallableDecl} {decl₁ decl₂ : CallableDecl}
    {g₁ g₂ : FlowGraph} (h₁ : (decl₁, .ok g₁) ∈ (buildAll h decls n).1)
    (h₂ : (decl₂, .ok g₂) ∈ (buildAll h decls n).1) (hne : decl₁.id ≠ decl₂.id) :
    g₁.ids.Disjoint g₂.ids := by
  have hne' : (decl₁, Except.ok g₁) ≠ ((decl₂, .ok g₂) : CallableDecl × Except Error FlowGraph) :=
    fun heq => hne (congrArg (·.1.id) heq)
  have hsymm : Std.Symm fun o o' : CallableDecl × Except Error FlowGraph =>
      ∀ g g', o.2 = .ok g → o'.2 = .ok g' → g.ids.Disjoint g'.ids :=
    ⟨fun _ _ hd g g' hg hg' => (hd g' g hg' hg).symm⟩
  exact (pairwise_buildAll h decls n).forall h₁ h₂ hne' g₁ g₂ rfl rfl

end FlowGraph

end Slicing
