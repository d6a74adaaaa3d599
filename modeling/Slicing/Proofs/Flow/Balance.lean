import Slicing.Proofs.Flow.Numbers

/-!
# No number is lost

A node gets its number when it is made and its place later, behind the nodes of the calls that it
evaluates. A step of lowering that succeeds leaves none behind: it places as many nodes as it
makes, and those that it was handed to place (`Lowering.Pays`). So the numbers that a callable
takes are those of its nodes (`FlowGraph.build_count`): all numbers from the first one on, each
on one node (`FlowGraph.ids_perm`).
-/

namespace Slicing

namespace Lowering

variable {h : Hierarchy} {α β : Type} {k : Nat}

/-- A step that succeeds places the nodes that it makes, and a number of nodes that were made
    before. -/
def Pays (m : Lower α) (k : Nat) : Prop :=
  ∀ s a s', m s = .ok a s' → s'.graph.size + s.nextId = s.graph.size + s'.nextId + k

namespace Pays

/-! ## Steps in order -/

/-- Nodes that wait for their places wait through steps that place their own. -/
theorem bind {m : Lower α} {f : α → Lower β} (hm : Pays m 0) (hf : ∀ a, Pays (f a) k) :
    Pays (m >>= f) k := by
  intro s b s' hrun
  obtain ⟨a, t, hfirst, hrest⟩ := bind_eq_ok.1 hrun
  have hfirst := hm s a t hfirst
  have hrest := hf a t b s' hrest
  omega

/-- One of the nodes that wait is placed first. -/
theorem settle {m : Lower α} {f : α → Lower β} (hm : Pays m 1) (hf : ∀ a, Pays (f a) k) :
    Pays (m >>= f) (k + 1) := by
  intro s b s' hrun
  obtain ⟨a, t, hfirst, hrest⟩ := bind_eq_ok.1 hrun
  have hfirst := hm s a t hfirst
  have hrest := hf a t b s' hrest
  omega

/-- A node that is made waits for its place. -/
theorem make {f : Node → Lower β} (kind : NodeKind) (text : String) (hf : ∀ node, Pays (f node) (k + 1)) :
    Pays (newNode kind text >>= f) k := by
  intro s b s' hrun
  obtain ⟨node, t, hfirst, hrest⟩ := bind_eq_ok.1 hrun
  obtain ⟨-, rfl⟩ := newNode_eq_ok.1 hfirst
  have hrest := hf node _ b s' hrest
  rw [numbered_graph, numbered_nextId] at hrest
  omega

/-- A node that is made for a statement waits for its place. -/
theorem makeStmt {f : Node → Lower β} (kind : NodeKind) (source : Element)
    (hf : ∀ node, Pays (f node) (k + 1)) : Pays (newStmtNode kind source >>= f) k := by
  intro s b s' hrun
  obtain ⟨node, t, hfirst, hrest⟩ := bind_eq_ok.1 hrun
  obtain ⟨-, rfl⟩ := newStmtNode_eq_ok.1 hfirst
  have hrest := hf node _ b s' hrest
  rw [numbered_graph, numbered_nextId] at hrest
  omega

theorem ite {p : Prop} [Decidable p] {m m' : Lower α} (hm : Pays m k) (hm' : Pays m' k) :
    Pays (if p then m else m') k := by
  split
  exacts [hm, hm']

/-! ## Single steps -/

/-- A step that keeps the nodes and the counter makes no nodes and places none. -/
theorem of_eq {m : Lower α} (hm : ∀ s a s', m s = .ok a s' →
    s'.graph.size = s.graph.size ∧ s'.nextId = s.nextId) : Pays m 0 := by
  intro s a s' hrun
  obtain ⟨hsize, hnext⟩ := hm s a s' hrun
  rw [hsize, hnext, Nat.add_zero]

theorem pure (a : α) : Pays (pure a : Lower α) 0 := by
  refine of_eq fun s b s' hrun => ?_
  obtain ⟨-, rfl⟩ := pure_eq_ok.1 hrun
  exact ⟨rfl, rfl⟩

theorem get : Pays (get : Lower Lowering) 0 := by
  refine of_eq fun s b s' hrun => ?_
  obtain ⟨-, rfl⟩ := get_eq_ok.1 hrun
  exact ⟨rfl, rfl⟩

theorem modifyGraph {f : FlowGraph → FlowGraph} (hf : ∀ g, (f g).size = g.size) :
    Pays (modifyGraph f) 0 := by
  refine of_eq fun s b s' hrun => ?_
  obtain rfl := modifyGraph_eq_ok.1 hrun
  exact ⟨hf s.graph, rfl⟩

theorem setPending (ps : List Pending) : Pays (setPending ps) 0 := by
  refine of_eq fun s b s' hrun => ?_
  obtain rfl := setPending_eq_ok.1 hrun
  exact ⟨rfl, rfl⟩

theorem addPending (ps : List Pending) : Pays (addPending ps) 0 := by
  refine of_eq fun s b s' hrun => ?_
  obtain rfl := addPending_eq_ok.1 hrun
  exact ⟨rfl, rfl⟩

theorem takePending : Pays takePending 0 := by
  refine of_eq fun s b s' hrun => ?_
  obtain ⟨-, rfl⟩ := takePending_eq_ok.1 hrun
  exact ⟨rfl, rfl⟩

theorem pushScope (scope : Scope) : Pays (pushScope scope) 0 := by
  refine of_eq fun s b s' hrun => ?_
  obtain rfl := pushScope_eq_ok.1 hrun
  exact ⟨rfl, rfl⟩

theorem popScope : Pays popScope 0 := by
  refine of_eq fun s b s' hrun => ?_
  obtain ⟨-, rfl⟩ := popScope_eq_ok.1 hrun
  exact ⟨rfl, rfl⟩

theorem skip (element : ElementId) : Pays (skip element) 0 := modifyGraph fun _ => rfl

theorem closeLoop (head : NodeId) (tails : List Pending) : Pays (closeLoop head tails) 0 := by
  refine of_eq fun s b s' hrun => ?_
  obtain rfl := closeLoop_eq_ok.1 hrun
  exact ⟨closed_size s head tails, rfl⟩

theorem routeAll (escapes : List (Pending × Escape)) : Pays (routeAll h escapes) 0 := by
  refine of_eq fun s b s' hrun => ?_
  obtain rfl := routeAll_eq_ok hrun
  exact ⟨by rw [sentAll_graph], sentAll_nextId h s escapes⟩

theorem jump (node : NodeId) (escape : Escape) : Pays (jump h node escape) 0 := by
  refine .bind (.setPending _) fun _ => of_eq fun s b s' hrun => ?_
  obtain ⟨-, rfl⟩ := route_eq_ok.1 hrun
  exact ⟨rfl, rfl⟩

theorem place (node : Node) : Pays (place node) 1 := by
  intro s id s' hrun
  obtain ⟨-, rfl⟩ := place_eq_ok.1 hrun
  rw [placed_size, placed_nextId]
  omega

end Pays

/-! ## Calls -/

theorem placeActualOut_pays (site : CallSite) (slot : OutputSlot) (var : String) :
    Pays (placeActualOut site slot var) 0 :=
  .make _ _ fun _ => .settle (.place _) fun _ => .pure _

/-- Handing back values in arguments places the nodes that are made for them. -/
theorem placeWrittenArgs_pays (site : CallSite) (passing : List Passing)
    (args : List (Argument CallSite)) (position : Nat) :
    Pays (placeWrittenArgs site passing position args) 0 := by
  induction args generalizing position with
  | nil => exact .pure _
  | cons arg args ih =>
    unfold placeWrittenArgs
    split
    · exact .bind (placeActualOut_pays _ _ _) fun _ => .bind (ih _) fun _ => .pure _
    · exact ih _

theorem placeCall_pays (site : CallSite) (actualIns : List NodeId) :
    Pays (placeCall h site actualIns) 0 := by
  refine .make _ _ fun _ => .settle (.place _) fun _ => .bind (.routeAll _) fun _ =>
    .bind ?_ fun _ => .bind (placeWrittenArgs_pays _ _ _ _) fun _ => .modifyGraph fun _ => rfl
  exact .ite (.bind (placeActualOut_pays _ _ _) fun _ => .pure _) (.pure _)

mutual

/-- Lowering a call places the nodes that are made for it. -/
theorem lowerCall_pays (h : Hierarchy) (site : CallSite) : Pays (lowerCall h site) 0 := by
  match site with
  | ⟨id, text, target, dispatch, args, resultUsed, throws⟩ =>
    exact .bind (lowerArgs_pays h id 0 args) fun _ => placeCall_pays _ _

theorem lowerArgs_pays (h : Hierarchy) (site : CallSiteId) (position : Nat)
    (args : List (Argument CallSite)) : Pays (lowerArgs h site position args) 0 := by
  match args with
  | [] => exact .pure _
  | ⟨text, uses, calls, _⟩ :: args =>
    -- the node of the argument is made in front of the calls in it, and placed behind them
    exact .make _ _ fun _ => .bind (lowerCalls_pays h calls) fun _ => .settle (.place _) fun _ =>
      .bind (lowerArgs_pays h site (position + 1) args) fun _ => .pure _

theorem lowerCalls_pays (h : Hierarchy) (sites : List CallSite) : Pays (lowerCalls h sites) 0 := by
  match sites with
  | [] => exact .pure _
  | site :: sites => exact .bind (lowerCall_pays h site) fun _ => lowerCalls_pays h sites

end

/-- Placing a construct places its own node, which was made before, and those made for its calls. -/
theorem placeWith_pays (node : Node) (effects : Effects) : Pays (placeWith h node effects) 1 :=
  .bind .get fun _ => .bind (lowerCalls_pays h _) fun _ => .settle (.place _) fun _ =>
    .bind .get fun _ => .bind (.routeAll _) fun _ => .pure _

/-! ## Statements -/

/-- Lowering the rounds of a loop places the nodes made for them, if body and update do so. -/
theorem lowerLoop_pays (node head : NodeId) (enter : FlowKind) {body update : Lower Unit}
    (hbody : Pays body 0) (hupdate : Pays update 0) : Pays (lowerLoop node head enter body update) 0 := by
  refine .bind (.setPending _) fun _ => .bind (.pushScope _) fun _ => .bind hbody fun _ =>
    .bind .popScope fun scope => .bind (.addPending _) fun _ => .bind .get fun _ => ?_
  have hclose : Pays (do
      closeLoop head (← takePending)
      setPending scope.breaks
      pure scope.breaks) 0 :=
    .bind .takePending fun _ => .bind (.closeLoop _ _) fun _ => .bind (.setPending _) fun _ => .pure _
  exact .ite (.bind hupdate fun _ => hclose) hclose

/-- A loop with a test places its header, which was made before, and the nodes made for it. -/
theorem lowerHeadedLoop_pays (header : Node) (cond : Effects) {body update : Lower Unit}
    (hbody : Pays body 0) (hupdate : Pays update 0) :
    Pays (lowerHeadedLoop h header cond body update) 1 :=
  .settle (placeWith_pays _ _) fun _ => .bind (lowerLoop_pays _ _ _ hbody hupdate) fun _ =>
    .addPending _

theorem lowerEndlessLoop_pays (source : Element) {body update : Lower Unit} (hbody : Pays body 0)
    (hupdate : Pays update 0) : Pays (lowerEndlessLoop source body update) 0 := by
  refine .makeStmt _ _ fun _ => .settle (.place _) fun head =>
    .bind (lowerLoop_pays _ _ _ hbody hupdate) fun breaks => .ite (.of_eq fun s _ s' hrun => ?_) (.pure _)
  obtain rfl := modify_eq_ok.1 hrun
  exact ⟨rfl, rfl⟩

theorem lowerFootedLoop_pays (source : Element) (cond : Effects) {body : Lower Unit}
    (hbody : Pays body 0) : Pays (lowerFootedLoop h source body cond) 0 :=
  .bind .get fun _ => .bind (.pushScope _) fun _ => .bind hbody fun _ => .bind .popScope fun _ =>
    .bind .get fun _ => .bind (.addPending _) fun _ => .bind .get fun _ =>
    .ite (.bind (.skip _) fun _ => .setPending _)
      (.makeStmt _ _ fun _ => .settle (placeWith_pays _ _) fun _ =>
        .bind (.modifyGraph fun g => FlowGraph.size_addArc g _ _ _) fun _ => .setPending _)

theorem lowerFinalizer_pays {block : Lower Unit} (hblock : Pays block 0) (normal : List Pending)
    (escapes : List (Pending × Escape)) : Pays (lowerFinalizer h block normal escapes) 0 :=
  .bind .get fun _ => .bind (.setPending _) fun _ => .bind hblock fun _ => .bind .get fun _ =>
    .ite (.bind (.setPending _) fun _ => .routeAll _) (.bind (.setPending _) fun _ => .routeAll _)

mutual

/-- Lowering a statement places the nodes that are made for it. -/
theorem lowerStmt_pays (h : Hierarchy) (stmt : Stmt) : Pays (lowerStmt h stmt) 0 := by
  unfold lowerStmt
  refine .bind .get fun s => .ite (.skip _) ?_
  match stmt with
  | .simple source effects =>
    exact .makeStmt _ _ fun _ => .settle (placeWith_pays _ _) fun _ => .pure _
  | .branch source cond thenBranch elseBranch =>
    exact .makeStmt _ _ fun _ => .settle (placeWith_pays _ _) fun _ => .bind (.setPending _) fun _ =>
      .bind (lowerBlock_pays h thenBranch) fun _ => .bind .takePending fun _ =>
      .bind (.setPending _) fun _ => .bind (lowerBlock_pays h elseBranch) fun _ => .addPending _
  | .whileLoop source cond body =>
    exact .makeStmt _ _ fun _ => lowerHeadedLoop_pays _ _ (lowerBlock_pays h body) (.pure _)
  | .forEach source var iterable body =>
    exact .makeStmt _ _ fun _ => lowerHeadedLoop_pays _ _ (lowerBlock_pays h body) (.pure _)
  | .doWhile source body cond => exact lowerFootedLoop_pays _ _ (lowerBlock_pays h body)
  | .forLoop source init cond update body =>
    refine .bind (lowerBlock_pays h init) fun _ => .bind .get fun _ => .ite ?_ (.pure _)
    have hbody := lowerBlock_pays h body
    have hupdate := lowerBlock_pays h update
    match cond with
    | some cond => exact .makeStmt _ _ fun _ => lowerHeadedLoop_pays _ _ hbody hupdate
    | none => exact lowerEndlessLoop_pays _ hbody hupdate
  | .select source selector cases =>
    exact .makeStmt _ _ fun _ => .settle (placeWith_pays _ _) fun _ => .bind (.pushScope _) fun _ =>
      .bind (lowerCases_pays h source _ [] cases) fun _ => .bind .popScope fun _ =>
      .bind (.addPending _) fun _ => .ite (.addPending _) (.pure _)
  | .breakJump source | .continueJump source | .returnJump source none =>
    exact .makeStmt _ _ fun _ => .settle (.place _) fun _ => .jump _ _
  | .returnJump source (some value) | .throwJump source exceptionType value =>
    exact .makeStmt _ _ fun _ => .settle (placeWith_pays _ _) fun _ => .jump _ _
  | .tryBlock source body catches finalizer =>
    refine .bind (.pushScope _) fun _ => .bind (lowerBlock_pays h body) fun _ =>
      .bind .takePending fun _ => .bind .popScope fun _ => .bind (.pushScope _) fun _ =>
      .bind (lowerCatches_pays h _ catches) fun _ => .bind .popScope fun _ => ?_
    match finalizer with
    | none => exact .setPending _
    | some block => exact lowerFinalizer_pays (lowerBlock_pays h block) _ _
  | .block source body => exact lowerBlock_pays h body

/-- Lowering a block places the nodes that are made for it. -/
theorem lowerBlock_pays (h : Hierarchy) (stmts : List Stmt) : Pays (lowerBlock h stmts) 0 := by
  match stmts with
  | [] => exact .pure _
  | stmt :: stmts => exact .bind (lowerStmt_pays h stmt) fun _ => lowerBlock_pays h stmts

theorem lowerCases_pays (h : Hierarchy) (source : Element) (selector : NodeId)
    (fallthrough : List Pending) (cases : List (SwitchCase Stmt)) :
    Pays (lowerCases h source selector fallthrough cases) 0 := by
  match cases with
  | [] => exact .setPending _
  | ⟨id, label, body⟩ :: cases =>
    exact .bind (.setPending _) fun _ => .make _ _ fun _ => .settle (.place _) fun _ =>
      .bind (lowerBlock_pays h body) fun _ => .bind .takePending fun _ =>
      lowerCases_pays h source selector _ cases

/-- Lowering catch clauses places the nodes that are made for them. -/
theorem lowerCatches_pays (h : Hierarchy) (handlers : List Handler)
    (clauses : List (CatchClause Stmt)) : Pays (lowerCatches h handlers clauses) 0 := by
  match clauses with
  | [] => exact .pure _
  | ⟨id, exceptionType, var, body⟩ :: clauses =>
    match handlers with
    | [] => exact .pure _
    | handler :: handlers =>
      refine .ite (.bind (.skip _) fun _ => lowerCatches_pays h handlers clauses) ?_
      exact .bind (.setPending _) fun _ => .make _ _ fun _ => .settle (.place _) fun _ =>
        .bind (lowerBlock_pays h body) fun _ => .bind .takePending fun _ =>
        .bind (lowerCatches_pays h handlers clauses) fun _ => .pure _

end

/-! ## Callables -/

theorem placeFormalIns_pays (params : List Param) (position : Nat) :
    Pays (placeFormalIns position params) 0 := by
  induction params generalizing position with
  | nil => exact .pure _
  | cons param params ih =>
    exact .make _ _ fun _ => .settle (.place _) fun _ => .bind (.modifyGraph fun _ => rfl) fun _ => ih _

theorem placeFormalOut_pays (slot : OutputSlot) (text var : String) :
    Pays (placeFormalOut slot text var) 0 :=
  .make _ _ fun _ => .settle (.place _) fun _ => .modifyGraph fun _ => rfl

theorem placeWrittenParams_pays (params : List Param) (position : Nat) :
    Pays (placeWrittenParams position params) 0 := by
  induction params generalizing position with
  | nil => exact .pure _
  | cons param params ih => exact .ite (.bind (placeFormalOut_pays _ _ _) fun _ => ih _) (ih _)

/-- Finishing a callable places the nodes that are made for what leaves it. -/
theorem finish_pays (decl : CallableDecl) : Pays (finish decl) 0 := by
  have hleave : Pays (leave decl.params) 0 := by
    refine .bind (placeWrittenParams_pays _ _) fun _ => .bind .takePending fun _ =>
      .bind (.modifyGraph fun g => ?_) fun _ => .bind (.modifyGraph fun g => ?_) fun _ =>
      .bind .get fun _ => .modifyGraph fun _ => rfl
    · exact congrArg List.length (exiting_nodes g _)
    · obtain ⟨q, hq⟩ := headed_eq g
      rw [hq]
      rfl
  rw [finish_eq]
  exact .bind .get fun _ => .bind (.addPending _) fun _ =>
    .ite (.bind (placeFormalOut_pays _ _ _) fun _ => hleave) hleave

/-- Lowering a callable places all the nodes that are made for it. -/
theorem lowerCallable_pays (h : Hierarchy) (decl : CallableDecl) (body : List Stmt) :
    Pays (lowerCallable h decl body) 0 :=
  .bind (placeFormalIns_pays _ _) fun _ => .bind (lowerBlock_pays h body) fun _ => finish_pays decl

end Lowering

namespace FlowGraph

variable {h : Hierarchy} {decl : CallableDecl} {n : Nat} {g : FlowGraph}

/-- A callable takes as many numbers as its graph has nodes. -/
theorem build_count (hg : (build h decl n).1 = .ok g) : (build h decl n).2 = n + g.size := by
  cases hbody : decl.body with
  | none =>
    simp only [build, hbody, Except.ok.injEq] at hg ⊢
    rw [← hg, size_addArc]
    rfl
  | some body =>
    rw [build_eq h hbody] at hg ⊢
    split at hg
    · rename_i s hrun
      cases hg
      have hpays := Lowering.lowerCallable_pays h decl body _ _ _ hrun
      have hsize : (Lowering.start decl n).graph.size = 2 := rfl
      have hnext : (Lowering.start decl n).nextId = n + 2 := rfl
      change s.nextId = n + s.graph.size
      omega
    · cases hg

/-- The nodes of a graph have all numbers from the first one on, one each. -/
theorem ids_perm (hg : (build h decl n).1 = .ok g) :
    g.ids.Perm ((List.range' n g.size).map NodeId.mk) := by
  have hnodup : g.ids.Nodup := (build_formed hg).nodup
  have hsub : g.ids ⊆ (List.range' n g.size).map NodeId.mk := by
    intro id hid
    obtain ⟨hle, hlt⟩ := build_numbers hg id hid
    rw [build_count hg] at hlt
    exact List.mem_map.2 ⟨id.number, List.mem_range'_1.2 ⟨hle, hlt⟩, rfl⟩
  refine (List.subperm_of_subset hnodup hsub).perm_of_length_le ?_
  rw [List.length_map, List.length_range', length_ids]

end FlowGraph

end Slicing
