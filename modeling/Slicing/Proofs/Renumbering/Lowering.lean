import Slicing.Proofs.Flow.Numbers
import Slicing.Proofs.Renumbering.Flow

/-!
# Lowering from another number on

A callable may be lowered from any number on. Lowering compares numbers and hands out new ones, and
does nothing else with them; of the declarations of a program it asks which exceptions a handler
takes and how the parameters of a callee are passed. Started with larger numbers, and with
declarations that give the same answers, it takes the same steps (`Shifted`), so that the flow
graph is the same up to its numbers (`FlowGraph.build_shift`).
-/

namespace Slicing

open Function

/-- Numbers that are larger by some. -/
def shift (k : Nat) (id : NodeId) : NodeId := ⟨id.number + k⟩

/-- Larger numbers stay different. -/
theorem shift_injective (k : Nat) : Injective (shift k) := by
  intro a b hab
  have hnumber : a.number + k = b.number + k := congrArg NodeId.number hab
  cases a
  cases b
  simpa using hnumber

/-- Declarations that lowering does not tell apart. -/
structure Hierarchy.Agrees (h h' : Hierarchy) : Prop where
  exceptionMatch : h'.exceptionMatch = h.exceptionMatch
  callable? : h'.callable? = h.callable?

theorem Hierarchy.Agrees.refl (h : Hierarchy) : h.Agrees h := ⟨rfl, rfl⟩

/-! ## States -/

section Renumber

variable (f : NodeId → NodeId)

/-- An arc that waits, from a node with another number. -/
def Pending.renumber (p : Pending) : Pending := { p with source := f p.source }

/-- A way out with its arc, from a node with another number. -/
def Escape.renumber (e : Pending × Escape) : Pending × Escape := (e.1.renumber f, e.2)

/-- A catch clause with other numbers. -/
def Handler.renumber (handler : Handler) : Handler :=
  { handler with incoming := handler.incoming.map (·.renumber f) }

/-- A statement around the current one, with other numbers. -/
def Scope.renumber : Scope → Scope
  | .loop breaks continues => .loop (breaks.map (·.renumber f)) (continues.map (·.renumber f))
  | .select breaks => .select (breaks.map (·.renumber f))
  | .tryBlock handlers hasFinalizer escapes =>
    .tryBlock (handlers.map (·.renumber f)) hasFinalizer (escapes.map (Escape.renumber f))

end Renumber

/-- The state of lowering a callable from a larger number on. -/
def Lowering.shift (k : Nat) (s : Lowering) : Lowering where
  nextId := s.nextId + k
  graph := s.graph.renumber (Slicing.shift k)
  pending := s.pending.map (·.renumber (Slicing.shift k))
  scopes := s.scopes.map (·.renumber (Slicing.shift k))
  returns := s.returns.map (·.renumber (Slicing.shift k))
  loopHeads := s.loopHeads.map (Slicing.shift k)

variable {h h' : Hierarchy} {f : NodeId → NodeId}

theorem Pending.renumber_injective (hf : Injective f) : Injective (Pending.renumber f) := by
  intro p q hpq
  cases p
  cases q
  simp only [renumber, mk.injEq] at hpq ⊢
  exact ⟨hf hpq.1, hpq.2⟩

/-- Arcs are added under other numbers. -/
theorem FlowGraph.foldl_renumber {step step' : FlowGraph → Pending → FlowGraph}
    (hstep : ∀ g p, step' (g.renumber f) (p.renumber f) = (step g p).renumber f) (g : FlowGraph)
    (tails : List Pending) :
    (tails.map (·.renumber f)).foldl step' (g.renumber f) = (tails.foldl step g).renumber f := by
  induction tails generalizing g with
  | nil => rfl
  | cons p tails ih => rw [List.map_cons, List.foldl_cons, hstep, ih, List.foldl_cons]

/-! ## Ways out -/

/-- Handlers take an exception whatever the numbers. -/
theorem offer_renumber (hagrees : h.Agrees h') (exceptionType : String) (p : Pending)
    (handlers : List Handler) :
    offer h' exceptionType (p.renumber f) (handlers.map (·.renumber f)) =
      ((offer h exceptionType p handlers).1.map (·.renumber f), (offer h exceptionType p handlers).2) := by
  induction handlers with
  | nil => rfl
  | cons handler handlers ih =>
    -- which handlers an exception is offered to is decided by its type
    have htype : (handler.renumber f).exceptionType = handler.exceptionType := rfl
    rw [List.map_cons, offer, offer, hagrees.exceptionMatch, ih, htype]
    cases h.exceptionMatch exceptionType handler.exceptionType <;> simp [Handler.renumber]

/-- A statement takes in a way out whatever the numbers. -/
theorem take_renumber (hagrees : h.Agrees h') (p : Pending) (escape : Escape) (scope : Scope) :
    (scope.renumber f).take h' (p.renumber f) escape =
      ((scope.take h p escape).1.renumber f, (scope.take h p escape).2) := by
  cases scope with
  | loop breaks continues => cases escape <;> simp [Scope.take, Scope.renumber]
  | select breaks => cases escape <;> simp [Scope.take, Scope.renumber]
  | tryBlock handlers hasFinalizer escapes =>
    have hoffered : offered h' (p.renumber f) escape (handlers.map (·.renumber f)) =
        ((offered h p escape handlers).1.map (·.renumber f), (offered h p escape handlers).2) := by
      cases escape with
      | throwJump exceptionType => exact offer_renumber hagrees exceptionType p handlers
      | _ => rfl
    rw [Scope.renumber, take_tryBlock, take_tryBlock, hoffered]
    dsimp only
    split
    · rfl
    · split
      · simp [Scope.renumber, Escape.renumber]
      · rfl

/-- A way out is delivered whatever the numbers. -/
theorem deliver_renumber (hagrees : h.Agrees h') (p : Pending) (escape : Escape) (scopes : List Scope) :
    deliver h' (p.renumber f) escape (scopes.map (·.renumber f)) =
      ((deliver h p escape scopes).1.map (·.renumber f), (deliver h p escape scopes).2) := by
  induction scopes with
  | nil => rfl
  | cons scope outer ih =>
    rw [List.map_cons, deliver, deliver, take_renumber hagrees]
    rcases scope.take h p escape with ⟨scope', taken⟩
    cases taken with
    | true => rfl
    | false =>
      dsimp only
      rw [ih]
      rfl

namespace Lowering

variable {α β : Type} {k : Nat}

/-! ## Steps -/

/-- A step from a state with larger numbers does what another one does, with larger numbers. -/
def Shifted (k : Nat) (r : α → α) (m m' : Lower α) : Prop :=
  ∀ s : Lowering, m' (s.shift k) = match m s with
    | .ok a t => .ok (r a) (t.shift k)
    | .error e t => .error (e.renumber (Slicing.shift k)) (t.shift k)

namespace Shifted

/-- Two steps in a row with larger numbers. -/
theorem bind {r : α → α} {r' : β → β} {m m' : Lower α} {next next' : α → Lower β}
    (hm : Shifted k r m m') (hnext : ∀ a, Shifted k r' (next a) (next' (r a))) :
    Shifted k r' (m >>= next) (m' >>= next') := by
  intro s
  change EStateM.bind m' next' (s.shift k) = match EStateM.bind m next s with | .ok a t => _ | .error e t => _
  rw [EStateM.bind, EStateM.bind, hm s]
  cases m s with
  | ok a t => exact hnext a t
  | error e t => rfl

theorem pure (r : α → α) (a : α) : Shifted k r (pure a) (pure (r a)) := fun _ => rfl

/-- A choice that does not depend on the numbers. -/
theorem ite {r : α → α} {p p' : Prop} [Decidable p] [Decidable p'] {m₁ m₁' m₂ m₂' : Lower α}
    (hp : p' ↔ p) (h₁ : Shifted k r m₁ m₁') (h₂ : Shifted k r m₂ m₂') :
    Shifted k r (if p then m₁ else m₂) (if p' then m₁' else m₂') := by
  by_cases hc : p
  · rw [if_pos hc, if_pos (hp.2 hc)]
    exact h₁
  · rw [if_neg hc, if_neg fun hc' => hc (hp.1 hc')]
    exact h₂

/-- What is read from the state goes along with its numbers. -/
theorem get_bind {r : α → α} {next next' : Lowering → Lower α}
    (hnext : ∀ s : Lowering, Shifted k r (next s) (next' (s.shift k))) :
    Shifted k r (get >>= next) (get >>= next') := fun s => hnext s s

/-- A change that goes along with larger numbers. -/
theorem modify {change change' : Lowering → Lowering}
    (hchange : ∀ s, change' (s.shift k) = (change s).shift k) :
    Shifted k id (modify change : Lower PUnit) (modify change') := fun s => by
  change EStateM.Result.ok _ (change' (s.shift k)) = _
  rw [hchange]
  rfl

/-- A change of the graph that goes along with larger numbers. -/
theorem modifyGraph {change change' : FlowGraph → FlowGraph}
    (hchange : ∀ g, change' (g.renumber (Slicing.shift k)) = (change g).renumber (Slicing.shift k)) :
    Shifted k id (modifyGraph change) (modifyGraph change') :=
  .modify fun s => congrArg (fun g => { s.shift k with graph := g }) (hchange s.graph)

theorem setPending {ps ps' : List Pending} (hps : ps' = ps.map (·.renumber (Slicing.shift k))) :
    Shifted k id (setPending ps) (setPending ps') :=
  .modify fun _ => by rw [hps]; rfl

theorem addPending {ps ps' : List Pending} (hps : ps' = ps.map (·.renumber (Slicing.shift k))) :
    Shifted k id (addPending ps) (addPending ps') :=
  .modify fun s => by simp [Lowering.shift, hps]

theorem takePending :
    Shifted k (List.map (·.renumber (Slicing.shift k))) takePending takePending := fun _ => rfl

theorem pushScope {scope scope' : Scope} (hscope : scope' = scope.renumber (Slicing.shift k)) :
    Shifted k id (pushScope scope) (pushScope scope') :=
  .modify fun _ => by rw [hscope]; rfl

theorem popScope : Shifted k (·.renumber (Slicing.shift k)) popScope popScope := by
  intro s
  obtain ⟨nextId, graph, pending, scopes, returns, loopHeads⟩ := s
  cases scopes <;> rfl

/-- A new node has a larger number. -/
theorem newNode (kind : NodeKind) (text : String) :
    Shifted k (·.renumber (Slicing.shift k)) (newNode kind text) (newNode kind text) := by
  intro s
  change EStateM.Result.ok _ { s.shift k with nextId := s.nextId + k + 1 } = _
  rw [Nat.add_right_comm]
  rfl

theorem newStmtNode (kind : NodeKind) (source : Element) :
    Shifted k (·.renumber (Slicing.shift k)) (newStmtNode kind source) (newStmtNode kind source) :=
  .bind (.newNode _ _) fun _ => .pure _ _

/-- A node with a larger number is placed. -/
theorem place (node : Node) :
    Shifted k (Slicing.shift k) (place node) (place (node.renumber (Slicing.shift k))) := by
  refine .bind (.modify fun s => ?_) fun _ => .pure _ _
  have hgraph : (s.pending.map (·.renumber (Slicing.shift k))).foldl
        (fun g p => g.addArc p.source (Slicing.shift k node.id) p.edge)
        ((s.graph.addNode node).renumber (Slicing.shift k)) =
      (s.pending.foldl (fun g p => g.addArc p.source node.id p.edge)
        (s.graph.addNode node)).renumber (Slicing.shift k) :=
    FlowGraph.foldl_renumber (fun g p => FlowGraph.addArc_renumber g (shift_injective k) p.source node.id p.edge) _ _
  rw [← FlowGraph.addNode_renumber] at hgraph
  exact congrArg (fun g => ({ s.shift k with
    graph := g, pending := [.plain (Slicing.shift k node.id) .unconditional] } : Lowering)) hgraph

/-- Arcs are led back to the head of a loop, with larger numbers. -/
theorem closeLoop (head : NodeId) (tails : List Pending) :
    Shifted k id (closeLoop head tails)
      (closeLoop (Slicing.shift k head) (tails.map (·.renumber (Slicing.shift k)))) :=
  .modifyGraph fun g => FlowGraph.foldl_renumber
    (fun g p => FlowGraph.addArc_renumber g (shift_injective k) p.source head _) g tails

theorem skip (element : ElementId) : Shifted k id (skip element) (skip element) :=
  .modifyGraph fun _ => rfl

end Shifted

/-- A way out is sent to where it leads, or is the same error, with larger numbers. -/
theorem route_shifted (hagrees : h.Agrees h') (p : Pending) (escape : Escape) :
    Shifted k id (route h p escape) (route h' (p.renumber (Slicing.shift k)) escape) := by
  intro s
  have hdeliver : deliver h' (p.renumber (Slicing.shift k)) escape (s.shift k).scopes =
      ((deliver h p escape s.scopes).1.map (·.renumber (Slicing.shift k)), (deliver h p escape s.scopes).2) :=
    deliver_renumber hagrees p escape s.scopes
  rw [route_apply, route_apply, hdeliver]
  obtain ⟨scopes, taken⟩ := deliver h p escape s.scopes
  cases taken <;> cases escape <;> simp [Lowering.shift, Error.renumber, Defect.renumber, Pending.renumber,
    FlowGraph.renumber]

/-- Ways out are sent with larger numbers. -/
theorem routeAll_shifted (hagrees : h.Agrees h') {escapes escapes' : List (Pending × Escape)}
    (hescapes : escapes' = escapes.map (Escape.renumber (Slicing.shift k))) :
    Shifted k id (routeAll h escapes) (routeAll h' escapes') := by
  subst hescapes
  induction escapes with
  | nil => exact .pure _ _
  | cons e escapes ih => exact .bind (route_shifted hagrees e.1 e.2) fun _ => ih

/-- Exceptions are raised with larger numbers. -/
theorem raiseAll_shifted (hagrees : h.Agrees h') (node : NodeId) (exceptionTypes : List String) :
    Shifted k id (raiseAll h node exceptionTypes) (raiseAll h' (Slicing.shift k node) exceptionTypes) := by
  refine routeAll_shifted hagrees ?_
  rw [List.map_map]
  rfl

/-- A jump with larger numbers. -/
theorem jump_shifted (hagrees : h.Agrees h') (node : NodeId) (escape : Escape) :
    Shifted k id (jump h node escape) (jump h' (Slicing.shift k node) escape) :=
  .bind (.setPending rfl) fun _ => route_shifted hagrees ⟨node, escape.edge⟩ escape

/-! ## Calls -/

/-- An actual-out is placed with a larger number. -/
theorem placeActualOut_shifted (site : CallSite) (slot : OutputSlot) (var : String) :
    Shifted k (Prod.map id (Slicing.shift k)) (placeActualOut site slot var) (placeActualOut site slot var) :=
  .bind (.newNode _ _) fun _ => .bind (.place _) fun _ => .pure _ _

/-- The actual-outs of arguments are placed with larger numbers. -/
theorem placeWrittenArgs_shifted (site : CallSite) (passing : List Passing)
    (args : List (Argument CallSite)) (position : Nat) :
    Shifted k (List.map (Prod.map id (Slicing.shift k))) (placeWrittenArgs site passing position args)
      (placeWrittenArgs site passing position args) := by
  induction args generalizing position with
  | nil => exact .pure _ _
  | cons arg args ih =>
    rw [placeWrittenArgs]
    split
    · exact .bind (placeActualOut_shifted _ _ _) fun _ => .bind (ih _) fun _ => .pure _ _
    · exact ih _

/-- The actual-out of a result is placed with a larger number. -/
theorem placeResult_shifted (site : CallSite) :
    Shifted k (List.map (Prod.map id (Slicing.shift k))) (placeResult site) (placeResult site) :=
  .ite Iff.rfl (.bind (placeActualOut_shifted _ _ _) fun _ => .pure _ _) (.pure _ _)

/-- A call is placed with larger numbers. -/
theorem placeCall_shifted (hagrees : h.Agrees h') (site : CallSite) (actualIns : List NodeId) :
    Shifted k id (placeCall h site actualIns) (placeCall h' site (actualIns.map (Slicing.shift k))) := by
  rw [placeCall, placeCall, hagrees.callable?]
  refine .bind (.newNode _ _) fun _ => .bind (.place _) fun callNode => .bind (raiseAll_shifted hagrees _ _)
    fun _ => .bind (placeResult_shifted _) fun results => .bind (placeWrittenArgs_shifted _ _ _ _)
    fun written => .modifyGraph fun g => ?_
  simp [FlowGraph.renumber, CallSiteNodes.renumber]

mutual

/-- A call is lowered with larger numbers. -/
theorem lowerCall_shifted (hagrees : h.Agrees h') (site : CallSite) :
    Shifted k id (lowerCall h site) (lowerCall h' site) := by
  match site with
  | ⟨id, text, target, dispatch, args, resultUsed, throws⟩ =>
    exact .bind (lowerArgs_shifted hagrees id 0 args) fun _ => placeCall_shifted hagrees _ _

/-- The arguments of a call are lowered with larger numbers. -/
theorem lowerArgs_shifted (hagrees : h.Agrees h') (site : CallSiteId) (position : Nat)
    (args : List (Argument CallSite)) : Shifted k (List.map (Slicing.shift k))
      (lowerArgs h site position args) (lowerArgs h' site position args) := by
  match args with
  | [] => exact .pure _ _
  | ⟨text, uses, calls, _⟩ :: args =>
    exact .bind (.newNode _ _) fun _ => .bind (lowerCalls_shifted hagrees calls) fun _ =>
      .bind (.place _) fun _ => .bind (lowerArgs_shifted hagrees site (position + 1) args) fun _ =>
      .pure _ _

/-- Calls are lowered with larger numbers. -/
theorem lowerCalls_shifted (hagrees : h.Agrees h') (sites : List CallSite) :
    Shifted k id (lowerCalls h sites) (lowerCalls h' sites) := by
  match sites with
  | [] => exact .pure _ _
  | site :: sites => exact .bind (lowerCall_shifted hagrees site) fun _ => lowerCalls_shifted hagrees sites

end

/-- A node with its effects is placed with larger numbers. -/
theorem placeWith_shifted (hagrees : h.Agrees h') (node : Node) (effects : Effects) :
    Shifted k (Prod.map (Slicing.shift k) (Slicing.shift k)) (placeWith h node effects)
      (placeWith h' (node.renumber (Slicing.shift k)) effects) := by
  rw [placeWith, placeWith]
  refine .get_bind fun s => .bind (lowerCalls_shifted hagrees _) fun _ => .bind (.place _) fun id =>
    .get_bind fun t => .bind (raiseAll_shifted hagrees id _) fun _ => ?_
  -- where the calls begin is remembered as a position
  have hhead : (t.shift k).graph.idAt (s.shift k).graph.size = Slicing.shift k (t.graph.idAt s.graph.size) := by
    rw [Lowering.shift, Lowering.shift, FlowGraph.size_renumber, FlowGraph.idAt_renumber]
  rw [hhead]
  exact .pure _ _

/-! ## Statements -/

theorem isEmpty_pending_shift (s : Lowering) : (s.shift k).pending.isEmpty = s.pending.isEmpty := by
  simp [Lowering.shift]

theorem breaks_renumber (scope : Scope) :
    (scope.renumber f).breaks = scope.breaks.map (·.renumber f) := by
  cases scope <;> rfl

theorem continues_renumber (scope : Scope) :
    (scope.renumber f).continues = scope.continues.map (·.renumber f) := by
  cases scope <;> rfl

theorem handlers_renumber (scope : Scope) :
    (scope.renumber f).handlers = scope.handlers.map (·.renumber f) := by
  cases scope <;> rfl

theorem escapes_renumber (scope : Scope) :
    (scope.renumber f).escapes = scope.escapes.map (Escape.renumber f) := by
  cases scope <;> rfl

theorem withoutHandlers_renumber (scope : Scope) :
    (scope.renumber f).withoutHandlers = scope.withoutHandlers.renumber f := by
  cases scope <;> rfl

/-- The rounds of a loop are lowered with larger numbers, if its body and its update are. -/
theorem lowerLoop_shifted (node head : NodeId) (enter : FlowKind) {body body' update update' : Lower Unit}
    (hbody : Shifted k id body body') (hupdate : Shifted k id update update') :
    Shifted k (List.map (·.renumber (Slicing.shift k))) (lowerLoop node head enter body update)
      (lowerLoop (Slicing.shift k node) (Slicing.shift k head) enter body' update') := by
  refine .bind (.setPending rfl) fun _ => .bind (.pushScope rfl) fun _ =>
    .bind hbody fun _ => .bind .popScope fun scope => ?_
  rw [breaks_renumber, continues_renumber]
  refine .bind (.addPending rfl) fun _ => .get_bind fun s => ?_
  -- with or without an update, the loop is closed in the same way
  have hclose : Shifted k (List.map (·.renumber (Slicing.shift k)))
      (do closeLoop head (← takePending); setPending scope.breaks; pure scope.breaks)
      (do
        closeLoop (Slicing.shift k head) (← takePending)
        setPending (scope.breaks.map (·.renumber (Slicing.shift k)))
        pure (scope.breaks.map (·.renumber (Slicing.shift k)))) :=
    .bind .takePending fun _ => .bind (.closeLoop _ _) fun _ => .bind (.setPending rfl) fun _ => .pure _ _
  rw [isEmpty_pending_shift]
  exact .ite Iff.rfl (.bind hupdate fun _ => hclose) hclose

/-- A loop with its test in front is lowered with larger numbers. -/
theorem lowerHeadedLoop_shifted (hagrees : h.Agrees h') (header : Node) (cond : Effects)
    {body body' update update' : Lower Unit} (hbody : Shifted k id body body')
    (hupdate : Shifted k id update update') :
    Shifted k id (lowerHeadedLoop h header cond body update)
      (lowerHeadedLoop h' (header.renumber (Slicing.shift k)) cond body' update') :=
  .bind (placeWith_shifted hagrees _ _) fun (head, node) =>
    .bind (lowerLoop_shifted node head _ hbody hupdate) fun _ => .addPending rfl

/-- A loop without a test is lowered with larger numbers. -/
theorem lowerEndlessLoop_shifted (source : Element) {body body' update update' : Lower Unit}
    (hbody : Shifted k id body body') (hupdate : Shifted k id update update') :
    Shifted k id (lowerEndlessLoop source body update) (lowerEndlessLoop source body' update') := by
  refine .bind (.newStmtNode _ _) fun _ => .bind (.place _) fun head =>
    .bind (lowerLoop_shifted head head _ hbody hupdate) fun breaks => .ite (by simp) (.modify fun s => ?_)
      (.pure _ _)
  simp [Lowering.shift]

/-- A loop with its test at the end is lowered with larger numbers. -/
theorem lowerFootedLoop_shifted (hagrees : h.Agrees h') (source : Element) (cond : Effects)
    {body body' : Lower Unit} (hbody : Shifted k id body body') :
    Shifted k id (lowerFootedLoop h source body cond) (lowerFootedLoop h' source body' cond) := by
  refine .get_bind fun s => .bind (.pushScope rfl) fun _ => .bind hbody fun _ =>
    .bind .popScope fun scope => .get_bind fun t => ?_
  rw [breaks_renumber, continues_renumber]
  refine .bind (.addPending rfl) fun _ => .get_bind fun u => .ite (by rw [isEmpty_pending_shift]) ?_ ?_
  · exact .bind (.skip _) fun _ => .setPending rfl
  · refine .bind (.newStmtNode _ _) fun _ => .bind (placeWith_shifted hagrees _ _) fun (condHead, node) =>
      .bind (.modifyGraph fun g => ?_) fun _ => .setPending rfl
    have hsize (u : Lowering) : (u.shift k).graph.size = u.graph.size := FlowGraph.size_renumber _
    simp only [hsize, FlowGraph.idAt_renumber]
    rw [← FlowGraph.addArc_renumber g (shift_injective k)]
    congr 1
    split <;> rfl

/-- A `finally` block is lowered, and sends on what came to it, with larger numbers. -/
theorem lowerFinalizer_shifted (hagrees : h.Agrees h') {block block' : Lower Unit}
    (hblock : Shifted k id block block') (normal : List Pending) (escapes : List (Pending × Escape)) :
    Shifted k id (lowerFinalizer h block normal escapes)
      (lowerFinalizer h' block' (normal.map (·.renumber (Slicing.shift k)))
        (escapes.map (Escape.renumber (Slicing.shift k)))) := by
  have hwaiting : (escapes.map (Escape.renumber (Slicing.shift k))).map (·.1) =
      (escapes.map (·.1)).map (·.renumber (Slicing.shift k)) := by
    rw [List.map_map, List.map_map]
    rfl
  have hkinds : (escapes.map (Escape.renumber (Slicing.shift k))).map (·.2) = escapes.map (·.2) := by
    rw [List.map_map]
    rfl
  rw [lowerFinalizer, lowerFinalizer, hwaiting, hkinds, ← List.map_append]
  refine .get_bind fun s => .bind (.setPending rfl) fun _ => .bind hblock fun _ => .get_bind fun t =>
    .ite ?_ ?_ ?_
  · rw [Lowering.shift, Lowering.shift, FlowGraph.size_renumber, FlowGraph.size_renumber]
  · -- an empty block: what came in normally is told from what escapes by comparing arcs
    refine .bind (.setPending ?_) fun _ => routeAll_shifted hagrees rfl
    rw [Lowering.shift, List.filter_map]
    simp only [comp_def, contains_map (Pending.renumber_injective (shift_injective k))]
  · refine .bind (.setPending ?_) fun _ => routeAll_shifted hagrees ?_
    · rw [List.isEmpty_map]
      split <;> rfl
    · rw [List.map_flatMap]
      refine List.flatMap_congr fun escape _ => ?_
      rw [Lowering.shift, List.map_map, List.map_map]
      cases escape <;> rfl

mutual

/-- A statement is lowered with larger numbers. -/
theorem lowerStmt_shifted (hagrees : h.Agrees h') (stmt : Stmt) :
    Shifted k id (lowerStmt h stmt) (lowerStmt h' stmt) := by
  rw [lowerStmt.eq_def, lowerStmt.eq_def]
  refine .get_bind fun s => .ite (by rw [isEmpty_pending_shift]) (.skip _) ?_
  match stmt with
  | .simple source effects =>
    exact .bind (.newStmtNode _ _) fun _ => .bind (placeWith_shifted hagrees _ _) fun _ => .pure _ _
  | .branch source cond thenBranch elseBranch =>
    exact .bind (.newStmtNode _ _) fun _ => .bind (placeWith_shifted hagrees _ _) fun (_, node) =>
      .bind (.setPending rfl) fun _ => .bind (lowerBlock_shifted hagrees thenBranch) fun _ =>
      .bind .takePending fun _ => .bind (.setPending rfl) fun _ =>
      .bind (lowerBlock_shifted hagrees elseBranch) fun _ => .addPending rfl
  | .whileLoop source cond body =>
    exact .bind (.newStmtNode _ _) fun _ =>
      lowerHeadedLoop_shifted hagrees _ _ (lowerBlock_shifted hagrees body) (.pure _ _)
  | .forEach source var iterable body =>
    exact .bind (.newStmtNode _ _) fun header => lowerHeadedLoop_shifted hagrees
      { header with defs := [var] } _ (lowerBlock_shifted hagrees body) (.pure _ _)
  | .doWhile source body cond =>
    exact lowerFootedLoop_shifted hagrees _ _ (lowerBlock_shifted hagrees body)
  | .forLoop source init cond update body =>
    refine .bind (lowerBlock_shifted hagrees init) fun _ => .get_bind fun s =>
      .ite (by rw [isEmpty_pending_shift]) ?_ (.pure _ _)
    have hbody := lowerBlock_shifted hagrees body
    have hupdate := lowerBlock_shifted hagrees update
    match cond with
    | some cond =>
      exact .bind (.newStmtNode _ _) fun _ => lowerHeadedLoop_shifted hagrees _ _ hbody hupdate
    | none => exact lowerEndlessLoop_shifted _ hbody hupdate
  | .select source selector cases =>
    refine .bind (.newStmtNode _ _) fun _ => .bind (placeWith_shifted hagrees _ _) fun (_, node) =>
      .bind (.pushScope rfl) fun _ => .bind (lowerCases_shifted hagrees source node [] cases)
      fun _ => .bind .popScope fun scope => .bind (.addPending (breaks_renumber scope)) fun _ =>
      .ite Iff.rfl (.addPending rfl) (.pure _ _)
  | .breakJump source | .continueJump source | .returnJump source none =>
    exact .bind (.newStmtNode _ _) fun _ => .bind (.place _) fun _ => jump_shifted hagrees _ _
  | .returnJump source (some value) =>
    exact .bind (.newStmtNode _ _) fun node =>
      .bind (placeWith_shifted hagrees { node with defs := [returnVar] } _) fun (_, _) =>
      jump_shifted hagrees _ _
  | .throwJump source exceptionType value =>
    exact .bind (.newStmtNode _ _) fun _ => .bind (placeWith_shifted hagrees _ _) fun (_, _) =>
      jump_shifted hagrees _ _
  | .tryBlock source body catches finalizer =>
    refine .bind (.pushScope ?_) fun _ => .bind (lowerBlock_shifted hagrees body) fun _ =>
      .bind .takePending fun afterBody => .bind .popScope fun scope =>
      .bind (.pushScope (withoutHandlers_renumber scope)) fun _ => ?_
    · rw [Scope.renumber, List.map_map]
      rfl
    · rw [handlers_renumber]
      refine .bind (lowerCatches_shifted hagrees scope.handlers catches) fun afterCatches =>
        .bind .popScope fun scope => ?_
      rw [← List.map_append, escapes_renumber]
      match finalizer with
      | none => exact .setPending rfl
      | some block => exact lowerFinalizer_shifted hagrees (lowerBlock_shifted hagrees block) _ _
  | .block source body => exact lowerBlock_shifted hagrees body

/-- A block is lowered with larger numbers. -/
theorem lowerBlock_shifted (hagrees : h.Agrees h') (stmts : List Stmt) :
    Shifted k id (lowerBlock h stmts) (lowerBlock h' stmts) := by
  match stmts with
  | [] => exact .pure _ _
  | stmt :: stmts =>
    exact .bind (lowerStmt_shifted hagrees stmt) fun _ => lowerBlock_shifted hagrees stmts

/-- The cases of a `switch` are lowered with larger numbers. -/
theorem lowerCases_shifted (hagrees : h.Agrees h') (source : Element) (selector : NodeId)
    (fallthrough : List Pending) (cases : List (SwitchCase Stmt)) :
    Shifted k id (lowerCases h source selector fallthrough cases)
      (lowerCases h' source (Slicing.shift k selector)
        (fallthrough.map (·.renumber (Slicing.shift k))) cases) := by
  match cases with
  | [] => exact .setPending rfl
  | ⟨id, label, body⟩ :: cases =>
    refine .bind (.setPending ?_) fun _ => .bind (.newNode _ _) fun node =>
      .bind (.place { node with element := some id, span := source.span }) fun _ =>
      .bind (lowerBlock_shifted hagrees body) fun _ => .bind .takePending fun _ =>
      lowerCases_shifted hagrees source selector _ cases
    rw [List.map_append]
    rfl

/-- Catch clauses are lowered with larger numbers. -/
theorem lowerCatches_shifted (hagrees : h.Agrees h') (handlers : List Handler)
    (clauses : List (CatchClause Stmt)) :
    Shifted k (List.map (·.renumber (Slicing.shift k))) (lowerCatches h handlers clauses)
      (lowerCatches h' (handlers.map (·.renumber (Slicing.shift k))) clauses) := by
  match clauses with
  | [] => exact .pure _ _
  | ⟨id, exceptionType, var, body⟩ :: clauses =>
    match handlers with
    | [] => exact .pure _ _
    | handler :: handlers =>
      refine .ite ?_ (.bind (.skip _) fun _ => lowerCatches_shifted hagrees handlers clauses) ?_
      · exact Iff.of_eq (congrArg (· = true) List.isEmpty_map)
      · refine .bind (.setPending rfl) fun _ => .bind (.newNode _ _) fun node =>
          .bind (.place { node with element := some id, defs := [var] }) fun _ =>
          .bind (lowerBlock_shifted hagrees body) fun _ => .bind .takePending fun after =>
          .bind (lowerCatches_shifted hagrees handlers clauses) fun rest => ?_
        rw [← List.map_append]
        exact .pure _ _

end

/-! ## Callables -/

/-- The formal-ins are placed with larger numbers. -/
theorem placeFormalIns_shifted (params : List Param) (position : Nat) :
    Shifted k id (placeFormalIns position params) (placeFormalIns position params) := by
  induction params generalizing position with
  | nil => exact .pure _ _
  | cons param params ih =>
    refine .bind (.newNode _ _) fun node => .bind (.place { node with defs := [param.name] }) fun _ =>
      .bind (.modifyGraph fun g => ?_) fun _ => ih _
    simp [FlowGraph.renumber]

/-- A formal-out is placed with a larger number. -/
theorem placeFormalOut_shifted (slot : OutputSlot) (text var : String) :
    Shifted k id (placeFormalOut slot text var) (placeFormalOut slot text var) := by
  refine .bind (.newNode _ _) fun node => .bind (.place { node with uses := [var] }) fun _ =>
    .modifyGraph fun g => ?_
  simp [FlowGraph.renumber]

/-- The formal-outs for parameters are placed with larger numbers. -/
theorem placeWrittenParams_shifted (params : List Param) (position : Nat) :
    Shifted k id (placeWrittenParams position params) (placeWrittenParams position params) := by
  induction params generalizing position with
  | nil => exact .pure _ _
  | cons param params ih =>
    exact .ite Iff.rfl (.bind (placeFormalOut_shifted _ _ _) fun _ => ih _) (ih _)

/-- The exit head is found under other numbers. -/
theorem headed_renumber (hf : Injective f) (g : FlowGraph) :
    headed (g.renumber f) = (headed g).renumber f := by
  have houts : (g.renumber f).formalOuts = g.formalOuts.map (Prod.map id f) := rfl
  rw [headed, houts, headed]
  match g.formalOuts with
  | [] => rfl
  | (_, head) :: _ => exact FlowGraph.setExitHead_renumber g hf head

/-- Loops are flagged under other numbers. -/
theorem flagged_renumber (hf : Injective f) (g : FlowGraph) (heads : List NodeId) :
    (flagged (g.renumber f) (heads.map f)).nonTerminating = (flagged g heads).nonTerminating.map f := by
  rw [flagged, flagged, List.filter_map]
  simp only [comp_def, FlowGraph.position?_renumber g hf, FlowGraph.reaching_renumber g hf]

/-- A callable is finished with larger numbers. -/
theorem finish_shifted (decl : CallableDecl) : Shifted k id (finish decl) (finish decl) := by
  have hleave : Shifted k id (leave decl.params) (leave decl.params) := by
    refine .bind (placeWrittenParams_shifted _ _) fun _ => .bind .takePending fun tails =>
      .bind (.modifyGraph fun g => ?_) fun _ =>
      .bind (.modifyGraph fun g => headed_renumber (shift_injective k) g) fun _ => .get_bind fun s =>
      .modifyGraph fun g => ?_
    · exact FlowGraph.foldl_renumber (fun g p =>
        FlowGraph.addArc_renumber g (shift_injective k) p.source g.exit.id p.edge) g tails
    · exact congrArg (fun heads => { g.renumber (Slicing.shift k) with nonTerminating := heads })
        (flagged_renumber (shift_injective k) s.graph s.loopHeads)
  rw [finish_eq]
  exact .get_bind fun s => .bind (.addPending rfl) fun _ =>
    .ite Iff.rfl (.bind (placeFormalOut_shifted _ _ _) fun _ => hleave) hleave

/-- A callable is lowered with larger numbers. -/
theorem lowerCallable_shifted (hagrees : h.Agrees h') (decl : CallableDecl) (body : List Stmt) :
    Shifted k id (lowerCallable h decl body) (lowerCallable h' decl body) :=
  .bind (placeFormalIns_shifted _ _) fun _ => .bind (lowerBlock_shifted hagrees body) fun _ =>
    finish_shifted decl

/-- Larger numbers come from a later start. -/
theorem start_shift (decl : CallableDecl) (n k : Nat) : (start decl n).shift k = start decl (n + k) := by
  simp [start, Lowering.shift, FlowGraph.ofDecl, FlowGraph.renumber, Node.renumber, Pending.renumber,
    Pending.plain, Slicing.shift, Nat.add_right_comm]

end Lowering

/-- The flow graph of a callable from a larger number on is the same up to its numbers. -/
theorem FlowGraph.build_shift (hagrees : h.Agrees h') (decl : CallableDecl) (n k : Nat) :
    build h' decl (n + k) =
      (renumbered (shift k) (·.renumber (shift k)) (build h decl n).1, (build h decl n).2 + k) := by
  cases hbody : decl.body with
  | none =>
    have hdecl : ofDecl decl (n + k) = (ofDecl decl n).renumber (shift k) := by
      simp [ofDecl, renumber, Node.renumber, shift, Nat.add_right_comm]
    have harc := addArc_renumber (ofDecl decl n) (shift_injective k) (ofDecl decl n).entry.id
      (ofDecl decl n).exit.id ⟨.unconditional, none⟩
    simp only [build, hbody, hdecl, Nat.add_right_comm n 2 k]
    exact congrArg (fun g => (Except.ok g, n + k + 2)) harc
  | some body =>
    rw [build_eq h' hbody, build_eq h hbody, ← Lowering.start_shift, Lowering.lowerCallable_shifted hagrees decl body]
    cases Lowering.lowerCallable h decl body (Lowering.start decl n) <;> rfl

end Slicing
