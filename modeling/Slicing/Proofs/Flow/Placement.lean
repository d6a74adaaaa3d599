import Slicing.Proofs.Flow.Stages

/-!
# Jumps in their place

Lowering fails only on a `break` or `continue` that nothing takes in. Whether this can
happen is seen in the statements alone (`jumpsPlaced`): a `break` belongs into a loop or
`switch`, and a `continue` into a loop.

A step is *safe* (`Safe`) if it succeeds wherever the jumps in it are welcome. A jump that
waits for a `finally` block is sent on from outside of its `try`, and has to be welcome
there (`Settled`). This is preserved when ways out are delivered (`Settled.deliver`), and
so lowering is safe by recursion on the statements (`lowerBlock_safe`). What is built is
well formed, so that nothing else can go wrong within a callable (`build_accepted`).
-/

namespace Slicing

/-! ## Where jumps may stand -/

mutual

/-- Each `break` in a statement is in a loop or `switch`, in the statement or around it,
    and each `continue` in a loop. -/
def Stmt.jumpsPlaced (inSwitch inLoop : Bool) : Stmt → Bool
  | .simple .. | .returnJump .. | .throwJump .. => true
  | .breakJump _ => inSwitch || inLoop
  | .continueJump _ => inLoop
  | .branch _ _ thenBranch elseBranch =>
    blockJumpsPlaced inSwitch inLoop thenBranch && blockJumpsPlaced inSwitch inLoop elseBranch
  | .whileLoop _ _ body | .doWhile _ body _ | .forEach _ _ _ body =>
    blockJumpsPlaced inSwitch true body
  | .forLoop _ init _ update body =>
    blockJumpsPlaced inSwitch inLoop init && blockJumpsPlaced inSwitch true body &&
      blockJumpsPlaced inSwitch inLoop update
  | .select _ _ cases => casesJumpsPlaced inLoop cases
  | .tryBlock _ body catches none =>
    blockJumpsPlaced inSwitch inLoop body && catchesJumpsPlaced inSwitch inLoop catches
  | .tryBlock _ body catches (some finalizer) =>
    blockJumpsPlaced inSwitch inLoop body && catchesJumpsPlaced inSwitch inLoop catches &&
      blockJumpsPlaced inSwitch inLoop finalizer
  | .block _ body => blockJumpsPlaced inSwitch inLoop body

/-- The jumps in the statements of a block are in their place. -/
def blockJumpsPlaced (inSwitch inLoop : Bool) : List Stmt → Bool
  | [] => true
  | stmt :: stmts =>
    stmt.jumpsPlaced inSwitch inLoop && blockJumpsPlaced inSwitch inLoop stmts

/-- The jumps in the cases of a `switch` are in their place. -/
def casesJumpsPlaced (inLoop : Bool) : List (SwitchCase Stmt) → Bool
  | [] => true
  | ⟨_, _, body⟩ :: cases => blockJumpsPlaced true inLoop body && casesJumpsPlaced inLoop cases

/-- The jumps in the catch clauses of a `try` are in their place. -/
def catchesJumpsPlaced (inSwitch inLoop : Bool) : List (CatchClause Stmt) → Bool
  | [] => true
  | ⟨_, _, _, body⟩ :: clauses =>
    blockJumpsPlaced inSwitch inLoop body && catchesJumpsPlaced inSwitch inLoop clauses

end

/-- The jumps in a callable are in their place. -/
def CallableDecl.jumpsPlaced (decl : CallableDecl) : Bool :=
  match decl.body with
  | none => true
  | some body => blockJumpsPlaced false false body

/-! ## Jumps that are welcome -/

namespace Scope

/-- A `break` ends here. -/
def takesBreak : Scope → Bool
  | .loop .. | .select _ => true
  | .tryBlock .. => false

/-- A `continue` ends here. -/
def takesContinue : Scope → Bool
  | .loop .. => true
  | .select _ | .tryBlock .. => false

/-- Which jumps end at statements, the innermost first. -/
def shape (scopes : List Scope) : List (Bool × Bool) :=
  scopes.map fun scope => (scope.takesBreak, scope.takesContinue)

/-- A way out ends at one of some statements, or at the end of the callable. -/
def Welcome (scopes : List Scope) : Escape → Prop
  | .breakJump => scopes.any takesBreak
  | .continueJump => scopes.any takesContinue
  | .returnJump | .throwJump _ => True

/-- What waits for `finally` blocks is welcome outside of them. -/
def Settled : List Scope → Prop
  | [] => True
  | scope :: outer => (∀ e ∈ scope.escapes, Welcome outer e.2) ∧ Settled outer

variable {h : Hierarchy} {p : Pending} {escape : Escape} {scope : Scope}
  {scopes scopes' outer : List Scope}

/-- What is welcome depends on the shape of the statements around only. -/
theorem Welcome.of_shape (hs : shape scopes' = shape scopes) (hw : Welcome scopes escape) :
    Welcome scopes' escape := by
  have hany (f : Bool × Bool → Bool) :
      (scopes'.any fun scope => f (scope.takesBreak, scope.takesContinue)) =
        scopes.any fun scope => f (scope.takesBreak, scope.takesContinue) := by
    have := congrArg (·.any f) hs
    simpa only [shape, List.any_map, Function.comp_def] using this
  match escape with
  | .breakJump => exact (hany Prod.fst).trans hw
  | .continueJump => exact (hany Prod.snd).trans hw
  | .returnJump => trivial
  | .throwJump _ => trivial

theorem Grows.shape_eq {P : Pending → Prop} (hg : List.Forall₂ (Grows P) scopes scopes') :
    shape scopes' = shape scopes := by
  induction hg with
  | nil => rfl
  | cons hfirst _ ih =>
    rw [shape, List.map_cons, ← shape, ih]
    cases hfirst <;> rfl

/-- A way out that is delivered leaves the shape of the statements around. -/
theorem shape_deliver : shape (deliver h p escape scopes).1 = shape scopes :=
  Grows.shape_eq (deliver_grows h p escape scopes)

/-- A way out that a statement does not take in is welcome further out. -/
theorem Welcome.further (hw : Welcome (scope :: outer) escape)
    (ht : (scope.take h p escape).2 = false) : Welcome outer escape := by
  cases scope with
  | loop => cases escape <;> simp_all [Scope.take, Welcome, takesBreak, takesContinue]
  | select => cases escape <;> simp_all [Scope.take, Welcome, takesBreak, takesContinue]
  | tryBlock => cases escape <;> exact hw

/-- What a statement keeps for its `finally` block is welcome further out. -/
theorem Welcome.kept (hw : Welcome (scope :: outer) escape) {e : Pending × Escape}
    (he : e ∈ (scope.take h p escape).1.escapes) : e ∈ scope.escapes ∨ Welcome outer e.2 := by
  cases scope with
  | loop => cases escape <;> simp [Scope.take, Scope.escapes] at he
  | select => cases escape <;> simp [Scope.take, Scope.escapes] at he
  | tryBlock handlers hasFinalizer escapes =>
    have hout : Welcome outer escape := by
      cases escape <;> exact hw
    -- the scope keeps at most the way out itself, next to what it had
    have key (offered : List Handler × Bool)
        (he : e ∈ (if offered.2 then (Scope.tryBlock offered.1 hasFinalizer escapes, true)
          else if hasFinalizer then
            (.tryBlock offered.1 hasFinalizer (escapes ++ [(p, escape)]), true)
          else (.tryBlock offered.1 hasFinalizer escapes, false)).1.escapes) :
        e ∈ escapes ++ [(p, escape)] := by
      split at he
      · exact List.mem_append_left _ he
      · split at he
        exacts [he, List.mem_append_left _ he]
    have hsub : e ∈ escapes ++ [(p, escape)] := by
      cases escape with
      | throwJump exceptionType => exact key (offer h exceptionType p handlers) he
      | breakJump => exact key (handlers, false) he
      | continueJump => exact key (handlers, false) he
      | returnJump => exact key (handlers, false) he
    rcases List.mem_append.1 hsub with he | he
    · exact .inl he
    · exact .inr (by rw [List.mem_singleton.1 he]; exact hout)

/-- A jump that is welcome ends somewhere. -/
theorem Welcome.taken (hw : Welcome scopes escape)
    (hjump : escape = .breakJump ∨ escape = .continueJump) :
    (deliver h p escape scopes).2 = true := by
  induction scopes with
  | nil => rcases hjump with rfl | rfl <;> simp [Welcome] at hw
  | cons scope outer ih =>
    unfold deliver
    split
    · rfl
    · rename_i scope' htake
      exact ih (hw.further (congrArg Prod.snd htake))

/-- A way out that is welcome outside may be delivered. -/
theorem Settled.deliver (hs : Settled scopes) (hw : Welcome scopes escape) :
    Settled (deliver h p escape scopes).1 := by
  induction scopes with
  | nil => trivial
  | cons scope outer ih =>
    unfold Slicing.deliver
    have hkept {e : Pending × Escape} := hw.kept (h := h) (p := p) (e := e)
    split
    · rename_i scope' htake
      rw [htake] at hkept
      exact ⟨fun e he => (hkept he).elim (hs.1 e) id, hs.2⟩
    · rename_i scope' htake
      rw [htake] at hkept
      refine ⟨fun e he => ?_, ih hs.2 (hw.further (congrArg Prod.snd htake))⟩
      exact ((hkept he).elim (hs.1 e) id).of_shape shape_deliver

end Scope

namespace Lowering

open Scope

variable {α β : Type} {h : Hierarchy} {s s' : Lowering} {inSwitch inLoop : Bool}

/-! ## Safe steps -/

/-- The jumps that are in their place are welcome. -/
def Allows (inSwitch inLoop : Bool) (scopes : List Scope) : Prop :=
  (inSwitch || inLoop → Welcome scopes .breakJump) ∧ (inLoop → Welcome scopes .continueJump)

/-- A step succeeds where the jumps in it are welcome, and leaves the statements around
    it with what they take in. -/
def Safe (inSwitch inLoop : Bool) (m : Lower α) : Prop :=
  ∀ s, Allows inSwitch inLoop s.scopes → Settled s.scopes →
    ∃ a s', m s = .ok a s' ∧ shape s'.scopes = shape s.scopes ∧ Settled s'.scopes

/-- What is allowed depends on the shape of the statements around only. -/
theorem Allows.of_shape {scopes scopes' : List Scope} (hs : shape scopes' = shape scopes)
    (ha : Allows inSwitch inLoop scopes) : Allows inSwitch inLoop scopes' :=
  ⟨fun hb => (ha.1 hb).of_shape hs, fun hl => (ha.2 hl).of_shape hs⟩

namespace Safe

theorem pure (a : α) : Safe inSwitch inLoop (pure a : Lower α) :=
  fun s _ hs => ⟨a, s, rfl, rfl, hs⟩

/-- Steps in order are safe. -/
theorem bind {m : Lower α} {f : α → Lower β} (hm : Safe inSwitch inLoop m)
    (hf : ∀ a, Safe inSwitch inLoop (f a)) : Safe inSwitch inLoop (m >>= f) := by
  intro s ha hs
  obtain ⟨a, t, hrun, hshape, ht⟩ := hm s ha hs
  obtain ⟨b, u, hrun', hshape', hu⟩ := hf a t (ha.of_shape hshape) ht
  exact ⟨b, u, bind_eq_ok.2 ⟨a, t, hrun, hrun'⟩, hshape'.trans hshape, hu⟩

theorem ite {p : Prop} [Decidable p] {m m' : Lower α} (hm : Safe inSwitch inLoop m)
    (hm' : Safe inSwitch inLoop m') : Safe inSwitch inLoop (if p then m else m') := by
  split
  exacts [hm, hm']

/-- A step that has nothing to do with the statements around it. -/
theorem of_scopes {m : Lower α} (hm : ∀ s, ∃ a s', m s = .ok a s' ∧ s'.scopes = s.scopes) :
    Safe inSwitch inLoop m := by
  intro s _ hs
  obtain ⟨a, s', hrun, hscopes⟩ := hm s
  exact ⟨a, s', hrun, by rw [hscopes], by rw [hscopes]; exact hs⟩

theorem get : Safe inSwitch inLoop (get : Lower Lowering) := of_scopes fun s => ⟨s, s, rfl, rfl⟩

theorem modifyGraph (f : FlowGraph → FlowGraph) : Safe inSwitch inLoop (modifyGraph f) :=
  of_scopes fun _ => ⟨_, _, rfl, rfl⟩

theorem setPending (ps : List Pending) : Safe inSwitch inLoop (setPending ps) :=
  of_scopes fun _ => ⟨_, _, rfl, rfl⟩

theorem addPending (ps : List Pending) : Safe inSwitch inLoop (addPending ps) :=
  of_scopes fun _ => ⟨_, _, rfl, rfl⟩

theorem takePending : Safe inSwitch inLoop takePending := of_scopes fun _ => ⟨_, _, rfl, rfl⟩

theorem newNode (kind : NodeKind) (text : String) : Safe inSwitch inLoop (newNode kind text) :=
  of_scopes fun _ => ⟨_, _, rfl, rfl⟩

theorem newStmtNode (kind : NodeKind) (source : Element) :
    Safe inSwitch inLoop (newStmtNode kind source) :=
  of_scopes fun _ => ⟨_, _, rfl, rfl⟩

theorem place (node : Node) : Safe inSwitch inLoop (place node) :=
  of_scopes fun _ => ⟨_, _, rfl, rfl⟩

end Safe

/-! ## Ways out -/

theorem sent_shape (h : Hierarchy) (s : Lowering) (p : Pending) (escape : Escape) :
    shape (s.sent h p escape).scopes = shape s.scopes :=
  shape_deliver

/-- A way out that is welcome is sent. -/
theorem route_ok {p : Pending} {escape : Escape} (hw : Welcome s.scopes escape) :
    route h p escape s = .ok () (s.sent h p escape) := by
  refine route_eq_ok.2 ⟨?_, rfl⟩
  by_cases hjump : escape = .breakJump ∨ escape = .continueJump
  · exact .inl (hw.taken hjump)
  · exact .inr (not_or.1 hjump)

/-- Ways out that are welcome are all sent. -/
theorem routeAll_welcome (h : Hierarchy) (escapes : List (Pending × Escape))
    (hw : ∀ e ∈ escapes, Welcome s.scopes e.2) (hs : Settled s.scopes) :
    ∃ s', routeAll h escapes s = .ok () s' ∧ shape s'.scopes = shape s.scopes ∧
      Settled s'.scopes := by
  induction escapes generalizing s with
  | nil => exact ⟨s, rfl, rfl, hs⟩
  | cons e escapes ih =>
    have hfirst := hw e List.mem_cons_self
    have hshape := sent_shape h s e.1 e.2
    obtain ⟨s', hrun, hshape', hs'⟩ := ih (s := s.sent h e.1 e.2)
      (fun e' he' => (hw e' (List.mem_cons_of_mem _ he')).of_shape hshape) (hs.deliver hfirst)
    refine ⟨s', ?_, hshape'.trans hshape, hs'⟩
    exact bind_eq_ok.2 ⟨(), _, route_ok hfirst, hrun⟩

theorem raiseAll_safe (node : NodeId) (exceptionTypes : List String) :
    Safe inSwitch inLoop (raiseAll h node exceptionTypes) := by
  intro s _ hs
  obtain ⟨s', hrun⟩ := routeAll_welcome h (raises node exceptionTypes) (s := s) (fun e he => by
    obtain ⟨exceptionType, -, rfl⟩ := List.mem_map.1 he
    trivial) hs
  exact ⟨(), s', hrun⟩

/-- A jump in its place. -/
theorem jump_safe (node : NodeId) {escape : Escape}
    (hw : ∀ scopes, Allows inSwitch inLoop scopes → Welcome scopes escape) :
    Safe inSwitch inLoop (jump h node escape) := by
  refine .bind (.setPending []) fun _ s ha hs => ?_
  exact ⟨(), _, route_ok (hw _ ha), sent_shape .., hs.deliver (hw _ ha)⟩

/-! ## Calls -/

theorem placeActualOut_safe (site : CallSite) (slot : OutputSlot) (var : String) :
    Safe inSwitch inLoop (placeActualOut site slot var) :=
  .bind (.newNode _ _) fun _ => .bind (.place _) fun _ => .pure _

/-- Handing back values in arguments is safe. -/
theorem placeWrittenArgs_safe (site : CallSite) (passing : List Passing)
    (args : List (Argument CallSite)) (position : Nat) :
    Safe inSwitch inLoop (placeWrittenArgs site passing position args) := by
  induction args generalizing position with
  | nil => exact .pure _
  | cons arg args ih =>
    unfold placeWrittenArgs
    split
    · exact .bind (placeActualOut_safe _ _ _) fun _ => .bind (ih _) fun _ => .pure _
    · exact ih _

theorem placeCall_safe (site : CallSite) (actualIns : List NodeId) :
    Safe inSwitch inLoop (placeCall h site actualIns) := by
  refine .bind (.newNode _ _) fun _ => .bind (.place _) fun _ => .bind (raiseAll_safe _ _) fun _ =>
    .bind ?_ fun _ => .bind (placeWrittenArgs_safe _ _ _ _) fun _ => .modifyGraph _
  exact .ite (.bind (placeActualOut_safe _ _ _) fun _ => .pure _) (.pure _)

mutual

/-- Lowering a call is safe. -/
theorem lowerCall_safe (h : Hierarchy) (site : CallSite) :
    Safe inSwitch inLoop (lowerCall h site) := by
  match site with
  | ⟨id, text, target, dispatch, args, resultUsed, throws⟩ =>
    exact .bind (lowerArgs_safe h id 0 args) fun _ => placeCall_safe _ _

theorem lowerArgs_safe (h : Hierarchy) (site : CallSiteId) (position : Nat)
    (args : List (Argument CallSite)) : Safe inSwitch inLoop (lowerArgs h site position args) := by
  match args with
  | [] => exact .pure _
  | ⟨text, uses, calls, _⟩ :: args =>
    exact .bind (.newNode _ _) fun _ => .bind (lowerCalls_safe h calls) fun _ =>
      .bind (.place _) fun _ => .bind (lowerArgs_safe h site (position + 1) args) fun _ => .pure _

theorem lowerCalls_safe (h : Hierarchy) (sites : List CallSite) :
    Safe inSwitch inLoop (lowerCalls h sites) := by
  match sites with
  | [] => exact .pure _
  | site :: sites => exact .bind (lowerCall_safe h site) fun _ => lowerCalls_safe h sites

end

/-- Placing a construct is safe. -/
theorem placeWith_safe (node : Node) (effects : Effects) :
    Safe inSwitch inLoop (placeWith h node effects) :=
  .bind .get fun _ => .bind (lowerCalls_safe h effects.calls) fun _ => .bind (.place _) fun _ =>
    .bind .get fun _ => .bind (raiseAll_safe _ _) fun _ => .pure _

/-! ## Statements around -/

/-- In a loop all jumps are allowed. -/
theorem allows_loop {scopes : List Scope} (breaks continues : List Pending) :
    Allows inSwitch true (.loop breaks continues :: scopes) :=
  ⟨fun _ => rfl, fun _ => rfl⟩

/-- What is allowed around a statement is allowed inside. -/
theorem Allows.cons {scopes : List Scope} (scope : Scope) (ha : Allows inSwitch inLoop scopes) :
    Allows inSwitch inLoop (scope :: scopes) :=
  ⟨fun hb => by simp [Welcome, show scopes.any takesBreak = true from ha.1 hb],
    fun hl => by simp [Welcome, show scopes.any takesContinue = true from ha.2 hl]⟩

/-- In a `switch` a `break` is allowed. -/
theorem allows_select {scopes : List Scope} (breaks : List Pending)
    (ha : Allows inSwitch inLoop scopes) : Allows true inLoop (.select breaks :: scopes) :=
  ⟨fun _ => rfl, (ha.cons _).2⟩

/-- A step inside of a statement, and what is left when the statement is. -/
theorem Safe.inside {inSwitch' inLoop' : Bool} {m : Lower α} (hm : Safe inSwitch' inLoop' m)
    {scope : Scope} (ha : Allows inSwitch' inLoop' (scope :: s.scopes))
    (hs : Settled (scope :: s.scopes)) :
    ∃ a t, m (s.entered scope) = .ok a t ∧ shape t.left.scopes = shape s.scopes ∧
      Settled t.left.scopes ∧ ∀ e ∈ t.innermost.escapes, Welcome t.left.scopes e.2 := by
  obtain ⟨a, t, hrun, hshape, ht⟩ := hm (s.entered scope) ha hs
  refine ⟨a, t, hrun, ?_⟩
  rw [left_scopes, innermost]
  cases hscopes : t.scopes with
  | nil => simp [hscopes, shape] at hshape
  | cons scope' outer =>
    rw [hscopes] at hshape ht
    exact ⟨(List.cons.inj hshape).2, ht.2, ht.1⟩

theorem settled_plain {scope : Scope} {scopes : List Scope} (he : scope.escapes = [])
    (hs : Settled scopes) : Settled (scope :: scopes) :=
  ⟨by simp [he], hs⟩

/-- Behind a statement, a safe step goes on. -/
theorem Safe.behind {m : Lower α} (hm : Safe inSwitch inLoop m) {t : Lowering}
    (ha : Allows inSwitch inLoop s.scopes) (hshape : shape t.scopes = shape s.scopes)
    (ht : Settled t.scopes) :
    ∃ a s', m t = .ok a s' ∧ shape s'.scopes = shape s.scopes ∧ Settled s'.scopes := by
  obtain ⟨a, s', hrun, hshape', hs'⟩ := hm t (ha.of_shape hshape) ht
  exact ⟨a, s', hrun, hshape'.trans hshape, hs'⟩

/-- The rounds of a loop are safe, if the body is safe in a loop. -/
theorem lowerLoop_safe (node head : NodeId) (enter : FlowKind) {body update : Lower Unit}
    (hbody : Safe inSwitch true body) (hupdate : Safe inSwitch inLoop update) :
    Safe inSwitch inLoop (lowerLoop node head enter body update) := by
  intro s ha hs
  obtain ⟨_, t, hrun, hshape, ht, -⟩ := hbody.inside (s := s.withPending [.plain node enter])
    (allows_loop [] []) (settled_plain rfl hs)
  have hclose : Safe inSwitch inLoop (do
      closeLoop head (← takePending)
      setPending t.innermost.breaks
      pure t.innermost.breaks) :=
    .bind .takePending fun _ => .bind (.modifyGraph _) fun _ => .bind (.setPending _) fun _ =>
      .pure _
  have hrest : Safe inSwitch inLoop (do
      addPending t.innermost.continues
      if !(← get).pending.isEmpty then update
      closeLoop head (← takePending)
      setPending t.innermost.breaks
      pure t.innermost.breaks) :=
    .bind (.addPending _) fun _ => .bind .get fun _ => .ite (.bind hupdate fun _ => hclose) hclose
  obtain ⟨a, s', hrun', hs'⟩ := hrest.behind ha hshape ht
  refine ⟨a, s', ?_, hs'⟩
  exact bind_eq_ok.2 ⟨(), _, rfl, bind_eq_ok.2 ⟨(), _, rfl, bind_eq_ok.2 ⟨_, t, hrun,
    bind_eq_ok.2 ⟨_, _, popScope_apply t, hrun'⟩⟩⟩⟩

/-- A loop with a test in front is safe. -/
theorem lowerHeadedLoop_safe (header : Node) (cond : Effects) {body update : Lower Unit}
    (hbody : Safe inSwitch true body) (hupdate : Safe inSwitch inLoop update) :
    Safe inSwitch inLoop (lowerHeadedLoop h header cond body update) :=
  .bind (placeWith_safe _ _) fun _ => .bind (lowerLoop_safe _ _ _ hbody hupdate) fun _ =>
    .addPending _

theorem lowerEndlessLoop_safe (source : Element) {body update : Lower Unit}
    (hbody : Safe inSwitch true body) (hupdate : Safe inSwitch inLoop update) :
    Safe inSwitch inLoop (lowerEndlessLoop source body update) :=
  .bind (.newStmtNode _ _) fun _ => .bind (.place _) fun _ =>
    .bind (lowerLoop_safe _ _ _ hbody hupdate) fun _ =>
      .ite (.of_scopes fun _ => ⟨_, _, rfl, rfl⟩) (.pure _)

/-- A loop with its test behind is safe. -/
theorem lowerFootedLoop_safe (source : Element) (cond : Effects) {body : Lower Unit}
    (hbody : Safe inSwitch true body) :
    Safe inSwitch inLoop (lowerFootedLoop h source body cond) := by
  intro s ha hs
  obtain ⟨_, t, hrun, hshape, ht, -⟩ := hbody.inside (s := s) (allows_loop [] [])
    (settled_plain rfl hs)
  have hrest : Safe inSwitch inLoop (do
      let placed := s.graph.size < (← get).graph.size
      addPending t.innermost.continues
      if (← get).pending.isEmpty then
        skip source.id
        setPending t.innermost.breaks
      else
        let ends ← placeWith h (← newStmtNode .predicate source) cond
        modifyGraph fun g =>
          g.addArc ends.2 (if placed then g.idAt s.graph.size else ends.1) ⟨.loopBack, none⟩
        setPending (.plain ends.2 .falseBranch :: t.innermost.breaks)) :=
    .bind .get fun _ => .bind (.addPending _) fun _ => .bind .get fun _ =>
      .ite (.bind (.modifyGraph _) fun _ => .setPending _)
        (.bind (.newStmtNode _ _) fun _ => .bind (placeWith_safe _ _) fun _ =>
          .bind (.modifyGraph _) fun _ => .setPending _)
  obtain ⟨a, s', hrun', hs'⟩ := hrest.behind ha hshape ht
  refine ⟨a, s', ?_, hs'⟩
  exact bind_eq_ok.2 ⟨s, s, rfl, bind_eq_ok.2 ⟨(), _, rfl, bind_eq_ok.2 ⟨_, t, hrun,
    bind_eq_ok.2 ⟨_, _, popScope_apply t, hrun'⟩⟩⟩⟩

/-- What has left a `try` is sent on behind its `finally` block. -/
theorem lowerFinalizer_safe {block : Lower Unit} (hblock : Safe inSwitch inLoop block)
    (normal : List Pending) (escapes : List (Pending × Escape))
    (ha : Allows inSwitch inLoop s.scopes) (hs : Settled s.scopes)
    (hw : ∀ e ∈ escapes, Welcome s.scopes e.2) :
    ∃ a s', lowerFinalizer h block normal escapes s = .ok a s' ∧
      shape s'.scopes = shape s.scopes ∧ Settled s'.scopes := by
  obtain ⟨_, t, hrun, hshape, ht⟩ := hblock (s.withPending (normal ++ escapes.map (·.1))) ha hs
  -- what left the body was welcome further out, so all of it can be sent on
  have hroute (ps : List Pending) (escapes' : List (Pending × Escape))
      (hsub : ∀ e ∈ escapes', e.2 ∈ escapes.map (·.2)) :
      ∃ s', routeAll h escapes' (t.withPending ps) = .ok () s' ∧
        shape s'.scopes = shape s.scopes ∧ Settled s'.scopes := by
    obtain ⟨s', hrun', hshape', hs'⟩ := routeAll_welcome h escapes' (s := t.withPending ps)
      (fun e he => by
        obtain ⟨e', he', heq⟩ := List.mem_map.1 (hsub e he)
        exact (heq ▸ hw e' he').of_shape hshape) ht
    exact ⟨s', hrun', hshape'.trans hshape, hs'⟩
  have hend : ∃ s', (if t.graph.size = s.graph.size then do
        setPending (t.pending.filter fun p => !(escapes.map (·.1)).contains p)
        routeAll h escapes
      else do
        setPending (if normal.isEmpty then [] else t.pending)
        routeAll h (redirected escapes t.pending) : Lower Unit) t = .ok () s' ∧
      shape s'.scopes = shape s.scopes ∧ Settled s'.scopes := by
    split
    · obtain ⟨s', hrun', hs'⟩ := hroute _ escapes fun e he => List.mem_map_of_mem he
      exact ⟨s', bind_eq_ok.2 ⟨(), _, rfl, hrun'⟩, hs'⟩
    · obtain ⟨s', hrun', hs'⟩ := hroute _ (redirected escapes t.pending) fun e he =>
        (mem_redirected he).1
      exact ⟨s', bind_eq_ok.2 ⟨(), _, rfl, hrun'⟩, hs'⟩
  obtain ⟨s', hrun', hs'⟩ := hend
  exact ⟨(), s', bind_eq_ok.2 ⟨s, s, rfl, bind_eq_ok.2 ⟨(), _, rfl, bind_eq_ok.2 ⟨_, t, hrun,
    bind_eq_ok.2 ⟨t, t, rfl, hrun'⟩⟩⟩⟩, hs'⟩

/-- A `switch` is safe, if its cases are safe in a `switch`. -/
theorem lowerSelect_safe {cases : Lower Unit} (hcases : Safe true inLoop cases) (arcs : List Pending)
    (skips : Bool) : Safe inSwitch inLoop (do
      pushScope (.select [])
      cases
      let scope ← popScope
      addPending scope.breaks
      if skips then addPending arcs) := by
  intro s ha hs
  obtain ⟨_, t, hrun, hshape, ht, -⟩ := hcases.inside (s := s) (allows_select [] ha)
    (settled_plain rfl hs)
  have hrest : Safe inSwitch inLoop (do
      addPending t.innermost.breaks
      if skips then addPending arcs) :=
    .bind (.addPending _) fun _ => .ite (.addPending _) (.pure _)
  obtain ⟨a, s', hrun', hs'⟩ := hrest.behind ha hshape ht
  refine ⟨a, s', ?_, hs'⟩
  exact bind_eq_ok.2 ⟨(), _, rfl, bind_eq_ok.2 ⟨_, t, hrun,
    bind_eq_ok.2 ⟨_, _, popScope_apply t, hrun'⟩⟩⟩

/-- A `try` is safe if its body, its clauses and what comes then are. -/
theorem lowerTry_safe {body : Lower Unit} {catches : List Handler → Lower (List Pending)}
    {handlers : List Handler} {hasFinalizer : Bool}
    (rest : List Pending → List (Pending × Escape) → Lower Unit)
    (hbody : Safe inSwitch inLoop body) (hcatches : ∀ hs, Safe inSwitch inLoop (catches hs))
    (hrest : ∀ (t : Lowering) (normal : List Pending) (escapes : List (Pending × Escape)),
      Allows inSwitch inLoop t.scopes → Settled t.scopes →
      (∀ e ∈ escapes, Welcome t.scopes e.2) → ∃ a s', rest normal escapes t = .ok a s' ∧
        shape s'.scopes = shape t.scopes ∧ Settled s'.scopes) :
    Safe inSwitch inLoop (do
      pushScope (.tryBlock handlers hasFinalizer [])
      body
      let afterBody ← takePending
      let scope ← popScope
      pushScope scope.withoutHandlers
      let afterCatches ← catches scope.handlers
      let scope ← popScope
      rest (afterBody ++ afterCatches) scope.escapes) := by
  intro s ha hs
  obtain ⟨_, t, hrun, hshape, ht, hesc⟩ := hbody.inside (s := s)
    (ha.cons (.tryBlock handlers hasFinalizer [])) (settled_plain rfl hs)
  have hwithout : t.innermost.withoutHandlers.escapes = t.innermost.escapes := by
    cases t.innermost <;> rfl
  obtain ⟨after, u, hrun', hshape', hu, hesc'⟩ := (hcatches t.innermost.handlers).inside
    (s := t.left.withPending []) ((ha.of_shape hshape).cons t.innermost.withoutHandlers)
    ⟨hwithout ▸ hesc, ht⟩
  have hshape'' := hshape'.trans hshape
  obtain ⟨a, s', hrun'', hshapes, hs'⟩ := hrest u.left (t.pending ++ after) u.innermost.escapes
    (ha.of_shape hshape'') hu hesc'
  refine ⟨a, s', ?_, hshapes.trans hshape'', hs'⟩
  exact bind_eq_ok.2 ⟨(), _, rfl, bind_eq_ok.2 ⟨_, t, hrun, bind_eq_ok.2 ⟨_, _, rfl,
    bind_eq_ok.2 ⟨_, _, popScope_apply _, bind_eq_ok.2 ⟨(), _, rfl, bind_eq_ok.2 ⟨after, u, hrun',
    bind_eq_ok.2 ⟨_, _, popScope_apply u, hrun''⟩⟩⟩⟩⟩⟩⟩

/-! ## Statements -/

mutual

/-- Lowering a statement is safe if its jumps are in their places. -/
theorem lowerStmt_safe (h : Hierarchy) (stmt : Stmt) {inSwitch inLoop : Bool}
    (hj : stmt.jumpsPlaced inSwitch inLoop) : Safe inSwitch inLoop (lowerStmt h stmt) := by
  unfold lowerStmt
  refine .bind .get fun s => .ite (.modifyGraph _) ?_
  match stmt with
  | .simple source effects =>
    exact .bind (.newStmtNode _ _) fun _ => .bind (placeWith_safe _ _) fun _ => .pure _
  | .branch source cond thenBranch elseBranch =>
    rw [Stmt.jumpsPlaced, Bool.and_eq_true] at hj
    exact .bind (.newStmtNode _ _) fun _ => .bind (placeWith_safe _ _) fun _ =>
      .bind (.setPending _) fun _ => .bind (lowerBlock_safe h thenBranch hj.1) fun _ =>
      .bind .takePending fun _ => .bind (.setPending _) fun _ =>
      .bind (lowerBlock_safe h elseBranch hj.2) fun _ => .addPending _
  | .whileLoop source cond body =>
    rw [Stmt.jumpsPlaced] at hj
    exact .bind (.newStmtNode _ _) fun _ =>
      lowerHeadedLoop_safe _ _ (lowerBlock_safe h body hj) (.pure _)
  | .forEach source var iterable body =>
    rw [Stmt.jumpsPlaced] at hj
    exact .bind (.newStmtNode _ _) fun _ =>
      lowerHeadedLoop_safe _ _ (lowerBlock_safe h body hj) (.pure _)
  | .doWhile source body cond =>
    rw [Stmt.jumpsPlaced] at hj
    exact lowerFootedLoop_safe _ _ (lowerBlock_safe h body hj)
  | .forLoop source init cond update body =>
    rw [Stmt.jumpsPlaced, Bool.and_eq_true, Bool.and_eq_true] at hj
    obtain ⟨⟨hinit, hbody⟩, hupdate⟩ := hj
    refine .bind (lowerBlock_safe h init hinit) fun _ => .bind .get fun _ => .ite ?_ (.pure _)
    have hbody := lowerBlock_safe h body hbody
    have hupdate := lowerBlock_safe h update hupdate
    match cond with
    | some cond => exact .bind (.newStmtNode _ _) fun _ => lowerHeadedLoop_safe _ _ hbody hupdate
    | none => exact lowerEndlessLoop_safe _ hbody hupdate
  | .select source selector cases =>
    rw [Stmt.jumpsPlaced] at hj
    exact .bind (.newStmtNode _ _) fun _ => .bind (placeWith_safe _ _) fun _ =>
      lowerSelect_safe (lowerCases_safe h source _ [] cases hj) _ _
  | .breakJump source =>
    exact .bind (.newStmtNode _ _) fun _ => .bind (.place _) fun _ =>
      jump_safe _ fun _ ha => ha.1 hj
  | .continueJump source =>
    exact .bind (.newStmtNode _ _) fun _ => .bind (.place _) fun _ =>
      jump_safe _ fun _ ha => ha.2 hj
  | .returnJump source none =>
    exact .bind (.newStmtNode _ _) fun _ => .bind (.place _) fun _ => jump_safe _ fun _ _ => trivial
  | .returnJump source (some value) =>
    exact .bind (.newStmtNode _ _) fun _ => .bind (placeWith_safe _ _) fun _ =>
      jump_safe _ fun _ _ => trivial
  | .throwJump source exceptionType value =>
    exact .bind (.newStmtNode _ _) fun _ => .bind (placeWith_safe _ _) fun _ =>
      jump_safe _ fun _ _ => trivial
  | .tryBlock source body catches none =>
    rw [Stmt.jumpsPlaced, Bool.and_eq_true] at hj
    exact lowerTry_safe (fun normal _ => setPending normal) (lowerBlock_safe h body hj.1)
      (fun hs => lowerCatches_safe h hs catches hj.2)
      fun t normal escapes _ ht _ => ⟨(), _, rfl, rfl, ht⟩
  | .tryBlock source body catches (some finalizer) =>
    rw [Stmt.jumpsPlaced, Bool.and_eq_true, Bool.and_eq_true] at hj
    obtain ⟨⟨hbody, hcatches⟩, hfinalizer⟩ := hj
    exact lowerTry_safe (lowerFinalizer h (lowerBlock h finalizer)) (lowerBlock_safe h body hbody)
      (fun hs => lowerCatches_safe h hs catches hcatches)
      fun t normal escapes ha ht hw =>
        lowerFinalizer_safe (lowerBlock_safe h finalizer hfinalizer) normal escapes ha ht hw
  | .block source body =>
    rw [Stmt.jumpsPlaced] at hj
    exact lowerBlock_safe h body hj

/-- Lowering a block is safe if its jumps are in their places. -/
theorem lowerBlock_safe (h : Hierarchy) (stmts : List Stmt) {inSwitch inLoop : Bool}
    (hj : blockJumpsPlaced inSwitch inLoop stmts) : Safe inSwitch inLoop (lowerBlock h stmts) := by
  match stmts with
  | [] => exact .pure _
  | stmt :: stmts =>
    rw [blockJumpsPlaced, Bool.and_eq_true] at hj
    exact .bind (lowerStmt_safe h stmt hj.1) fun _ => lowerBlock_safe h stmts hj.2

/-- Lowering cases is safe if their jumps are in their places. -/
theorem lowerCases_safe (h : Hierarchy) (source : Element) (selector : NodeId)
    (fallthrough : List Pending) (cases : List (SwitchCase Stmt)) {inLoop : Bool}
    (hj : casesJumpsPlaced inLoop cases) :
    Safe true inLoop (lowerCases h source selector fallthrough cases) := by
  match cases with
  | [] => exact .setPending _
  | ⟨id, label, body⟩ :: cases =>
    rw [casesJumpsPlaced, Bool.and_eq_true] at hj
    exact .bind (.setPending _) fun _ => .bind (.newNode _ _) fun _ => .bind (.place _) fun _ =>
      .bind (lowerBlock_safe h body hj.1) fun _ => .bind .takePending fun _ =>
      lowerCases_safe h source selector _ cases hj.2

/-- Lowering catch clauses is safe if their jumps are in their places. -/
theorem lowerCatches_safe (h : Hierarchy) (handlers : List Handler)
    (clauses : List (CatchClause Stmt)) {inSwitch inLoop : Bool}
    (hj : catchesJumpsPlaced inSwitch inLoop clauses) :
    Safe inSwitch inLoop (lowerCatches h handlers clauses) := by
  match clauses with
  | [] => exact .pure _
  | ⟨id, exceptionType, var, body⟩ :: clauses =>
    rw [catchesJumpsPlaced, Bool.and_eq_true] at hj
    match handlers with
    | [] => exact .pure _
    | handler :: handlers =>
      refine .ite (.bind (.modifyGraph _) fun _ => lowerCatches_safe h handlers clauses hj.2) ?_
      exact .bind (.setPending _) fun _ => .bind (.newNode _ _) fun _ => .bind (.place _) fun _ =>
        .bind (lowerBlock_safe h body hj.1) fun _ => .bind .takePending fun _ =>
        .bind (lowerCatches_safe h handlers clauses hj.2) fun _ => .pure _

end

/-! ## Callables -/

theorem placeFormalIns_safe (params : List Param) (position : Nat) :
    Safe inSwitch inLoop (placeFormalIns position params) := by
  induction params generalizing position with
  | nil => exact .pure _
  | cons param params ih =>
    exact .bind (.newNode _ _) fun _ => .bind (.place _) fun _ => .bind (.modifyGraph _) fun _ =>
      ih _

theorem placeFormalOut_safe (slot : OutputSlot) (text var : String) :
    Safe inSwitch inLoop (placeFormalOut slot text var) :=
  .bind (.newNode _ _) fun _ => .bind (.place _) fun _ => .modifyGraph _

theorem placeWrittenParams_safe (params : List Param) (position : Nat) :
    Safe inSwitch inLoop (placeWrittenParams position params) := by
  induction params generalizing position with
  | nil => exact .pure _
  | cons param params ih =>
    exact .ite (.bind (placeFormalOut_safe _ _ _) fun _ => ih _) (ih _)

/-- Finishing a callable is safe. -/
theorem finish_safe (decl : CallableDecl) : Safe inSwitch inLoop (finish decl) := by
  have hleave : Safe inSwitch inLoop (leave decl.params) :=
    .bind (placeWrittenParams_safe _ _) fun _ => .bind .takePending fun _ =>
      .bind (.modifyGraph _) fun _ => .bind (.modifyGraph _) fun _ => .bind .get fun _ =>
      .modifyGraph _
  rw [finish_eq]
  exact .bind .get fun _ => .bind (.addPending _) fun _ =>
    .ite (.bind (placeFormalOut_safe _ _ _) fun _ => hleave) hleave

/-- A callable whose jumps are in their place has a flow graph. -/
theorem build_ok (h : Hierarchy) (decl : CallableDecl) (n : Nat) (hj : decl.jumpsPlaced) :
    ∃ g, (FlowGraph.build h decl n).1 = .ok g := by
  unfold FlowGraph.build
  cases hbody : decl.body with
  | none => exact ⟨_, rfl⟩
  | some body =>
    rw [CallableDecl.jumpsPlaced, hbody] at hj
    have hsafe : Safe false false (lowerCallable h decl body) :=
      .bind (placeFormalIns_safe _ _) fun _ => .bind (lowerBlock_safe h body hj) fun _ =>
        finish_safe decl
    obtain ⟨_, s', hrun, -⟩ := hsafe (start decl n) ⟨by simp, by simp⟩ trivial
    refine ⟨s'.graph, ?_⟩
    dsimp only
    split
    · rename_i hrun'
      cases hrun.symm.trans hrun'
      rfl
    · rename_i hrun'
      cases hrun.symm.trans hrun'

end Lowering

namespace FlowGraph

/-- Within a callable only misplaced jumps make the analysis fail: where each `break` is in
    a loop or `switch` and each `continue` in a loop there is a flow graph, and each flow
    graph that is built passes the check of its structure and has control dependences. -/
theorem build_accepted (h : Hierarchy) (decl : CallableDecl) (n : Nat) :
    (decl.jumpsPlaced → ∃ g, (build h decl n).1 = .ok g) ∧
      ∀ g, (build h decl n).1 = .ok g →
        g.checkStructure = .ok () ∧ ∃ ds, g.controlDependences = .ok ds := by
  refine ⟨Lowering.build_ok h decl n, fun g hg => ?_⟩
  have hformed := build_formed hg
  exact ⟨hformed.checkStructure_eq_ok, _, hformed.controlDependences_eq_ok⟩

/-- A callable with a body. -/
def callableWith (body : List Stmt) : CallableDecl where
  id := ⟨0⟩
  name := "f"
  kind := .method
  owner := ⟨0⟩
  signature := ⟨"f", []⟩
  isStatic := true
  params := []
  returnsValue := false
  body := some body
  span := none

/-- A loop that only a `break` in a `try` with a `finally` block ends. -/
def breakingLoop : CallableDecl where
  id := ⟨0⟩
  name := "f"
  kind := .method
  owner := ⟨0⟩
  signature := ⟨"f", []⟩
  isStatic := true
  params := []
  returnsValue := false
  body := some [.forLoop ⟨⟨0⟩, "for", none⟩ [] none [] [.tryBlock ⟨⟨1⟩, "try", none⟩
    [.breakJump ⟨⟨2⟩, "break", none⟩] [] (some [.simple ⟨⟨3⟩, "x", none⟩ .none])]]
  span := none

/-- The loop is built, checked and analysed. -/
theorem breakingLoop_accepted : ∃ g, (build ⟨[], []⟩ breakingLoop 0).1 = .ok g ∧
    g.checkStructure = .ok () ∧ ∃ ds, g.controlDependences = .ok ds := by
  obtain ⟨hbuild, haccept⟩ := build_accepted ⟨[], []⟩ breakingLoop 0
  obtain ⟨g, hg⟩ := hbuild (by decide)
  exact ⟨g, hg, haccept g hg⟩

end FlowGraph

end Slicing
