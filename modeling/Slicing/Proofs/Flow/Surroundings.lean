import Slicing.Proofs.Flow.Callable

/-!
# Lowering in other surroundings

While a statement is lowered, the statements around it are of use only to send ways out to them,
and what has been found unreachable before is of no use at all. So from two states that differ in
these, lowering does the same, as long as a way out leads somewhere in both of them.

What may be around is told by a `Link`: which surroundings belong together, such that a way out
that is sent in both leaves them together. The first surroundings of two may take in a way out
that leads nowhere in the second ones. Then they are *lost*: nothing brings this way out back. A
step is `Blind` if it leads from linked states to linked states, with one rule for each
combinator that lowering is made of.

The surroundings that are the same (`Link.same`) make lowering blind to what is unreachable
(`lowerBlock_blind`, `finish_blind`). Around a statement inside of others there is one more
statement (`Link.under`).
-/

namespace Slicing

/-- What is around a statement while it is lowered: where ways out lead. -/
structure Surroundings where
  scopes : List Scope
  returns : List Pending

namespace Surroundings

variable (h : Hierarchy) (a : Surroundings) (p : Pending) (escape : Escape)

/-- The surroundings with one more statement. -/
def inside (scope : Scope) : Surroundings := ⟨scope :: a.scopes, a.returns⟩

/-- The surroundings with a way out sent to where it leads. -/
def sent : Surroundings where
  scopes := (deliver h p escape a.scopes).1
  returns := if (deliver h p escape a.scopes).2 then a.returns else a.returns ++ [p]

/-- A way out leads somewhere: only breaks and continues may not. -/
def Lands : Prop :=
  (deliver h p escape a.scopes).2 = true ∨ escape ≠ .breakJump ∧ escape ≠ .continueJump

/-- A way out is sent to the innermost statement, and on from there if it passes. -/
theorem inside_sent (scope : Scope) : (a.inside scope).sent h p escape =
    if (scope.take h p escape).2 then a.inside (scope.take h p escape).1
    else (a.sent h p escape).inside (scope.take h p escape).1 := by
  rw [sent, inside, deliver]
  rcases scope.take h p escape with ⟨scope', taken⟩
  cases taken <;> rfl

/-- A way out leads somewhere if the innermost statement takes it in or if it does outside. -/
theorem inside_lands (scope : Scope) : (a.inside scope).Lands h p escape ↔
    (scope.take h p escape).2 = true ∨ a.Lands h p escape := by
  rw [Lands, inside, deliver]
  rcases scope.take h p escape with ⟨scope', taken⟩
  cases taken <;> simp [Lands]

end Surroundings

/-- Surroundings that belong together. -/
structure Link (h : Hierarchy) where
  Rel : Surroundings → Surroundings → Prop
  /-- The first surroundings have taken in what leads nowhere in the second ones. -/
  Lost : Surroundings → Prop
  sent_rel {a b p escape} : Rel a b → b.Lands h p escape →
    a.Lands h p escape ∧ Rel (a.sent h p escape) (b.sent h p escape)
  sent_lost {a b p escape} : Rel a b → ¬b.Lands h p escape → a.Lands h p escape →
    Lost (a.sent h p escape)
  lost_sent {a p escape} : Lost a → Lost (a.sent h p escape)

namespace Link

/-- The same surroundings. -/
def same (h : Hierarchy) : Link h where
  Rel := Eq
  Lost _ := False
  sent_rel := by
    rintro a _ p escape rfl hlands
    exact ⟨hlands, rfl⟩
  sent_lost := by
    rintro a _ p escape rfl hno hlands
    exact hno hlands
  lost_sent := id

/-- Surroundings with the same statement inside of them. -/
def under {h : Hierarchy} (l : Link h) : Link h where
  Rel a b := ∃ scope a' b', a = a'.inside scope ∧ b = b'.inside scope ∧ l.Rel a' b'
  Lost a := ∃ scope a', a = a'.inside scope ∧ l.Lost a'
  sent_rel := by
    rintro _ _ p escape ⟨scope, a, b, rfl, rfl, hrel⟩ hlands
    rw [Surroundings.inside_lands] at hlands ⊢
    rw [Surroundings.inside_sent, Surroundings.inside_sent]
    by_cases htaken : (scope.take h p escape).2 = true
    · rw [if_pos htaken, if_pos htaken]
      exact ⟨.inl htaken, _, a, b, rfl, rfl, hrel⟩
    · rw [if_neg htaken, if_neg htaken]
      obtain ⟨hlands, hsent⟩ := l.sent_rel hrel (hlands.resolve_left htaken)
      exact ⟨.inr hlands, _, _, _, rfl, rfl, hsent⟩
  sent_lost := by
    rintro _ _ p escape ⟨scope, a, b, rfl, rfl, hrel⟩ hno hlands
    rw [Surroundings.inside_lands, not_or] at hno
    rw [Surroundings.inside_lands] at hlands
    rw [Surroundings.inside_sent, if_neg hno.1]
    exact ⟨_, _, rfl, l.sent_lost hrel hno.2 (hlands.resolve_left hno.1)⟩
  lost_sent := by
    rintro _ p escape ⟨scope, a, rfl, hlost⟩
    rw [Surroundings.inside_sent]
    split
    · exact ⟨_, a, rfl, hlost⟩
    · exact ⟨_, _, rfl, l.lost_sent hlost⟩

end Link

/-- A graph where more has been found unreachable before. -/
def FlowGraph.noting (g : FlowGraph) (ids : List ElementId) : FlowGraph :=
  { g with unreachable := ids ++ g.unreachable }

/-- An arc is added whatever has been found unreachable before. -/
theorem FlowGraph.addArc_noting (g : FlowGraph) (ids : List ElementId) (x y : NodeId)
    (edge : FlowEdge) : (g.noting ids).addArc x y edge = (g.addArc x y edge).noting ids := by
  have hpos (z : NodeId) : (g.noting ids).position? z = g.position? z := rfl
  rw [addArc, addArc, hpos, hpos]
  cases g.position? x <;> cases g.position? y <;> rfl

/-- Arcs are added whatever has been found unreachable before. -/
theorem FlowGraph.foldl_noting {step : FlowGraph → Pending → FlowGraph} {ids : List ElementId}
    (hstep : ∀ g p, step (g.noting ids) p = (step g p).noting ids) (g : FlowGraph)
    (tails : List Pending) : tails.foldl step (g.noting ids) = (tails.foldl step g).noting ids := by
  induction tails generalizing g with
  | nil => rfl
  | cons p tails ih => rw [List.foldl_cons, hstep, ih, List.foldl_cons]

namespace Lowering

variable {α β : Type} {h : Hierarchy} {l l' l'' : Link h} {ids ids' : List ElementId}

/-! ## Steps -/

/-- What is around in a state. -/
def around (s : Lowering) : Surroundings := ⟨s.scopes, s.returns⟩

/-- A state in other surroundings, where more has been found unreachable before. -/
def amid (s : Lowering) (ids : List ElementId) (a : Surroundings) : Lowering :=
  { s with graph := s.graph.noting ids, scopes := a.scopes, returns := a.returns }

theorem amid_nil_around (s : Lowering) : s.amid [] s.around = s := rfl

/-- Inside of a statement, this statement is the innermost one. -/
theorem left_of_around {s : Lowering} {scope : Scope} {a : Surroundings}
    (hs : s.around = a.inside scope) : s.innermost = scope ∧ s.left.around = a := by
  have hscopes : s.scopes = scope :: a.scopes := congrArg Surroundings.scopes hs
  have hreturns : s.returns = a.returns := congrArg Surroundings.returns hs
  constructor
  · rw [innermost, hscopes]
    rfl
  · rw [around, left_scopes, left_returns, hscopes, hreturns]
    rfl

/-- Two steps end in the same way but for what is around, unless what is around the first state
    is lost. -/
inductive Ends (l : Link h) (ids ids' : List ElementId) :
    EStateM.Result Error Lowering α → EStateM.Result Error Lowering α → Prop
  | ok (v : α) (s : Lowering) {a b : Surroundings} : l.Rel a b →
      Ends l ids ids' (.ok v (s.amid ids a)) (.ok v (s.amid ids' b))
  | lost {v : α} {s s' : Lowering} {e : Error} : l.Lost s.around →
      Ends l ids ids' (.ok v s) (.error e s')
  | error {e e' : Error} {s s' : Lowering} : Ends l ids ids' (.error e s) (.error e' s')

/-- Two steps in a row, by the end of the first one. -/
theorem bind_apply (m : Lower α) (next : α → Lower β) (s : Lowering) :
    (m >>= next) s = match m s with
      | .ok v t => next v t
      | .error e t => .error e t := by
  change EStateM.bind m next s = _
  unfold EStateM.bind
  cases m s <;> rfl

/-- A step that does the same in linked surroundings. -/
structure Blind (l l' : Link h) (m : Lower α) : Prop where
  ends {ids ids' : List ElementId} {s : Lowering} {a b : Surroundings} : l.Rel a b →
    Ends l' ids ids' (m (s.amid ids a)) (m (s.amid ids' b))
  lost {s t : Lowering} {v : α} : l.Lost s.around → m s = .ok v t → l'.Lost t.around

namespace Blind

/-- A step that leaves alone what is around. -/
theorem of_amid {m : Lower α} (run : Lowering → α × Lowering)
    (hm : ∀ s ids a, m (s.amid ids a) = .ok (run s).1 ((run s).2.amid ids a)) : Blind l l m where
  ends hrel := by
    rw [hm, hm]
    exact .ok _ _ hrel
  lost {s t v} hlost hrun := by
    rw [← s.amid_nil_around, hm] at hrun
    cases hrun
    exact hlost

/-- Two blind steps in a row are blind. -/
theorem bind {m : Lower α} {next : α → Lower β} (hm : Blind l l' m)
    (hnext : ∀ v, Blind l' l'' (next v)) : Blind l l'' (m >>= next) where
  ends {ids ids' s a b} hrel := by
    rw [bind_apply, bind_apply]
    have hends : Ends l' ids ids' (m (s.amid ids a)) (m (s.amid ids' b)) := hm.ends hrel
    revert hends
    generalize m (s.amid ids a) = r
    generalize m (s.amid ids' b) = r'
    intro hends
    cases hends with
    | ok v t hrel => exact (hnext v).ends hrel
    | @lost v t _ _ hlost =>
      -- the second run has failed; the first one fails as well, or stays lost
      dsimp only
      cases hrun : next v t with
      | ok w u => exact .lost ((hnext v).lost hlost hrun)
      | error => exact .error
    | error => exact .error
  lost hlost hrun := by
    obtain ⟨v, t, hm', hrun⟩ := bind_eq_ok.1 hrun
    exact (hnext v).lost (hm.lost hlost hm') hrun

/-- The second step uses the parts of what the first one returns. -/
theorem bind_pair {γ : Type} {m : Lower (α × γ)} {next : α × γ → Lower β} (hm : Blind l l' m)
    (hnext : ∀ v w, Blind l' l'' (next (v, w))) : Blind l l'' (m >>= next) :=
  .bind hm fun v => hnext v.1 v.2

theorem pure (v : α) : Blind l l (pure v) := of_amid (fun s => (v, s)) fun _ _ _ => rfl

theorem ite {p : Prop} [Decidable p] {m m' : Lower α} (hm : Blind l l' m) (hm' : Blind l l' m') :
    Blind l l' (if p then m else m') := by
  split
  · exact hm
  · exact hm'

/-- A step that looks at the state, but not at what is around. -/
theorem get_bind {next : Lowering → Lower α} (hsame : ∀ s ids a, next (s.amid ids a) = next s)
    (hnext : ∀ s, Blind l l' (next s)) : Blind l l' (get >>= next) where
  ends {ids ids' s a b} hrel := by
    change Ends l' ids ids' (next (s.amid ids a) _) (next (s.amid ids' b) _)
    rw [hsame, hsame]
    exact (hnext s).ends hrel
  lost {s _ _} hlost hrun := (hnext s).lost hlost hrun

/-- In the same surroundings, a step may look at them. -/
theorem get_bind_same {next : Lowering → Lower α}
    (hsame : ∀ s ids, next (s.amid ids s.around) = next s)
    (hnext : ∀ s, Blind (.same h) (.same h) (next s)) : Blind (.same h) (.same h) (get >>= next) where
  ends {ids ids' s a b} hrel := by
    obtain rfl : a = b := hrel
    change Ends (.same h) ids ids' (next ((s.amid [] a).amid ids (s.amid [] a).around) _)
      (next ((s.amid [] a).amid ids' (s.amid [] a).around) _)
    rw [hsame, hsame]
    exact (hnext (s.amid [] a)).ends (s := s.amid [] a) rfl
  lost hlost _ := hlost.elim

/-- A change is blind if it does not look at the surroundings. -/
theorem modify {change : Lowering → Lowering}
    (hchange : ∀ s ids a, change (s.amid ids a) = (change s).amid ids a) :
    Blind l l (modify change : Lower PUnit) :=
  of_amid (fun s => (⟨⟩, change s)) fun s ids a =>
    congrArg (EStateM.Result.ok PUnit.unit) (hchange s ids a)

/-- A change of the graph is blind if it does not look at what has been found unreachable. -/
theorem modifyGraph {change : FlowGraph → FlowGraph}
    (hchange : ∀ g ids, change (g.noting ids) = (change g).noting ids) :
    Blind l l (modifyGraph change) :=
  .modify fun s ids a => congrArg
    (fun g => ({ s with graph := g, scopes := a.scopes, returns := a.returns } : Lowering))
    (hchange s.graph ids)

theorem setPending (ps : List Pending) : Blind l l (setPending ps) := .modify fun _ _ _ => rfl

theorem addPending (ps : List Pending) : Blind l l (addPending ps) := .modify fun _ _ _ => rfl

theorem takePending : Blind l l takePending :=
  of_amid (fun s => (s.pending, s.withPending [])) fun _ _ _ => rfl

/-- A new node does not depend on the surroundings. -/
theorem newNode (kind : NodeKind) (text : String) : Blind l l (newNode kind text) :=
  of_amid (fun s => (s.freshNode kind text, s.numbered)) fun _ _ _ => rfl

theorem newStmtNode (kind : NodeKind) (source : Element) : Blind l l (newStmtNode kind source) :=
  .bind (.newNode _ _) fun _ => .pure _

theorem place (node : Node) : Blind l l (place node) := by
  refine .bind (.modify fun s ids a => ?_) fun _ => .pure _
  have hgraph : s.pending.foldl (fun g p => g.addArc p.source node.id p.edge)
        ((s.graph.addNode node).noting ids) =
      (s.pending.foldl (fun g p => g.addArc p.source node.id p.edge) (s.graph.addNode node)).noting ids :=
    FlowGraph.foldl_noting (fun g p => g.addArc_noting ids p.source node.id p.edge) _ _
  exact congrArg (fun g => ({ s with
    graph := g, pending := [.plain node.id .unconditional]
    scopes := a.scopes, returns := a.returns } : Lowering)) hgraph

theorem closeLoop (head : NodeId) (tails : List Pending) : Blind l l (closeLoop head tails) :=
  .modifyGraph fun g _ => FlowGraph.foldl_noting (fun g p => g.addArc_noting _ p.source head _) g tails

theorem skip (element : ElementId) : Blind l l (skip element) :=
  .modifyGraph fun g ids => by simp [FlowGraph.noting]

/-- Entering a statement leads into surroundings with the statement in them. -/
theorem pushScope (scope : Scope) : Blind l l.under (pushScope scope) where
  ends {ids ids' s a b} hrel := Ends.ok (l := l.under) (a := a.inside scope)
    (b := b.inside scope) PUnit.unit s ⟨scope, a, b, rfl, rfl, hrel⟩
  lost {s _ _} hlost hrun := by
    obtain rfl := pushScope_eq_ok.1 hrun
    exact ⟨scope, s.around, rfl, hlost⟩

/-- Leaving a statement leads out of surroundings with the statement in them. -/
theorem popScope : Blind l.under l popScope where
  ends {ids ids' s a b} hrel := by
    obtain ⟨scope, a, b, rfl, rfl, hrel⟩ := hrel
    exact .ok scope s hrel
  lost {s _ _} hlost hrun := by
    obtain ⟨scope, a, haround, hlost⟩ := hlost
    obtain ⟨-, rfl⟩ := popScope_eq_ok.1 hrun
    rwa [(left_of_around haround).2]

end Blind

/-- In the same surroundings, the innermost statement is the same. -/
theorem popScope_blind : Blind (.same h) (.same h) popScope where
  ends {ids ids' s a b} hrel := by
    obtain rfl : a = b := hrel
    rw [popScope_apply, popScope_apply]
    exact Ends.ok (l := .same h) (a := ⟨a.scopes.tail, a.returns⟩) (b := ⟨a.scopes.tail, a.returns⟩)
      (a.scopes.headD (.select [])) s rfl
  lost hlost _ := hlost.elim

/-- A way out is sent in the surroundings that a state has been put into. -/
theorem amid_sent (s : Lowering) (a : Surroundings) (p : Pending) (escape : Escape) :
    (s.amid ids a).sent h p escape = s.amid ids (a.sent h p escape) := rfl

/-- A way out is sent if it leads somewhere, and is an error else. -/
theorem route_ok_or_error (s : Lowering) (p : Pending) (escape : Escape) :
    (s.around.Lands h p escape ∧ route h p escape s = .ok () (s.sent h p escape)) ∨
      (¬s.around.Lands h p escape ∧ ∃ e, route h p escape s = .error e s) := by
  by_cases hlands : s.around.Lands h p escape
  · exact .inl ⟨hlands, route_eq_ok.2 ⟨hlands, rfl⟩⟩
  · refine .inr ⟨hlands, ?_⟩
    rw [route_apply]
    rw [Surroundings.Lands, around] at hlands
    revert hlands
    obtain ⟨scopes, taken⟩ := deliver h p escape s.scopes
    cases taken <;> cases escape <;> simp

/-- Sending a way out leads from linked surroundings to linked ones. -/
theorem route_blind (p : Pending) (escape : Escape) : Blind l l (route h p escape) where
  ends {ids ids' s a b} hrel := by
    rcases route_ok_or_error (h := h) (s.amid ids' b) p escape with ⟨hlands, hrun⟩ | ⟨hno, e, hrun⟩
    · obtain ⟨hlands', hrel'⟩ := l.sent_rel hrel hlands
      have hrun' : route h p escape (s.amid ids a) = .ok () ((s.amid ids a).sent h p escape) :=
        route_eq_ok.2 ⟨hlands', rfl⟩
      rw [hrun, hrun', amid_sent, amid_sent]
      exact .ok _ _ hrel'
    · rw [hrun]
      rcases route_ok_or_error (h := h) (s.amid ids a) p escape with
        ⟨hlands', hrun'⟩ | ⟨-, e', hrun'⟩
      · rw [hrun']
        exact .lost (l.sent_lost hrel hno hlands')
      · rw [hrun']
        exact .error
  lost hlost hrun := by
    obtain ⟨-, rfl⟩ := route_eq_ok.1 hrun
    exact l.lost_sent hlost

/-- Sending ways out leads from linked surroundings to linked ones. -/
theorem routeAll_blind (escapes : List (Pending × Escape)) : Blind l l (routeAll h escapes) := by
  induction escapes with
  | nil => exact .pure _
  | cons e escapes ih => exact .bind (route_blind e.1 e.2) fun _ => ih

theorem raiseAll_blind (node : NodeId) (exceptionTypes : List String) :
    Blind l l (raiseAll h node exceptionTypes) := routeAll_blind _

/-- A jump does the same in linked surroundings. -/
theorem jump_blind (node : NodeId) (escape : Escape) : Blind l l (jump h node escape) :=
  .bind (.setPending _) fun _ => route_blind _ _

/-! ## Calls -/

/-- An actual-out is placed the same in linked surroundings. -/
theorem placeActualOut_blind (site : CallSite) (slot : OutputSlot) (var : String) :
    Blind l l (placeActualOut site slot var) :=
  .bind (.newNode _ _) fun _ => .bind (.place _) fun _ => .pure _

/-- The actual-outs of arguments are placed the same in linked surroundings. -/
theorem placeWrittenArgs_blind (site : CallSite) (passing : List Passing)
    (args : List (Argument CallSite)) (position : Nat) :
    Blind l l (placeWrittenArgs site passing position args) := by
  induction args generalizing position with
  | nil => exact .pure _
  | cons arg args ih =>
    rw [placeWrittenArgs]
    split
    · exact .bind (placeActualOut_blind _ _ _) fun _ => .bind (ih _) fun _ => .pure _
    · exact ih _

/-- The actual-out of a result is placed the same in linked surroundings. -/
theorem placeResult_blind (site : CallSite) : Blind l l (placeResult site) :=
  .ite (.bind (placeActualOut_blind _ _ _) fun _ => .pure _) (.pure _)

/-- A call is placed the same in linked surroundings, except for where its exceptions lead. -/
theorem placeCall_blind (site : CallSite) (actualIns : List NodeId) :
    Blind l l (placeCall h site actualIns) :=
  .bind (.newNode _ _) fun _ => .bind (.place _) fun _ => .bind (raiseAll_blind _ _) fun _ =>
    .bind (placeResult_blind _) fun _ => .bind (placeWrittenArgs_blind _ _ _ _) fun _ =>
    .modifyGraph fun _ _ => rfl

mutual

/-- A call is lowered the same in linked surroundings. -/
theorem lowerCall_blind (site : CallSite) : Blind l l (lowerCall h site) := by
  match site with
  | ⟨id, text, target, dispatch, args, resultUsed, throws⟩ =>
    exact .bind (lowerArgs_blind id 0 args) fun _ => placeCall_blind _ _

/-- The arguments of a call are lowered the same in linked surroundings. -/
theorem lowerArgs_blind (site : CallSiteId) (position : Nat) (args : List (Argument CallSite)) :
    Blind l l (lowerArgs h site position args) := by
  match args with
  | [] => exact .pure _
  | ⟨text, uses, calls, _⟩ :: args =>
    exact .bind (.newNode _ _) fun _ => .bind (lowerCalls_blind calls) fun _ => .bind (.place _)
      fun _ => .bind (lowerArgs_blind site (position + 1) args) fun _ => .pure _

/-- Calls are lowered the same in linked surroundings. -/
theorem lowerCalls_blind (sites : List CallSite) : Blind l l (lowerCalls h sites) := by
  match sites with
  | [] => exact .pure _
  | site :: sites => exact .bind (lowerCall_blind site) fun _ => lowerCalls_blind sites

end

/-- A node with its effects is placed the same in linked surroundings. -/
theorem placeWith_blind (node : Node) (effects : Effects) : Blind l l (placeWith h node effects) :=
  .get_bind (fun _ _ _ => rfl) fun _ => .bind (lowerCalls_blind _) fun _ => .bind (.place _) fun _ =>
    .get_bind (fun _ _ _ => rfl) fun _ => .bind (raiseAll_blind _ _) fun _ => .pure _

/-! ## Statements -/

/-- The arcs of a loop back to its head. -/
theorem closeRounds_blind (head : NodeId) (scope : Scope) : Blind l l (do
    closeLoop head (← takePending)
    setPending scope.breaks
    return scope.breaks) :=
  .bind .takePending fun _ => .bind (.closeLoop _ _) fun _ => .bind (.setPending _) fun _ => .pure _

/-- What comes behind the body of a loop. -/
theorem endRounds_blind (head : NodeId) (scope : Scope) {update : Lower Unit}
    (hupdate : Blind l l update) : Blind l l (do
      addPending scope.continues
      if !(← get).pending.isEmpty then update
      closeLoop head (← takePending)
      setPending scope.breaks
      return scope.breaks) :=
  .bind (.addPending _) fun _ => .get_bind (fun _ _ _ => rfl) fun _ =>
    .ite (.bind hupdate fun _ => closeRounds_blind head scope) (closeRounds_blind head scope)

/-- The rounds of a loop are lowered the same in linked surroundings, if its body and its update
    are. -/
theorem lowerLoop_blind (node head : NodeId) (enter : FlowKind) {body update : Lower Unit}
    (hbody : Blind l.under l.under body) (hupdate : Blind l l update) :
    Blind l l (lowerLoop node head enter body update) :=
  .bind (.setPending _) fun _ => .bind (.pushScope _) fun _ => .bind hbody fun _ =>
    .bind .popScope fun scope => endRounds_blind head scope hupdate

/-- A loop with its test in front is lowered the same in linked surroundings. -/
theorem lowerHeadedLoop_blind (header : Node) (cond : Effects) {body update : Lower Unit}
    (hbody : Blind l.under l.under body) (hupdate : Blind l l update) :
    Blind l l (lowerHeadedLoop h header cond body update) :=
  .bind_pair (placeWith_blind _ _) fun head node =>
    .bind (lowerLoop_blind node head _ hbody hupdate) fun _ => .addPending _

/-- A loop without a test is lowered the same in linked surroundings. -/
theorem lowerEndlessLoop_blind (source : Element) {body update : Lower Unit}
    (hbody : Blind l.under l.under body) (hupdate : Blind l l update) :
    Blind l l (lowerEndlessLoop source body update) :=
  .bind (.newStmtNode _ _) fun _ => .bind (.place _) fun head =>
    .bind (lowerLoop_blind head head _ hbody hupdate) fun _ =>
    .ite (.modify fun _ _ _ => rfl) (.pure _)

/-- A loop with its test at the end is lowered the same in linked surroundings. -/
theorem lowerFootedLoop_blind (source : Element) (cond : Effects) {body : Lower Unit}
    (hbody : Blind l.under l.under body) : Blind l l (lowerFootedLoop h source body cond) :=
  .get_bind (fun _ _ _ => rfl) fun _ => .bind (.pushScope _) fun _ => .bind hbody fun _ =>
    .bind .popScope fun _ => .get_bind (fun _ _ _ => rfl) fun _ => .bind (.addPending _) fun _ =>
    .get_bind (fun _ _ _ => rfl) fun _ => .ite (.bind (.skip _) fun _ => .setPending _) <|
    .bind (.newStmtNode _ _) fun _ => .bind_pair (placeWith_blind _ _) fun _ _ =>
    .bind (.modifyGraph fun g ids => g.addArc_noting ids _ _ _) fun _ => .setPending _

/-- A `finally` block is lowered, and sends on what came to it, the same in linked surroundings. -/
theorem lowerFinalizer_blind {block : Lower Unit} (hblock : Blind l l block)
    (normal : List Pending) (escapes : List (Pending × Escape)) :
    Blind l l (lowerFinalizer h block normal escapes) :=
  .get_bind (fun _ _ _ => rfl) fun _ => .bind (.setPending _) fun _ => .bind hblock fun _ =>
    .get_bind (fun _ _ _ => rfl) fun _ => .ite (.bind (.setPending _) fun _ => routeAll_blind _)
    (.bind (.setPending _) fun _ => routeAll_blind _)

/-- The rounds of a counting loop. -/
theorem forRounds_blind (source : Element) (cond : Option Effects) {body update : Lower Unit}
    (hbody : Blind l.under l.under body) (hupdate : Blind l l update) : Blind l l (match cond with
      | some cond => do
        lowerHeadedLoop h (← Lowering.newStmtNode .predicate source) cond body update
      | none => lowerEndlessLoop source body update) := by
  cases cond with
  | some cond => exact .bind (.newStmtNode _ _) fun _ => lowerHeadedLoop_blind _ _ hbody hupdate
  | none => exact lowerEndlessLoop_blind _ hbody hupdate

/-- What comes behind the catch clauses of a `try`. -/
theorem endTry_blind (finalizer : Option (List Stmt)) {lower : List Stmt → Lower Unit}
    (normal : List Pending) (escapes : List (Pending × Escape))
    (hlower : ∀ block ∈ finalizer, Blind l l (lower block)) : Blind l l (match finalizer with
      | none => Lowering.setPending normal
      | some block => lowerFinalizer h (lower block) normal escapes) := by
  cases finalizer with
  | none => exact .setPending _
  | some block => exact lowerFinalizer_blind (hlower block rfl) _ _

mutual

/-- A statement is lowered the same in linked surroundings. -/
theorem lowerStmt_blind (l : Link h) (stmt : Stmt) : Blind l l (lowerStmt h stmt) := by
  rw [lowerStmt.eq_def]
  refine .get_bind (fun _ _ _ => rfl) fun s => .ite (.skip _) ?_
  match stmt with
  | .simple source effects =>
    exact .bind (.newStmtNode _ _) fun _ => .bind (placeWith_blind _ _) fun _ => .pure _
  | .branch source cond thenBranch elseBranch =>
    exact .bind (.newStmtNode _ _) fun _ => .bind_pair (placeWith_blind _ _) fun _ _ =>
      .bind (.setPending _) fun _ => .bind (lowerBlock_blind l thenBranch) fun _ =>
      .bind .takePending fun _ => .bind (.setPending _) fun _ =>
      .bind (lowerBlock_blind l elseBranch) fun _ => .addPending _
  | .whileLoop source cond body =>
    exact .bind (.newStmtNode _ _) fun _ =>
      lowerHeadedLoop_blind _ _ (lowerBlock_blind l.under body) (.pure _)
  | .forEach source var iterable body =>
    exact .bind (.newStmtNode _ _) fun _ =>
      lowerHeadedLoop_blind _ _ (lowerBlock_blind l.under body) (.pure _)
  | .doWhile source body cond => exact lowerFootedLoop_blind _ _ (lowerBlock_blind l.under body)
  | .forLoop source init cond update body =>
    exact .bind (lowerBlock_blind l init) fun _ => .get_bind (fun _ _ _ => rfl) fun _ =>
      .ite (forRounds_blind source cond (lowerBlock_blind l.under body) (lowerBlock_blind l update))
      (.pure _)
  | .select source selector cases =>
    exact .bind (.newStmtNode _ _) fun _ => .bind_pair (placeWith_blind _ _) fun _ node =>
      .bind (.pushScope _) fun _ => .bind (lowerCases_blind l.under source node [] cases) fun _ =>
      .bind .popScope fun _ => .bind (.addPending _) fun _ => .ite (.addPending _) (.pure _)
  | .breakJump source | .continueJump source | .returnJump source none =>
    exact .bind (.newStmtNode _ _) fun _ => .bind (.place _) fun _ => jump_blind _ _
  | .returnJump source (some value) =>
    exact .bind (.newStmtNode _ _) fun _ => .bind_pair (placeWith_blind _ _) fun _ _ => jump_blind _ _
  | .throwJump source exceptionType value =>
    exact .bind (.newStmtNode _ _) fun _ => .bind_pair (placeWith_blind _ _) fun _ _ => jump_blind _ _
  | .tryBlock source body catches finalizer =>
    refine .bind (.pushScope _) fun _ => .bind (lowerBlock_blind l.under body) fun _ =>
      .bind .takePending fun _ => .bind .popScope fun scope => .bind (.pushScope _) fun _ =>
      .bind (lowerCatches_blind l.under scope.handlers catches) fun _ => .bind .popScope fun _ =>
      endTry_blind finalizer _ _ ?_
    match finalizer with
    | none => nofun
    | some block =>
      rintro _ ⟨⟩
      exact lowerBlock_blind l block
  | .block source body => exact lowerBlock_blind l body

/-- A block is lowered the same in linked surroundings. -/
theorem lowerBlock_blind (l : Link h) (stmts : List Stmt) : Blind l l (lowerBlock h stmts) := by
  match stmts with
  | [] => exact .pure _
  | stmt :: stmts => exact .bind (lowerStmt_blind l stmt) fun _ => lowerBlock_blind l stmts

/-- The cases of a `switch` are lowered the same in linked surroundings. -/
theorem lowerCases_blind (l : Link h) (source : Element) (selector : NodeId)
    (fallthrough : List Pending) (cases : List (SwitchCase Stmt)) :
    Blind l l (lowerCases h source selector fallthrough cases) := by
  match cases with
  | [] => exact .setPending _
  | ⟨id, label, body⟩ :: cases =>
    exact .bind (.setPending _) fun _ => .bind (.newNode _ _) fun _ => .bind (.place _) fun _ =>
      .bind (lowerBlock_blind l body) fun _ => .bind .takePending fun _ =>
      lowerCases_blind l source selector _ cases

/-- Catch clauses are lowered the same in linked surroundings. -/
theorem lowerCatches_blind (l : Link h) (handlers : List Handler)
    (clauses : List (CatchClause Stmt)) : Blind l l (lowerCatches h handlers clauses) := by
  match clauses with
  | [] => exact .pure _
  | ⟨id, exceptionType, var, body⟩ :: clauses =>
    match handlers with
    | [] => exact .pure _
    | handler :: handlers =>
      exact .ite (.bind (.skip _) fun _ => lowerCatches_blind l handlers clauses) <|
        .bind (.setPending _) fun _ => .bind (.newNode _ _) fun _ => .bind (.place _) fun _ =>
        .bind (lowerBlock_blind l body) fun _ => .bind .takePending fun _ =>
        .bind (lowerCatches_blind l handlers clauses) fun _ => .pure _

end

/-! ## The end of a callable -/

theorem placeFormalOut_blind (slot : OutputSlot) (text var : String) :
    Blind l l (placeFormalOut slot text var) :=
  .bind (.newNode _ _) fun _ => .bind (.place _) fun _ => .modifyGraph fun _ _ => rfl

theorem placeWrittenParams_blind (params : List Param) (position : Nat) :
    Blind l l (placeWrittenParams position params) := by
  induction params generalizing position with
  | nil => exact .pure _
  | cons param params ih =>
    exact .ite (.bind (placeFormalOut_blind _ _ _) fun _ => ih _) (ih _)

/-- The head of the exit does not depend on what has been found unreachable. -/
theorem headed_noting (g : FlowGraph) : headed (g.noting ids) = (headed g).noting ids := by
  have houts : (g.noting ids).formalOuts = g.formalOuts := rfl
  rw [headed, headed, houts]
  split
  · rename_i head _ _
    have hpos : (g.noting ids).position? head = g.position? head := rfl
    rw [FlowGraph.setExitHead, FlowGraph.setExitHead, hpos]
    cases g.position? head <;> rfl
  · rfl

/-- A callable is finished the same whatever has been found unreachable. -/
theorem finish_blind (decl : CallableDecl) : Blind (.same h) (.same h) (finish decl) := by
  have hleave : Blind (.same h) (.same h) (leave decl.params) :=
    .bind (placeWrittenParams_blind _ _) fun _ => .bind .takePending fun tails =>
      .bind (.modifyGraph fun g ids =>
        FlowGraph.foldl_noting (fun g p => g.addArc_noting ids p.source g.exit.id p.edge) g tails)
      fun _ => .bind (.modifyGraph fun g _ => headed_noting g) fun _ =>
      .get_bind (fun _ _ _ => rfl) fun _ => .modifyGraph fun _ _ => rfl
  rw [finish_eq]
  exact .get_bind_same (fun _ _ => rfl) fun _ => .bind (.addPending _) fun _ =>
    .ite (.bind (placeFormalOut_blind _ _ _) fun _ => hleave) hleave

end Lowering

end Slicing
