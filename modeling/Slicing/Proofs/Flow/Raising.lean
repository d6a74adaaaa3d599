import Slicing.Proofs.Flow.Plain
import Slicing.Proofs.Flow.Settling

/-!
# Where an exception waits

An exception is offered to the handlers of the statements around, the innermost first and those of
a `try` in order, up to one that takes it for certain (`caught`). If there are no `finally` blocks,
this is all that happens to it: it waits at the handlers that take it, and leads out of the callable
if none takes it for certain (`Awaits`). It may be raised more than once by the same node, which
makes no difference.

So at the end of the run in which an exception is raised, it has settled (`Within.raises_settled`),
and where it leads from there is known from what became of the catch clauses around.
-/

namespace Slicing

/-! ## Offers -/

section Offers

variable (h : Hierarchy) (exceptionType : String) (p : Pending)

/-- Which of the handlers of some types take an exception, and whether it is still on its way to
    them. They are asked in order, up to one that takes it for certain. -/
def caught : Bool → List (Option String) → List Bool
  | _, [] => []
  | onWay, type :: types =>
    match h.exceptionMatch exceptionType type with
    | .definite => onWay :: caught false types
    | .possible => onWay :: caught onWay types
    | .never => false :: caught onWay types

/-- An exception is offered to more handlers unless one of the first takes it for certain. -/
theorem offer_append (handlers handlers' : List Handler) :
    offer h exceptionType p (handlers ++ handlers') =
      if (offer h exceptionType p handlers).2 then
        ((offer h exceptionType p handlers).1 ++ handlers', true)
      else ((offer h exceptionType p handlers).1 ++ (offer h exceptionType p handlers').1,
        (offer h exceptionType p handlers').2) := by
  induction handlers with
  | nil => rfl
  | cons handler rest ih =>
    rw [List.cons_append, offer, offer, ih]
    rcases offer h exceptionType p rest with ⟨rest', taken⟩
    split
    · rfl
    · cases taken <;> rfl
    · cases taken <;> rfl

/-- An exception is taken if a handler takes it for certain. -/
theorem offer_taken_iff (handlers : List Handler) : (offer h exceptionType p handlers).2 = true ↔
    ∃ handler ∈ handlers, h.exceptionMatch exceptionType handler.exceptionType = .definite := by
  induction handlers with
  | nil => simp [offer]
  | cons handler rest ih =>
    rw [offer]
    split
    · simp_all
    · simp_all
    · simp_all

/-- A `try` without `finally` block only offers an exception to its handlers. -/
theorem take_exception {scope : Scope} (hscope : scope.hasFinalizer = false) :
    (scope.take h p (.throwJump exceptionType)).1.handlers =
        (offer h exceptionType p scope.handlers).1 ∧
      (scope.take h p (.throwJump exceptionType)).1.strays = scope.strays ∧
      (scope.take h p (.throwJump exceptionType)).2 = (offer h exceptionType p scope.handlers).2 := by
  cases scope with
  | loop | select => exact ⟨rfl, rfl, rfl⟩
  | tryBlock handlers hasFinalizer escapes =>
    obtain rfl : hasFinalizer = false := hscope
    rw [take_tryBlock]
    split
    · rename_i htaken
      exact ⟨rfl, rfl, htaken.symm⟩
    · rename_i htaken
      exact ⟨rfl, rfl, (Bool.eq_false_of_not_eq_true htaken).symm⟩

/-- Without `finally` blocks, an exception is offered to all handlers around in turn. -/
theorem deliver_exception {scopes : List Scope}
    (hscopes : ∀ scope ∈ scopes, scope.hasFinalizer = false) :
    (deliver h p (.throwJump exceptionType) scopes).1.flatMap Scope.handlers =
        (offer h exceptionType p (scopes.flatMap Scope.handlers)).1 ∧
      (deliver h p (.throwJump exceptionType) scopes).1.flatMap Scope.strays =
        scopes.flatMap Scope.strays ∧
      (deliver h p (.throwJump exceptionType) scopes).2 =
        (offer h exceptionType p (scopes.flatMap Scope.handlers)).2 := by
  induction scopes with
  | nil => exact ⟨rfl, rfl, rfl⟩
  | cons scope outer ih =>
    rw [List.forall_mem_cons] at hscopes
    obtain ⟨hhandlers, hstrays, htaken⟩ := take_exception h exceptionType p hscopes.1
    obtain ⟨ihh, ihs, iht⟩ := ih hscopes.2
    rw [List.flatMap_cons, List.flatMap_cons, offer_append, ← hhandlers, ← htaken, ← hstrays, deliver]
    rcases scope.take h p (.throwJump exceptionType) with ⟨scope', taken⟩
    cases taken with
    | true => exact ⟨rfl, rfl, rfl⟩
    | false => exact ⟨congrArg _ ihh, congrArg _ ihs, iht⟩

/-- Jumps are not offered to handlers. -/
theorem deliver_jump {escape : Escape} (hno : ∀ exceptionType, escape ≠ .throwJump exceptionType)
    (scopes : List Scope) :
    (deliver h p escape scopes).1.flatMap Scope.handlers = scopes.flatMap Scope.handlers := by
  have htake (scope : Scope) : (scope.take h p escape).1.handlers = scope.handlers := by
    cases escape with
    | throwJump exceptionType => exact absurd rfl (hno exceptionType)
    | breakJump | continueJump | returnJump =>
      cases scope with
      | loop | select => rfl
      | tryBlock handlers hasFinalizer escapes => cases hasFinalizer <;> rfl
  induction scopes with
  | nil => rfl
  | cons scope outer ih =>
    have hscope := htake scope
    rw [List.flatMap_cons, ← hscope, deliver]
    rcases scope.take h p escape with ⟨scope', taken⟩
    cases taken with
    | true => rfl
    | false => exact congrArg _ ih

end Offers

namespace Lowering

variable {h : Hierarchy} {s s' t u : Lowering} {x : NodeId} {exceptionType : String} {q r : Run}
  {gs : Guards} {types : List (Option String)} {onWay : Bool} {a : Surroundings} {p : Pending}
  {escape : Escape}

/-! ## Where one exception waits -/

/-- The types that are handled around. -/
def handlerTypes (s : Lowering) : List (Option String) :=
  (s.scopes.flatMap Scope.handlers).map (·.exceptionType)

/-- The marks of the handlers that an exception is offered to. -/
def offerMarks (h : Hierarchy) (exceptionType : String) (onWay : Bool)
    (types : List (Option String)) : List Mark :=
  types.zipWith (fun type takes => (type, fun _ => takes = true)) (caught h exceptionType onWay types)

/-- The marks of handlers, by what the first one does. -/
theorem offerMarks_cons (h : Hierarchy) (exceptionType : String) (onWay : Bool)
    (type : Option String) (types : List (Option String)) :
    offerMarks h exceptionType onWay (type :: types) =
      match h.exceptionMatch exceptionType type with
      | .definite => (type, fun _ => onWay = true) :: offerMarks h exceptionType false types
      | .possible => (type, fun _ => onWay = true) :: offerMarks h exceptionType onWay types
      | .never => (type, fun _ => false = true) :: offerMarks h exceptionType onWay types := by
  rw [offerMarks, caught]
  split <;> rfl

/-- The exception that a node raises waits at the handlers around that take it, and leads out of the
    callable if none takes it for certain; or it has not been raised yet. -/
structure Awaits (h : Hierarchy) (x : NodeId) (exceptionType : String)
    (types : List (Option String)) (onWay : Bool) (a : Surroundings) : Prop where
  plain : a.Plain
  handlers : List.Forall₂ (Holds (· = raised x exceptionType)) (a.scopes.flatMap Scope.handlers)
    (offerMarks h exceptionType onWay types)
  strays : ∀ p ∈ a.scopes.flatMap Scope.strays, p ≠ raised x exceptionType
  returns : raised x exceptionType ∈ a.returns ↔
    onWay = true ∧ ∀ type ∈ types, h.exceptionMatch exceptionType type ≠ .definite

/-- A handler that takes an exception holds its arc. -/
theorem Holds.taken {type : Option String} {waits : Pending → Prop} (hp : waits p)
    (incoming : List Pending) : Holds (· = p) ⟨type, incoming ++ [p]⟩ (type, waits) := by
  refine ⟨rfl, ?_⟩
  rintro p' rfl
  exact iff_of_true (List.mem_append_right _ (List.mem_singleton_self _)) hp

/-- Handlers are asked, at some of which the exception may wait already. -/
theorem offer_marks {handlers : List Handler}
    (hm : List.Forall₂ (Holds (· = p)) handlers (offerMarks h exceptionType onWay types)) :
    List.Forall₂ (Holds (· = p)) (offer h exceptionType p handlers).1
      (offerMarks h exceptionType true types) := by
  induction types generalizing handlers onWay with
  | nil =>
    cases hm
    exact .nil
  | cons type types ih =>
    rw [offerMarks_cons] at hm ⊢
    -- only a clause that is sure to catch keeps the exception from those behind it
    cases hmatch : h.exceptionMatch exceptionType type with
    | definite =>
      simp only [hmatch] at hm ⊢
      obtain ⟨handler, rest, hfirst, hrest, rfl⟩ := List.forall₂_cons_right_iff.1 hm
      rw [offer, hfirst.1, hmatch]
      exact .cons (.taken trivial _) hrest
    | possible =>
      simp only [hmatch] at hm ⊢
      obtain ⟨handler, rest, hfirst, hrest, rfl⟩ := List.forall₂_cons_right_iff.1 hm
      rw [offer, hfirst.1, hmatch]
      exact .cons (.taken trivial _) (ih hrest)
    | never =>
      simp only [hmatch] at hm ⊢
      obtain ⟨handler, rest, hfirst, hrest, rfl⟩ := List.forall₂_cons_right_iff.1 hm
      rw [offer, hfirst.1, hmatch]
      exact .cons hfirst (ih hrest)

/-- There is a mark for each handler. -/
theorem offerMarks_types : (offerMarks h exceptionType onWay types).map (·.1) = types := by
  induction types generalizing onWay with
  | nil => rfl
  | cons type types ih =>
    rw [offerMarks_cons]
    split <;> rw [List.map_cons, ih]

/-- Handlers and their marks have the same types. -/
theorem Holds.types_eq {W : Pending → Prop} {handlers : List Handler} {marks : List Mark}
    (hm : List.Forall₂ (Holds W) handlers marks) :
    handlers.map (·.exceptionType) = marks.map (·.1) := by
  induction hm with
  | nil => rfl
  | cons hfirst _ ih => rw [List.map_cons, List.map_cons, ih, hfirst.1]

/-- Nothing waits at handlers to which an exception has not been offered. -/
theorem offerMarks_idle {handlers : List Handler}
    (hno : ∀ handler ∈ handlers, p ∉ handler.incoming) :
    List.Forall₂ (Holds (· = p)) handlers
      (offerMarks h exceptionType false (handlers.map (·.exceptionType))) := by
  induction handlers with
  | nil => exact .nil
  | cons handler rest ih =>
    rw [List.forall_mem_cons] at hno
    have hfirst : Holds (· = p) handler (handler.exceptionType, fun _ => false = true) :=
      ⟨rfl, fun p' hp' => by simp [hp', hno.1]⟩
    rw [List.map_cons, offerMarks_cons]
    split <;> exact .cons hfirst (ih hno.2)

/-- Handlers behind one that takes an exception for certain are not offered it. -/
theorem not_offerMarks : ∀ mark ∈ offerMarks h exceptionType false types, ¬mark.2 p := by
  induction types with
  | nil => exact List.forall_mem_nil _
  | cons type types ih =>
    rw [offerMarks_cons]
    split <;> exact List.forall_mem_cons.2 ⟨Bool.false_ne_true, ih⟩

/-- Nothing has been raised so far. -/
theorem Awaits.of_collected (hs : s.around.Plain) (hno : raised x exceptionType ∉ s.collected) :
    Awaits h x exceptionType s.handlerTypes false s.around where
  plain := hs
  handlers := offerMarks_idle fun handler hmem hp =>
    hno (mem_collected_iff.2 (.inl ⟨handler, hmem, hp⟩))
  strays _ hp heq := hno (mem_collected_iff.2 (.inr (.inl (heq ▸ hp))))
  returns := iff_of_false (fun hp => hno (mem_collected_iff.2 (.inr (.inr hp))))
    fun hf => Bool.false_ne_true hf.1

/-- What waits has been raised. -/
theorem Awaits.of_mem (ha : Awaits h x exceptionType types onWay s.around)
    (hmem : raised x exceptionType ∈ s.collected) : onWay = true := by
  by_contra hno
  obtain rfl : onWay = false := Bool.eq_false_of_not_eq_true hno
  rcases mem_collected_iff.1 hmem with ⟨handler, hhandler, hp⟩ | hp | hp
  · obtain ⟨mark, hmark, hholds⟩ := forall₂_mem_right ha.handlers.flip hhandler
    exact not_offerMarks mark hmark ((hholds.2 _ rfl).1 hp)
  · exact ha.strays _ hp rfl
  · exact hno (ha.returns.1 hp).1

/-- The exception is raised, maybe not for the first time. -/
theorem Awaits.raise (ha : Awaits h x exceptionType types onWay a) :
    Awaits h x exceptionType types true
      (a.sent h (raised x exceptionType) (.throwJump exceptionType)) := by
  obtain ⟨hhandlers, hstrays, htaken⟩ :=
    deliver_exception h exceptionType (raised x exceptionType) ha.plain
  refine ⟨ha.plain.sent _ _, ?_, ?_, ?_⟩
  · rw [Surroundings.sent, hhandlers]
    exact offer_marks ha.handlers
  · rw [Surroundings.sent, hstrays]
    exact ha.strays
  · have hforms : (a.scopes.flatMap Scope.handlers).map (·.exceptionType) = types :=
      (Holds.types_eq ha.handlers).trans offerMarks_types
    -- the exception leaves the callable unless some clause is sure to catch it
    have hpass : (offer h exceptionType (raised x exceptionType)
        (a.scopes.flatMap Scope.handlers)).2 = true ↔
        ∃ type ∈ types, h.exceptionMatch exceptionType type = .definite := by
      rw [offer_taken_iff, ← hforms]
      simp
    rw [Surroundings.sent, htaken]
    split
    · rename_i hyes
      obtain ⟨type, hmem, hdef⟩ := hpass.1 hyes
      refine iff_of_false (fun hret => ?_) fun hno => hno.2 type hmem hdef
      exact (ha.returns.1 hret).2 type hmem hdef
    · rename_i hno
      refine iff_of_true (List.mem_append_right _ (List.mem_singleton_self _)) ⟨rfl, ?_⟩
      exact fun type hmem hdef => hno (hpass.2 ⟨type, hmem, hdef⟩)

/-- Something else is sent. -/
theorem Awaits.other (ha : Awaits h x exceptionType types onWay a) (hp : p ≠ raised x exceptionType) :
    Awaits h x exceptionType types onWay (a.sent h p escape) := by
  have hgrows : List.Forall₂ (Scope.Grows fun p => ¬p = raised x exceptionType) a.scopes
      (deliver h p escape a.scopes).1 :=
    (deliver_grows h p escape a.scopes).imp fun _ _ => .imp fun p' hp' => hp'.symm ▸ hp
  refine ⟨ha.plain.sent _ _, ?_, fun p' hp' => ?_, ?_⟩
  · exact forall₂_swap (fun _ _ _ hg hm => hm.grow hg)
      (List.rel_flatMap hgrows fun _ _ hg => hg.handlers) ha.handlers
  · exact (forall₂_flatMap_mem_or (fun _ _ hg => hg.strays) hgrows hp').elim (ha.strays p') id
  · rw [← ha.returns, Surroundings.sent]
    split
    · rfl
    · simp [Ne.symm hp]

/-- Without `finally` blocks, whatever is sent leaves the exception where it waits, or raises it. -/
theorem Sends.awaits (hs : Sends h q p escape) (hq : ¬q.IsFinal)
    (ha : Awaits h x exceptionType types onWay a) :
    ∃ onWay, Awaits h x exceptionType types onWay (a.sent h p escape) := by
  cases hs with
  | @raise _ x' exceptionType' _ =>
    by_cases heq : raised x' exceptionType' = raised x exceptionType
    · obtain ⟨rfl, hedge⟩ := Pending.mk.inj heq
      obtain rfl : exceptionType' = exceptionType := Option.some.inj (FlowEdge.mk.inj hedge).2
      exact ⟨true, ha.raise⟩
    · exact ⟨onWay, ha.other heq⟩
  | @jump stmt j _ _ id hj hno =>
    refine ⟨onWay, ha.other fun heq => ?_⟩
    have hedge := (Pending.mk.inj heq).2
    cases hescape : j.escape with
    | throwJump exceptionType' => exact hno _ hescape
    | breakJump | continueJump | returnJump =>
      rw [hescape] at hedge
      cases hedge
  | resume _ _ hfinal => exact absurd hfinal hq

/-! ## The runs that raise exceptions -/

/-- The exceptions that nodes raise wait where they lead. -/
theorem Emits.raised_collected {es : List Emission} (he : Emits h s es t) :
    ∀ e ∈ es, ∀ exceptionType ∈ e.throws, raised e.node.id exceptionType ∈ t.collected := by
  induction he with
  | done => exact List.forall_mem_nil _
  | number _ ih => exact ih
  | record _ _ ih => exact ih
  | @node es t e _ _ _ _ _ ih =>
    obtain ⟨hsub, hmem⟩ := collected_sentAll h (raises e.node.id e.throws) (t.placed e.node)
    intro e' he' exceptionType hthrows
    rcases List.mem_append.1 he' with he' | he'
    · exact hsub (ih e' he' exceptionType hthrows)
    · obtain rfl := List.mem_singleton.1 he'
      exact hmem _ (List.mem_map_of_mem hthrows)

/-- All nodes of a run are those of one construct. -/
structure Line (h : Hierarchy) (q : Run) : Prop where
  ready : Ready (.block []) q.first
  constructs : ∃ point effects head id t, Constructs h q.first point effects head id t ∧
    q.last.graph = t.graph ∧ q.last.nextId = t.nextId ∧ q.outputs ⊆ t.pending

/-- What raises an exception is a node of one construct, and its arc has been sent. -/
theorem Within.line {part : Part} (hl : Lowered h part s s') (hq : Within h (part.run s s') gs q)
    (hx : Raises h q x exceptionType) :
    Line h q ∧ Made q.first q.last x ∧ raised x exceptionType ∈ q.last.collected := by
  have hd : q.Derived h := hq.derived (show (part.run s s').Derived h from hl)
  have hthrows {point : Point} {effects : Effects} {head id : NodeId} {s t : Lowering}
      (hc : Constructs h s point effects head id t)
      (hx : Throws h point effects s t x exceptionType) :
      Made s t x ∧ raised x exceptionType ∈ t.collected := by
    obtain ⟨es, he, hsteps, -⟩ := hc
    obtain ⟨e, hmem, rfl, hthrows⟩ := (he.throws_iff hsteps).1 hx
    refine ⟨⟨?_, he.le_of_mem e hmem⟩, he.raised_collected e hmem _ hthrows⟩
    rw [he.ids_eq]
    exact List.mem_append_right _ (List.mem_map_of_mem hmem)
  cases hx with
  | construct hx =>
    have hc : Constructs h _ _ _ _ _ _ := hd
    cases hq with
    | inside hq hin =>
      obtain ⟨hready, -⟩ := hin.reached (hq.derived (show (part.run s s').Derived h from hl)) _ _ _ _ rfl
      exact ⟨⟨hready, _, _, _, _, _, hc, rfl, rfl, List.Subset.refl _⟩, hthrows hc hx⟩
  | @jump stmt j _ s t _ hne hj hx =>
    obtain ⟨t, head, id, hc, rfl⟩ := Lowered.jump_inv hd hj hne
    obtain ⟨hmade, hmem⟩ := hthrows hc hx
    refine ⟨⟨(Lowered.ready hd).toBlock, _, _, _, _, _, hc, rfl, rfl, List.nil_subset _⟩, hmade, ?_⟩
    exact collected_sent_mono h _ _ _ hmem
  | @throw source value _ s t _ hne hlast =>
    obtain ⟨t, head, id, hc, rfl⟩ := Lowered.jump_inv hd rfl hne
    obtain rfl : id = x := Option.some.inj (hc.getLast?_ids.symm.trans hlast)
    refine ⟨⟨(Lowered.ready hd).toBlock, _, _, _, _, _, hc, rfl, rfl, List.nil_subset _⟩, hc.made.2, ?_⟩
    exact mem_collected_sent h _ _ _

/-- The edges that start at the nodes of a construct are not exceptional. -/
theorem Line.not_exceptional (hq : Line h q) {e : NodeId × NodeId × FlowEdge}
    (he : e ∈ q.last.graph.edges) (hm : Made q.first q.last e.1) : e.2.2.kind ≠ .exceptional := by
  obtain ⟨point, effects, head, id, t, ⟨es, hem, -, hfirst, -⟩, hgraph, -⟩ := hq.constructs
  have hold (x : NodeId) (hx : x ∈ q.first.graph.ids) (heq : e.1 = x) : False :=
    hm.not_mem hq.ready.sound.below (heq ▸ hx)
  rw [hgraph, (hem.edges_eq hq.ready.sound.inRange hq.ready.inputs).2.2] at he
  rcases List.mem_append.1 he with he | he
  · exact (hold _ (FlowGraph.HasEdge.mem_left hq.ready.sound.inRange ⟨e.2.2, he⟩) rfl).elim
  · rcases mem_lineArcs_iff.1 he with ⟨p, hp, first, -, rfl⟩ | ⟨x, y, -, rfl⟩
    · exact (hold _ (hq.ready.inputs p hp) rfl).elim
    · exact nofun

/-- The numbers of nodes are in use behind a construct. -/
theorem Line.below (hq : Line h q) : q.last.Below := by
  obtain ⟨point, effects, head, id, t, hc, hgraph, hnextId, -⟩ := hq.constructs
  rw [Below, hgraph, hnextId]
  exact hc.keepsBelow hq.ready.sound.below

/-- No exception is in the frontier behind a construct. -/
theorem Line.outputs (hq : Line h q) : ∀ p ∈ q.outputs, p.edge.kind ≠ .exceptional := by
  obtain ⟨point, effects, head, id, t, hc, -, -, hout⟩ := hq.constructs
  intro p hp
  have hp := hout hp
  rw [hc.pending_eq] at hp
  rw [List.mem_singleton.1 hp]
  exact nofun

/-- An exceptional arc that leads back to a loop stays as it is. -/
theorem raised_back {y : NodeId} {edge : FlowEdge} (heq : ⟨y, backEdge edge⟩ = raised x exceptionType) :
    ⟨y, edge⟩ = raised x exceptionType := by
  obtain ⟨rfl, hedge⟩ := Pending.mk.inj heq
  unfold backEdge at hedge
  split at hedge
  · cases hedge
  · rw [hedge]

/-- Once an exception has been raised, it has settled at the handlers around that take it. -/
theorem Within.raises_settled {part : Part} (hl : Lowered h part s s') (hp : (part.run s s').Plain)
    (hq : Within h (part.run s s') gs q) (hx : Raises h q x exceptionType) :
    Watches (· = raised x exceptionType) q ∧
      Settled (· = raised x exceptionType) (fun _ => False)
        (offerMarks h exceptionType true q.first.handlerTypes)
        (fun _ => ∀ type ∈ q.first.handlerTypes, h.exceptionMatch exceptionType type ≠ .definite) q := by
  have hr : (part.run s s').Derived h := hl
  have hplain := hq.plain hr hp
  obtain ⟨hline, hmade, hmem⟩ := hq.line hl hx
  have hnot : raised x exceptionType ∉ q.first.collected := fun hold =>
    hmade.not_mem hline.ready.sound.below (hline.ready.sound.collected _ hold)
  -- over the run the exception is raised, and whatever else is sent does not touch it
  have hkeeps : q.Keeps h fun a => ∃ onWay, Awaits h x exceptionType q.first.handlerTypes onWay a :=
    fun _ _ p escape hq' hs _ ⟨_, ha⟩ =>
      hs.awaits (hq'.plain (hq.derived hr) hplain).not_isFinal ha
  obtain ⟨onWay, hlast⟩ := (hq.derived hr).keeps hkeeps ⟨false, .of_collected hplain.around hnot⟩
  obtain rfl := hlast.of_mem hmem
  refine ⟨⟨fun _ edge => raised_back, ?_, ?_⟩, ⟨?_, ?_, hlast.handlers, hlast.strays, ?_⟩, ?_⟩
  · rintro p rfl
    exact hmade.2
  · rintro point effects head id - p rfl
    rfl
  · rintro p rfl
    exact hline.below _ hmade.mem
  · intro e heq
    obtain ⟨rfl, hedge⟩ := Pending.mk.inj heq
    refine iff_false_intro fun he => hline.not_exceptional he hmade ?_
    rw [hedge]
    rfl
  · rintro p rfl
    exact hlast.returns.trans (and_iff_right rfl)
  · rintro p hp rfl
    exact hline.outputs _ hp rfl

end Lowering

end Slicing
