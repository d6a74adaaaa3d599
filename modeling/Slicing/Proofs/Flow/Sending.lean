import Slicing.Proofs.Flow.Coverage
import Slicing.Proofs.Flow.Surroundings
import Slicing.Proofs.Flow.Within

/-!
# What runs send

In the course of a run, ways out are sent to the statements around (`Sends`): nodes raise exceptions
(`Raises`), jumps leave, and a `finally` block sends on what came to it. This is all that happens to
what is around, other than that statements are entered and left. So a property of what is around
that is kept whenever something is sent holds behind a run if it holds before it
(`Run.Derived.keeps`).
-/

namespace Slicing

namespace Lowering

variable {h : Hierarchy} {s s' t u : Lowering} {p : Pending} {escape : Escape} {x : NodeId}
  {exceptionType : String} {q r : Run} {gs : Guards} {I : Surroundings → Prop}

/-! ## Exceptions -/

/-- The arc of an exception that a node raises. -/
abbrev raised (x : NodeId) (exceptionType : String) : Pending :=
  ⟨x, (Escape.throwJump exceptionType).edge⟩

/-- An exception is listed for a construct or for one of the calls that it evaluates, and a node
    was placed for this one. -/
def Throws (h : Hierarchy) (point : Point) (effects : Effects) (s t : Lowering) (x : NodeId)
    (exceptionType : String) : Prop :=
  ∃ i step, (effects.steps h point)[i]? = some step ∧ exceptionType ∈ step.throws ∧
    t.graph.ids[s.graph.size + i]? = some x

/-- A node that comes in during a run raises an exception. The last node of a `throw` is the one
    of the statement itself. -/
inductive Raises (h : Hierarchy) : Run → NodeId → String → Prop
  | construct {point : Point} {effects : Effects} {head id x : NodeId} {s t : Lowering}
      {exceptionType : String} :
      Throws h point effects s t x exceptionType →
        Raises h (constructRun point effects head id s t) x exceptionType
  | jump {stmt : Stmt} {j : Jump} {x : NodeId} {s t : Lowering} {exceptionType : String} :
      s.pending ≠ [] → stmt.jump? = some j →
        Throws h ⟨j.kind, some j.source.id⟩ j.value s t x exceptionType →
        Raises h ((Part.stmt stmt).run s t) x exceptionType
  | throw {source : Element} {value : Effects} {x : NodeId} {s t : Lowering}
      {exceptionType : String} :
      s.pending ≠ [] → t.graph.ids.getLast? = some x →
        Raises h ((Part.stmt (.throwJump source exceptionType value)).run s t) x exceptionType

/-- A way out that is sent in a run, outside of the runs that it consists of. -/
inductive Sends (h : Hierarchy) : Run → Pending → Escape → Prop
  | raise {r : Run} {x : NodeId} {exceptionType : String} :
      Raises h r x exceptionType → Sends h r (raised x exceptionType) (.throwJump exceptionType)
  | jump {stmt : Stmt} {j : Jump} {s t : Lowering} (id : NodeId) :
      stmt.jump? = some j → (∀ exceptionType, j.escape ≠ .throwJump exceptionType) →
        Sends h ((Part.stmt stmt).run s t) ⟨id, j.escape.edge⟩ j.escape
  | resume {r : Run} (p : Pending) (escape : Escape) : r.IsFinal → Sends h r p escape

/-- The exceptions of a construct are those that the nodes of its line raise. -/
theorem Emits.throws_iff {es : List Emission} {point : Point} {effects : Effects}
    (he : Emits h s es t) (hsteps : es.map Emission.step = effects.steps h point) :
    Throws h point effects s t x exceptionType ↔
      ∃ e ∈ es, e.node.id = x ∧ exceptionType ∈ e.throws := by
  have hids (i : Nat) : t.graph.ids[s.graph.size + i]? = (es.map (·.node.id))[i]? := by
    have hsize : s.graph.ids.length = s.graph.size := List.length_map _
    rw [he.ids_eq, ← hsize, List.getElem?_append_right (Nat.le_add_right _ _), Nat.add_sub_cancel_left]
  simp only [Throws, hids, ← hsteps, List.getElem?_map, Option.map_eq_some_iff]
  constructor
  · rintro ⟨i, _, ⟨e, hi, rfl⟩, hthrows, e', hi', rfl⟩
    obtain rfl := Option.some.inj (hi.symm.trans hi')
    exact ⟨e, List.mem_of_getElem? hi, rfl, hthrows⟩
  · rintro ⟨e, hmem, rfl, hthrows⟩
    obtain ⟨i, hi⟩ := List.mem_iff_getElem?.1 hmem
    exact ⟨i, e.step, ⟨e, hi, rfl⟩, hthrows, e, hi, rfl⟩

/-- The own node of a construct is placed last. -/
theorem Constructs.getLast?_ids {point : Point} {effects : Effects} {head id : NodeId}
    (hc : Constructs h s point effects head id t) : t.graph.ids.getLast? = some id := by
  obtain ⟨es, he, -, -, hlast⟩ := hc
  rw [he.ids_eq, List.getLast?_append, List.getLast?_map, hlast]
  rfl

/-- What is listed for a construct itself, its own node raises. -/
theorem Constructs.throws_own {point : Point} {effects : Effects} {head id : NodeId}
    (hc : Constructs h s point effects head id t) (hthrows : exceptionType ∈ effects.throws) :
    Throws h point effects s t id exceptionType := by
  obtain ⟨es, he, hsteps, -, hlast⟩ := hc
  obtain ⟨e, hlast', rfl⟩ := Option.map_eq_some_iff.1 hlast
  have hstep := congrArg List.getLast? hsteps
  rw [List.getLast?_map, hlast', Effects.steps, List.getLast?_concat] at hstep
  refine (he.throws_iff hsteps).2 ⟨e, List.mem_of_getLast? hlast', rfl, ?_⟩
  rw [show e.throws = _ from congrArg PointStep.throws (Option.some.inj hstep)]
  exact hthrows

/-- A block of one statement without parts. -/
theorem Lowered.single_inv {source : Element} {effects : Effects}
    (hl : Lowered h (.block [.simple source effects]) s s') (hne : s.pending ≠ []) :
    ∃ head id, Constructs h s ⟨.statement, some source.id⟩ effects head id s' ∧
      Within h ((Part.block [.simple source effects]).run s s') []
        (constructRun ⟨.statement, some source.id⟩ effects head id s s') := by
  cases hl with
  | blockNext _ hl hend =>
    obtain ⟨head, id, hc⟩ := hl.simple_inv hne
    have hstmt : Inside h _ _ _ := ⟨_, .blockNext, Pieces.two hl hend, List.mem_cons_self⟩
    have hown : Inside h _ _ _ := ⟨_, .simple hne, Pieces.one hc, List.mem_cons_self⟩
    cases hend
    exact ⟨head, id, hc, hstmt.within.trans hown.within⟩

/-! ## Properties of what is around -/

/-- A property of what is around, inside of one more statement. -/
def Beneath (I : Surroundings → Prop) (a : Surroundings) : Prop :=
  ∃ scope outer, a = outer.inside scope ∧ I outer

/-- Leaving a statement brings back what was around it. -/
theorem Beneath.left (ht : Beneath I t.around) : I t.left.around := by
  obtain ⟨scope, outer, heq, houter⟩ := ht
  rw [(left_of_around heq).2]
  exact houter

/-- A property of what is around is kept by whatever is sent in the course of a run. -/
def Run.Keeps (h : Hierarchy) (r : Run) (I : Surroundings → Prop) : Prop :=
  ∀ gs q p escape, Within h r gs q → Sends h q p escape → ∀ a : Surroundings, I a → I (a.sent h p escape)

/-- What a run keeps is kept by the runs that it consists of. -/
theorem Run.Keeps.inside (hI : r.Keeps h I) (hq : Inside h r gs q) : q.Keeps h I :=
  fun _ _ p escape hq' hs => hI _ _ p escape (hq.within.trans hq') hs

/-- What a run keeps around a statement it keeps inside of it. -/
theorem Run.Keeps.beneath (hI : r.Keeps h I) : r.Keeps h (Beneath I) := by
  rintro gs q p escape hq hs _ ⟨scope, outer, rfl, houter⟩
  rw [Surroundings.inside_sent]
  split
  · exact ⟨_, outer, rfl, houter⟩
  · exact ⟨_, _, rfl, hI gs q p escape hq hs outer houter⟩

/-- A property that exceptions of nodes keep is kept along their line. -/
theorem Emits.keeps {es : List Emission} (he : Emits h s es t)
    (hI : ∀ e ∈ es, ∀ exceptionType ∈ e.throws, ∀ a : Surroundings, I a →
      I (a.sent h (raised e.node.id exceptionType) (.throwJump exceptionType)))
    (hs : I s.around) : I t.around := by
  induction he with
  | done => exact hs
  | number _ ih => exact ih hI
  | record _ _ ih => exact ih hI
  | @node es t e _ _ _ _ _ ih =>
    have hplaced : I (t.placed e.node).around := ih fun e' he' => hI e' (List.mem_append_left _ he')
    refine sentAll_induction h (t.placed e.node) _ (motive := fun u => I u.around) hplaced
      fun u w hw hu => ?_
    obtain ⟨exceptionType, hmem, rfl⟩ := List.mem_map.1 hw
    exact hI e (List.mem_append_right _ (List.mem_singleton_self e)) exceptionType hmem _ hu

/-- A property that its exceptions keep is kept by a construct. -/
theorem Constructs.keeps {point : Point} {effects : Effects} {head id : NodeId}
    (hc : Constructs h s point effects head id t)
    (hI : ∀ x exceptionType, Throws h point effects s t x exceptionType → ∀ a : Surroundings, I a →
      I (a.sent h (raised x exceptionType) (.throwJump exceptionType)))
    (hs : I s.around) : I t.around := by
  obtain ⟨es, he, hsteps, -⟩ := hc
  refine he.keeps (fun e hmem exceptionType hthrows => ?_) hs
  exact hI _ _ ((he.throws_iff hsteps).2 ⟨e, hmem, rfl, hthrows⟩)

/-- A property that a run of a construct keeps holds behind it. -/
theorem Run.Keeps.construct {point : Point} {effects : Effects} {head id : NodeId}
    (hI : (constructRun point effects head id s t).Keeps h I)
    (hc : Constructs h s point effects head id t) (hs : I s.around) : I t.around :=
  hc.keeps (fun _ _ hx => hI _ _ _ _ .self (.raise (.construct hx))) hs

/-- A jump sends what its value raises, and itself. -/
theorem Run.Keeps.jump {stmt : Stmt} {j : Jump} {head id : NodeId} (hne : s.pending ≠ [])
    (hj : stmt.jump? = some j)
    (hI : ((Part.stmt stmt).run s ((t.withPending []).sent h ⟨id, j.escape.edge⟩ j.escape)).Keeps h I)
    (hc : Constructs h s ⟨j.kind, some j.source.id⟩ j.value head id t) (hs : I s.around) :
    I ((t.withPending []).sent h ⟨id, j.escape.edge⟩ j.escape).around := by
  have hlast := hc.getLast?_ids
  have ht : I t.around := hc.keeps (fun x _ hx => hI _ _ _ _ .self (.raise (.jump hne hj hx))) hs
  refine hI _ _ ⟨id, j.escape.edge⟩ j.escape .self ?_ t.around ht
  cases stmt with
  | throwJump source exceptionType value =>
    obtain rfl := Option.some.inj hj
    exact .raise (.throw hne hlast)
  | breakJump | continueJump =>
    obtain rfl := Option.some.inj hj
    exact .jump id rfl nofun
  | returnJump source value =>
    cases value with
    | none | some =>
      obtain rfl := Option.some.inj hj
      exact .jump id rfl nofun
  | _ => cases hj

/-- A property that a run with a `finally` block keeps is kept when the block sends on what came to
    it. -/
theorem Run.Keeps.sentAll (hI : r.Keeps h I) (hr : r.IsFinal) (hs : I s.around) (ps : List Pending)
    (escapes : List (Pending × Escape)) : I ((s.withPending ps).sentAll h escapes).around :=
  sentAll_induction h (s.withPending ps) escapes (motive := fun t => I t.around) hs fun _ e _ ht =>
    hI _ _ e.1 e.2 .self (.resume e.1 e.2 hr) _ ht

/-- What is around keeps a property over a run if it does so over those that it consists of. -/
theorem Consists.keeps {pieces : List (Run × Guards)} (hc : Consists h r pieces)
    (hr : r.Derived h) (hI : r.Keeps h I)
    (ih : ∀ piece ∈ pieces, ∀ J, r.Keeps h J → J piece.1.first.around → J piece.1.last.around)
    (hs : I r.first.around) : I r.last.around := by
  have hI' := hI.beneath
  cases hc with
  | construct => exact hI.construct hr hs
  | skip | updateUnentered | casesEnd | catchesEnd | catchesUnhandled | blockEnd => exact hs
  | jump hne hj hc => exact hI.jump hne hj hc hs
  | simple | loopUnentered | update | nested | catchUnentered =>
    simp only [List.forall_mem_cons] at ih
    exact ih.1 I hI hs
  | blockNext =>
    simp only [List.forall_mem_cons] at ih
    exact ih.2.1 I hI (ih.1 I hI hs)
  | branch | tested | case | «catch» =>
    simp only [List.forall_mem_cons] at ih
    exact ih.2.2.1 I hI (ih.2.1 I hI (ih.1 I hI hs))
  | endless =>
    simp only [List.forall_mem_cons] at ih
    have hv := ih.2.2.1 I hI (ih.2.1 I hI (ih.1 I hI hs))
    split
    exacts [hv, hv]
  | rounds =>
    simp only [List.forall_mem_cons] at ih
    exact ih.2.1 I hI (Beneath.left (ih.1 _ hI' ⟨_, _, rfl, hs⟩))
  | footless =>
    simp only [List.forall_mem_cons] at ih
    exact Beneath.left (ih.1 _ hI' ⟨_, _, rfl, hs⟩)
  | footed =>
    simp only [List.forall_mem_cons] at ih
    exact ih.2.1 I hI (Beneath.left (ih.1 _ hI' ⟨_, _, rfl, hs⟩))
  | select =>
    simp only [List.forall_mem_cons] at ih
    exact Beneath.left (ih.2.1 _ hI' ⟨_, _, rfl, ih.1 I hI hs⟩)
  | tryPlain =>
    simp only [List.forall_mem_cons] at ih
    have ht := Beneath.left (ih.1 _ hI' ⟨_, _, rfl, hs⟩)
    exact Beneath.left (ih.2.1 _ hI' ⟨_, _, rfl, ht⟩)
  | tryNodeless | tryFinally =>
    simp only [List.forall_mem_cons] at ih
    have ht := Beneath.left (ih.1 _ hI' ⟨_, _, rfl, hs⟩)
    have hu := Beneath.left (ih.2.1 _ hI' ⟨_, _, rfl, ht⟩)
    exact hI.sentAll ⟨_, _, _, _, rfl⟩ (ih.2.2.1 I hI hu) _ _

/-- A property that is kept whenever something is sent in a run holds behind the run if it holds
    before it. -/
theorem Run.Derived.keeps (hr : r.Derived h) (hI : r.Keeps h I) (hs : I r.first.around) :
    I r.last.around := by
  obtain ⟨task, first, last⟩ := r
  cases task with
  | construct point effects head id => exact hI.construct hr hs
  | part part =>
    have hall := Lowered.along
      (P := fun r => ∀ I, r.Keeps h I → I r.first.around → I r.last.around)
      (fun r pieces hr hc hd ih I hI hs => hc.keeps hr hI (fun piece hpiece J hJ =>
        ih piece hpiece J (hJ.inside ⟨pieces, hc, hd, hpiece⟩)) hs) hr
    exact hall I hI hs

end Lowering

end Slicing
