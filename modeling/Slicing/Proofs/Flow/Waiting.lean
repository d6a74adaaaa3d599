import Slicing.Proofs.Flow.Within

/-!
# Where arcs wait

Arcs that are *watched* come from the nodes of one run. Once the run is over they are not in the
frontier; each of them has found targets, waits at handlers of the `try` statements around or leads
out of the callable, and nothing else waits for it (`Tracked`). What follows neither adds to this nor
takes from it (`Lowered.tracked`), until the catch clauses of a `try` are lowered: then the arcs at its
handlers lead to the nodes of the clauses (`ClauseNodes.tracked`).

So from what became of the arcs in the run it is known what becomes of them in all runs around it
(`Within.tracked`).
-/

namespace Slicing

/-- What a statement has taken in, other than for its handlers. -/
def Scope.strays (scope : Scope) : List Pending :=
  scope.breaks ++ scope.continues ++ scope.escapes.map (·.1)

section Strays

variable {scope : Scope} {p : Pending}

theorem Scope.breaks_strays (hp : p ∈ scope.breaks) : p ∈ scope.strays :=
  List.mem_append_left _ (List.mem_append_left _ hp)

theorem Scope.continues_strays (hp : p ∈ scope.continues) : p ∈ scope.strays :=
  List.mem_append_left _ (List.mem_append_right _ hp)

theorem Scope.escapes_strays (hp : p ∈ scope.escapes.map (·.1)) : p ∈ scope.strays :=
  List.mem_append_right _ hp

/-- What a statement has taken in waits at its handlers or strays. -/
theorem Scope.mem_waiting_iff : p ∈ scope.waiting ↔
    (∃ handler ∈ scope.handlers, p ∈ handler.incoming) ∨ p ∈ scope.strays := by
  cases scope <;>
    simp [Scope.waiting, Scope.strays, Scope.handlers, Scope.breaks, Scope.continues, Scope.escapes]

/-- What waits outside of the frontier waits at a handler, strays or leaves the callable. -/
theorem Lowering.mem_collected_iff {s : Lowering} : p ∈ s.collected ↔
    (∃ handler ∈ s.scopes.flatMap Scope.handlers, p ∈ handler.incoming) ∨
      p ∈ s.scopes.flatMap Scope.strays ∨ p ∈ s.returns := by
  simp only [Lowering.collected, List.mem_append, List.mem_flatMap, Scope.mem_waiting_iff]
  grind

end Strays

section Growing

variable {a b : Scope} {Q : Pending → Prop}

/-- The handlers of a statement that has taken in more have taken in more. -/
theorem Scope.Grows.handlers (hg : Scope.Grows Q a b) :
    List.Forall₂ (Handler.Grows Q) a.handlers b.handlers := by
  cases hg with
  | loop _ _ => exact .nil
  | select _ => exact .nil
  | tryBlock hh _ _ => exact hh

/-- What strays has done so before or has been taken in. -/
theorem Scope.Grows.strays (hg : Scope.Grows Q a b) : ∀ p ∈ b.strays, p ∈ a.strays ∨ Q p := by
  intro p hp
  cases hg with
  | loop hb hc =>
    simp only [Scope.strays, Scope.breaks, Scope.continues, Scope.escapes, List.map_nil,
      List.append_nil, List.mem_append] at hp ⊢
    rcases hp with hp | hp
    · exact (hb.mem_or hp).imp_left .inl
    · exact (hc.mem_or hp).imp_left .inr
  | select hb =>
    simp only [Scope.strays, Scope.breaks, Scope.continues, Scope.escapes, List.map_nil,
      List.append_nil] at hp ⊢
    exact hb.mem_or hp
  | tryBlock _ he _ =>
    simp only [Scope.strays, Scope.breaks, Scope.continues, Scope.escapes, List.append_nil,
      List.nil_append, List.mem_map] at hp ⊢
    obtain ⟨e, hmem, rfl⟩ := hp
    exact (he.mem_or hmem).imp_left fun hold => ⟨e, hold, rfl⟩

/-- A watched arc is a member if it was, when others have been added. -/
theorem Adds.mem_iff {α : Type} {Q : α → Prop} {a b : List α} (hab : Adds (fun x => ¬Q x) a b) {x : α}
    (hx : Q x) : x ∈ b ↔ x ∈ a :=
  ⟨fun hmem => (hab.mem_or hmem).resolve_right fun hno => hno hx, fun hmem => hab.subset hmem⟩

end Growing

namespace Lowering

/-- Which of the watched arcs wait at a handler, and what it handles. -/
abbrev Mark := Option String × (Pending → Prop)

variable {h : Hierarchy} {s s' t u v : Lowering} {W : Pending → Prop}
  {E E' : NodeId × NodeId × FlowEdge → Prop} {marks ms : List Mark} {ret : Pending → Prop}
  {P H B : NodeId → Prop} {p : Pending} {ins : List Pending} {q q' r : Run} {gs gs' : Guards}

/-- The watched arcs at a handler are as a mark says. -/
def Holds (W : Pending → Prop) (handler : Handler) (mark : Mark) : Prop :=
  handler.exceptionType = mark.1 ∧ ∀ p, W p → (p ∈ handler.incoming ↔ mark.2 p)

/-- What became of the watched arcs: the edges that they are, the marks of the handlers around where
    they wait, and those that lead out of the callable. They wait nowhere else. -/
structure Tracked (W : Pending → Prop) (E : NodeId × NodeId × FlowEdge → Prop) (marks : List Mark)
    (ret : Pending → Prop) (s : Lowering) : Prop where
  old : ∀ p, W p → p.source.number < s.nextId
  edges : ∀ e, W ⟨e.1, e.2.2⟩ → (e ∈ s.graph.edges ↔ E e)
  handlers : List.Forall₂ (Holds W) (s.scopes.flatMap Scope.handlers) marks
  strays : ∀ p ∈ s.scopes.flatMap Scope.strays, ¬W p
  returns : ∀ p, W p → (p ∈ s.returns ↔ ret p)

/-! ## What follows -/

/-- Arcs that are not watched do not matter for marks. -/
theorem Holds.grow {a b : Handler} {mark : Mark} (hg : Handler.Grows (fun p => ¬W p) a b)
    (hm : Holds W a mark) : Holds W b mark :=
  ⟨hg.1.symm.trans hm.1, fun p hp => (hg.2.mem_iff hp).trans (hm.2 p hp)⟩

namespace Tracked

/-- The statements around take in nothing that is watched. -/
theorem grow (hk : Tracked W E marks ret s) (hle : s.nextId ≤ t.nextId)
    (hedges : ∀ e, W ⟨e.1, e.2.2⟩ → (e ∈ t.graph.edges ↔ E' e))
    (hscopes : List.Forall₂ (Scope.Grows fun p => ¬W p) s.scopes t.scopes)
    (hreturns : Adds (fun p => ¬W p) s.returns t.returns) : Tracked W E' marks ret t where
  old p hp := Nat.lt_of_lt_of_le (hk.old p hp) hle
  edges := hedges
  handlers :=
    have hgrows : List.Forall₂ (Handler.Grows fun p => ¬W p) (s.scopes.flatMap Scope.handlers)
        (t.scopes.flatMap Scope.handlers) := List.rel_flatMap hscopes fun _ _ hg => hg.handlers
    forall₂_swap (T := Holds W) (fun _ _ _ hg hm => hm.grow hg) hgrows hk.handlers
  strays p hp := by
    rcases forall₂_flatMap_mem_or (P := fun p => ¬W p) (fun _ _ hg => hg.strays) hscopes hp with hp | hp
    exacts [hk.strays p hp, hp]
  returns p hp := (hreturns.mem_iff hp).trans (hk.returns p hp)

/-- The frontier does not matter for what is tracked. -/
theorem withPending (hk : Tracked W E marks ret s) (ps : List Pending) :
    Tracked W E marks ret (s.withPending ps) :=
  ⟨hk.old, hk.edges, hk.handlers, hk.strays, hk.returns⟩

/-- A record of an element as unreachable does not matter for what is tracked. -/
theorem skipped (hk : Tracked W E marks ret s) (element : ElementId) :
    Tracked W E marks ret (s.skipped element) :=
  ⟨hk.old, hk.edges, hk.handlers, hk.strays, hk.returns⟩

theorem withLoopHead (hk : Tracked W E marks ret s) (head : NodeId) :
    Tracked W E marks ret (s.withLoopHead head) :=
  ⟨hk.old, hk.edges, hk.handlers, hk.strays, hk.returns⟩

/-- Only the edges that are watched arcs matter. -/
theorem congr (hk : Tracked W E marks ret s) (hE : ∀ e, W ⟨e.1, e.2.2⟩ → (E e ↔ E' e)) :
    Tracked W E' marks ret s :=
  { hk with edges := fun e he => (hk.edges e he).trans (hE e he) }

/-- New nodes are none of those whose arcs are watched. -/
theorem not_made (hk : Tracked W E marks ret s) {p : Pending} (hm : Made s t p.source) : ¬W p :=
  fun hp => Nat.lt_irrefl _ (Nat.lt_of_lt_of_le (hk.old p hp) hm.2)

/-- What is added starts from arcs that are not watched. -/
theorem extend (hback : ∀ x e, W ⟨x, backEdge e⟩ → W ⟨x, e⟩) (hk : Tracked W E marks ret s)
    (he : Extends P H s t) (hs : Springs ins B s t) (hin : ∀ p ∈ ins, ¬W p) :
    Tracked W E marks ret t := by
  have hno : Adds (fun e => ¬W ⟨e.1, e.2.2⟩) s.graph.edges t.graph.edges := by
    refine Adds.imp (fun e hmem hw => ?_) hs
    rcases hmem with hm | ⟨⟨p, hp, hsource, hlabel⟩, -⟩
    · exact hk.not_made hm hw
    · rw [hsource] at hw
      rcases hlabel with hlabel | hlabel
      · rw [hlabel] at hw
        exact hin p hp hw
      · rw [hlabel] at hw
        exact hin p hp (hback _ _ hw)
  exact hk.grow he.nextId (fun e hw => (hno.mem_iff hw).trans (hk.edges e hw))
    (he.scopes.imp fun _ _ => .imp fun _ => hk.not_made) (he.returns.imp fun _ => hk.not_made)

/-- Sending an arc that is not watched. -/
theorem sent (hk : Tracked W E marks ret s) (hp : ¬W p) (escape : Escape) :
    Tracked W E marks ret (s.sent h p escape) :=
  have hno (p' : Pending) (heq : p' = p) : ¬W p' := heq ▸ hp
  hk.grow (Nat.le_refl _) hk.edges ((sent_scopes h s p escape).imp fun _ _ => .imp hno)
    ((sent_returns h s p escape).imp hno)

/-- Sending arcs that are not watched. -/
theorem sentAll (hk : Tracked W E marks ret s) {escapes : List (Pending × Escape)}
    (hp : ∀ e ∈ escapes, ¬W e.1) : Tracked W E marks ret (s.sentAll h escapes) :=
  sentAll_induction h s escapes (motive := Tracked W E marks ret) hk fun _ e he hk =>
    hk.sent (hp e he) e.2

/-- Leading arcs that are not watched back to the head of a loop. -/
theorem closed (hback : ∀ x e, W ⟨x, backEdge e⟩ → W ⟨x, e⟩) (hk : Tracked W E marks ret s)
    {head : NodeId} {tails : List Pending} (hhead : head ∈ s.graph.ids)
    (hmem : ∀ p ∈ tails, p.source ∈ s.graph.ids) (htails : ∀ p ∈ tails, ¬W p) :
    Tracked W E marks ret (s.closed head tails) := by
  have hno : Adds (fun e => ¬W ⟨e.1, e.2.2⟩) s.graph.edges (s.closed head tails).graph.edges := by
    rw [closed_edges head tails hhead hmem]
    refine ⟨_, rfl, fun e he hw => ?_⟩
    obtain ⟨p, hp, rfl⟩ := List.mem_map.1 he
    exact htails p hp (hback _ _ hw)
  exact hk.grow (Nat.le_refl _) (fun e hw => (hno.mem_iff hw).trans (hk.edges e hw))
    (List.forall₂_same.2 fun a _ => .refl _ a) (.refl _ _)

/-- A statement that has taken in nothing is entered. -/
theorem entered {scope : Scope} (hk : Tracked W E marks ret s) (hh : scope.handlers = [])
    (hstrays : ∀ p ∈ scope.strays, ¬W p) : Tracked W E marks ret (s.entered scope) where
  old := hk.old
  edges := hk.edges
  handlers := by
    rw [entered_scopes, List.flatMap_cons, hh]
    exact hk.handlers
  strays p hp := by
    rw [entered_scopes, List.flatMap_cons] at hp
    exact (List.mem_append.1 hp).elim (hstrays p) (hk.strays p)
  returns := hk.returns

/-- A statement is left. -/
theorem left (hk : Tracked W E marks ret t) (hscopes : t.scopes = t.innermost :: t.left.scopes) :
    List.Forall₂ (Holds W) t.innermost.handlers (marks.take t.innermost.handlers.length) ∧
      (∀ p ∈ t.innermost.strays, ¬W p) ∧
      Tracked W E (marks.drop t.innermost.handlers.length) ret t.left := by
  have hh := hk.handlers
  have hstrays := hk.strays
  rw [hscopes, List.flatMap_cons] at hh hstrays
  refine ⟨(List.forall₂_take_append _ _ _ hh.flip).flip, fun p hp =>
    hstrays p (List.mem_append_left _ hp), hk.old, hk.edges, ?_, fun p hp =>
    hstrays p (List.mem_append_right _ hp), hk.returns⟩
  exact (List.forall₂_drop_append _ _ _ hh.flip).flip

end Tracked

/-! ## Parts and constructs -/

/-- Lowering what no watched arc leads to leaves the watched arcs where they are. -/
theorem Lowered.tracked {part : Part} (hback : ∀ x e, W ⟨x, backEdge e⟩ → W ⟨x, e⟩)
    (hl : Lowered h part s s') (hk : Tracked W E marks ret s) (hin : ∀ p ∈ part.inputs s, ¬W p) :
    Tracked W E marks ret s' ∧ ∀ p ∈ part.outputs s', ¬W p := by
  refine ⟨hk.extend hback hl.grown.ext hl.springs hin, fun p hp => ?_⟩
  rcases hl.grown.outputs p hp with hm | ⟨hmem, -⟩
  · exact hk.not_made hm
  · exact hin p (part.passed_subset s hmem)

section Constructs

variable {point : Point} {effects : Effects} {head id : NodeId}

/-- The watched arcs that a construct starts from lead to the first of its nodes. -/
theorem Constructs.tracked_leading (hc : Constructs h s point effects head id t) (hs : s.Sound)
    (hne : s.pending ≠ []) (hp : ∀ p ∈ s.pending, p.source ∈ s.graph.ids)
    (hk : Tracked W E marks ret s) :
    Tracked W (fun e => E e ∨ e.2.1 = head ∧ ⟨e.1, e.2.2⟩ ∈ s.pending) marks ret t := by
  have hext := hc.extends hs hne hp
  have hmade := hc.made
  obtain ⟨es, he, -, hfirst, -⟩ := hc
  obtain ⟨e, he', rfl⟩ := Option.map_eq_some_iff.1 hfirst
  obtain ⟨rest, rfl⟩ : ∃ rest, es = e :: rest := List.head?_eq_some_iff.1 he'
  refine hk.grow hext.nextId (fun arc hw => ?_)
    (hext.scopes.imp fun _ _ => .imp fun _ => hk.not_made) (hext.returns.imp fun _ => hk.not_made)
  rw [(he.edges_eq hs.inRange hp).2.2, List.mem_append, hk.edges arc hw]
  refine or_congr_right ⟨fun hmem => ?_, fun ⟨htarget, hmem⟩ => ?_⟩
  · rcases mem_lineArcs_cons hmem with ⟨p, hpending, rfl⟩ | ⟨hmem, -⟩
    · exact ⟨rfl, hpending⟩
    · -- the other arcs of the construct start at its own nodes
      obtain ⟨e', hmem', heq⟩ := List.mem_map.1 (show arc.1 ∈ (e :: rest).map (·.node.id) from hmem)
      have hold := hk.old _ hw
      have hnew := he.le_of_mem e' hmem'
      rw [heq] at hnew
      exact absurd hold (Nat.not_lt.2 hnew)
  · exact List.mem_append_left _ (List.mem_map.2 ⟨_, hmem, congrArg (arc.1, ·, arc.2.2) htarget.symm⟩)

/-- A construct that no watched arc leads to leaves the watched arcs where they are. -/
theorem Constructs.tracked (hc : Constructs h s point effects head id t) (hs : s.Sound)
    (hne : s.pending ≠ []) (hp : ∀ p ∈ s.pending, p.source ∈ s.graph.ids)
    (hk : Tracked W E marks ret s) (hin : ∀ p ∈ s.pending, ¬W p) :
    Tracked W E marks ret t ∧ ∀ p ∈ t.pending, ¬W p :=
  ⟨(hc.tracked_leading hs hne hp hk).congr fun _ hw => or_iff_left fun hmem => hin _ hmem.2 hw,
    fun p hmem => hk.not_made (hc.made_pending p hmem)⟩

end Constructs

/-! ## Catch clauses -/

/-- The edges of the watched arcs at some handlers, once their clauses have been lowered. -/
def Led (gs : Guards) (marks : List Mark) (e : NodeId × NodeId × FlowEdge) : Prop :=
  ∃ m ∈ gs.zip marks, m.1.2 = some e.2.1 ∧ m.2.2 ⟨e.1, e.2.2⟩

/-- Marks belong to catch clauses: where something waits there is a node. -/
structure Marked (W : Pending → Prop) (gs : Guards) (marks : List Mark) : Prop where
  length_le : gs.length ≤ marks.length
  types : ∀ m ∈ gs.zip marks, m.2.1 = m.1.1.exceptionType
  nodes : ∀ m ∈ gs.zip marks, m.1.2 = none → ∀ p, W p → ¬m.2.2 p

section Led

variable {clause : CatchClause Stmt} {node : Option NodeId} {mark : Mark}
  {e : NodeId × NodeId × FlowEdge}

@[simp]
theorem led_nil_left : ¬Led [] marks e := by simp [Led]

/-- An edge leads to the first clause or to a later one. -/
theorem led_cons : Led ((clause, node) :: gs) (mark :: marks) e ↔
    (node = some e.2.1 ∧ mark.2 ⟨e.1, e.2.2⟩) ∨ Led gs marks e := by
  simp [Led]

theorem Marked.nil (W : Pending → Prop) (marks : List Mark) : Marked W [] marks :=
  ⟨by simp, by simp, by simp⟩

/-- A mark belongs to a further clause if something that waits there finds a node. -/
theorem Marked.cons (hm : Marked W gs marks) (htype : mark.1 = clause.exceptionType)
    (hnode : node = none → ∀ p, W p → ¬mark.2 p) :
    Marked W ((clause, node) :: gs) (mark :: marks) := by
  refine ⟨Nat.succ_le_succ hm.length_le, ?_, ?_⟩
  · rw [List.zip_cons_cons, List.forall_mem_cons]
    exact ⟨htype, hm.types⟩
  · rw [List.zip_cons_cons, List.forall_mem_cons]
    exact ⟨hnode, hm.nodes⟩

end Led

/-- The watched arcs at the handlers of a `try` lead to the nodes of its catch clauses. -/
theorem ClauseNodes.tracked {handlers : List Handler} {clauses : List (CatchClause Stmt)}
    {after : List Pending} {nodes : List (Option NodeId)}
    (hback : ∀ x e, W ⟨x, backEdge e⟩ → W ⟨x, e⟩)
    (hn : ClauseNodes h handlers clauses after s t nodes)
    (hr : Ready (.catches handlers clauses after) s)
    (htypes : List.Forall₂ (fun (clause : CatchClause Stmt) (handler : Handler) =>
      handler.exceptionType = clause.exceptionType) clauses handlers)
    (hms : List.Forall₂ (Holds W) handlers ms) (hk : Tracked W E marks ret s) :
    Tracked W (fun e => E e ∨ Led (clauses.zip nodes) ms e) marks ret t ∧ (∀ p ∈ after, ¬W p) ∧
      Marked W (clauses.zip nodes) ms := by
  induction hn generalizing E ms with
  | nil =>
    exact ⟨hk.congr fun _ _ => by simp, by simp, .nil W ms⟩
  | unhandled =>
    cases htypes
    exact ⟨hk.congr fun _ _ => by simp, by simp, .nil W ms⟩
  | unentered hin _ ih =>
    obtain ⟨htype, htypes⟩ := List.forall₂_cons.1 htypes
    obtain ⟨mark, ms, hm, hrest, rfl⟩ := List.forall₂_cons_left_iff.1 hms
    obtain ⟨hk', hafter, hmarked⟩ := ih (unentered_ready hr _) htypes hrest (hk.skipped _)
    refine ⟨hk'.congr fun e _ => ?_, hafter, ?_⟩
    · simp [led_cons]
    · refine hmarked.cons (hm.1.symm.trans htype) fun _ p hw hmark => ?_
      have hmem := (hm.2 p hw).2 hmark
      rw [hin] at hmem
      cases hmem
  | @entered handler _ c _ _ s t u v head nodes hne hc hl hn ih =>
    obtain ⟨htype, htypes⟩ := List.forall₂_cons.1 htypes
    obtain ⟨mark, ms, hm, hrest, rfl⟩ := List.forall₂_cons_left_iff.1 hms
    have hincoming : ∀ p ∈ handler.incoming, p.source ∈ s.graph.ids := fun p hp =>
      hr.inputs p (List.mem_append_left _ hp)
    have hkt := hc.tracked_leading (hr.sound.withPending _) hne hincoming (hk.withPending _)
    obtain ⟨hku, hout⟩ := hl.tracked hback hkt fun p hp => (hk.withPending _).not_made (hc.made_pending p hp)
    have hext := (block_made (catch_extends hr hne hc) hc.made_pending hl.grown).1
    obtain ⟨hkv, hafter, hmarked⟩ := ih (catch_ready hr hext) htypes hrest (hku.withPending [])
    refine ⟨hkv.congr fun e hw => ?_, fun p hp => ?_, ?_⟩
    · rw [List.zip_cons_cons, led_cons, or_assoc, withPending_pending, hm.2 _ hw, Option.some_inj,
        eq_comm (a := head)]
    · exact (List.mem_append.1 hp).elim (hout p) (hafter p)
    · exact hmarked.cons (hm.1.symm.trans htype) fun hno => by cases hno

end Lowering

end Slicing
