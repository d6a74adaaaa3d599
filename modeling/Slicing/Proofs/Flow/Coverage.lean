import Slicing.Proofs.Flow.Apart
import Slicing.Proofs.Flow.Routing
import Slicing.Proofs.Flow.Stages

/-!
# Flow graphs cover executions

Whatever a body can do when it runs, its flow graph has a path for it: along the nodes of
the points that are passed, in order. The proof goes along the execution, and looks up how
the statement that is run was lowered.

A part is entered at its first node, and it does not matter from where: from what stands in
front of it, or from the end of a loop that leads back to it. So what is shown of a part
(`Covers`) starts from any node that leads to the first one of the part. An execution that
comes to its end is then at an arc in which the part ends, and one that leaves the part by a
way out is at a node whose way out is noted wherever it may lead (`Lowering.Escapes`).

A part without nodes passes nothing, and its executions come to their end.
-/

namespace Slicing

namespace Lowering

variable {h : Hierarchy} {s s' t u v : Lowering} {P H : NodeId → Prop} {g : FlowGraph}
  {x y id head : NodeId} {τ τ' : List Point} {o o' : Ending} {N N' : NodeId → Prop}
  {R R' : Escape → NodeId → Prop}

/-! ## Going along an execution -/

/-- An execution goes from a node along edges: if it comes to its end, to a node with a
    property, and if it ends by a way out, to a node with a property of this way out. -/
def Goes (g : FlowGraph) (N : NodeId → Prop) (R : Escape → NodeId → Prop) (x : NodeId)
    (τ : List Point) (o : Ending) : Prop :=
  ∃ y, g.Walks x τ y ∧ (o = .normal → N y) ∧ ∀ escape, o = .abrupt escape → R escape y

theorem Goes.imp (hg : Goes g N R x τ o) (hN : o = .normal → ∀ y, N y → N' y)
    (hR : ∀ escape y, R escape y → R' escape y) : Goes g N' R' x τ o :=
  let ⟨y, hw, hn, hr⟩ := hg
  ⟨y, hw, fun ho => hN ho y (hn ho), fun escape ho => hR escape y (hr escape ho)⟩

/-- An execution that goes on where another one has come to its end. -/
theorem Goes.bind (hg : Goes g N R x τ .normal) (hnext : ∀ y, N y → Goes g N' R' y τ' o) :
    Goes g N' R' x (τ ++ τ') o := by
  obtain ⟨y, hw, hn, -⟩ := hg
  obtain ⟨z, hw', hn', hr'⟩ := hnext y (hn rfl)
  exact ⟨z, hw.trans hw', hn', hr'⟩

/-- The same way with another ending. -/
theorem Goes.turn (hg : Goes g N R x τ o)
    (hturn : ∀ y, (o = .normal → N y) → (∀ escape, o = .abrupt escape → R escape y) →
      (o' = .normal → N' y) ∧ ∀ escape, o' = .abrupt escape → R' escape y) :
    Goes g N' R' x τ o' :=
  let ⟨y, hw, hn, hr⟩ := hg
  ⟨y, hw, hturn y hn hr⟩

/-- Behind an ending that control goes on from. -/
theorem Goes.resume (hg : Goes g N R x τ o)
    (hnext : ∀ y, (o = .normal → N y) → (∀ escape, o = .abrupt escape → R escape y) →
      Goes g N' R' y τ' o') : Goes g N' R' x (τ ++ τ') o' := by
  obtain ⟨y, hw, hn, hr⟩ := hg
  obtain ⟨z, hw', hend⟩ := hnext y hn hr
  exact ⟨z, hw.trans hw', hend⟩

/-- What an execution does that passes nothing. -/
theorem Goes.rest (ho : o = .normal ∨ o = .unfinished) (hN : o = .normal → N x) :
    Goes g N R x [] o := by
  refine ⟨x, .done x, hN, fun escape heq => ?_⟩
  rw [heq] at ho
  rcases ho with ho | ho <;> cases ho

/-- An execution of what stands between two sizes of the graph. -/
structure Covers (n m : Nat) (g : FlowGraph) (N : NodeId → Prop) (R : Escape → NodeId → Prop)
    (τ : List Point) (o : Ending) : Prop where
  along : n < m → ∀ x, g.HasEdge x (g.idAt n) → Goes g N R x τ o
  still : m = n → τ = [] ∧ (o = .normal ∨ o = .unfinished)

section Covers

variable {n k m : Nat}

theorem Covers.imp (hc : Covers n m g N R τ o) (hN : o = .normal → ∀ y, N y → N' y)
    (hR : ∀ escape y, R escape y → R' escape y) : Covers n m g N' R' τ o :=
  ⟨fun hlt x hx => (hc.along hlt x hx).imp hN hR, hc.still⟩

/-- One execution behind another. -/
theorem Covers.next (h₁ : Covers n k g N R τ .normal) (h₂ : Covers k m g N' R' τ' o)
    (hnk : n ≤ k) (hkm : k ≤ m) (hent : k < m → ∀ y, N y → g.HasEdge y (g.idAt k))
    (hstill : m = k → ∀ y, N y → N' y) : Covers n m g N' R' (τ ++ τ') o := by
  refine ⟨fun hlt x hx => ?_, fun heq => ?_⟩
  · rcases Nat.lt_or_eq_of_le hnk with hlt₁ | rfl
    · refine (h₁.along hlt₁ x hx).bind fun y hy => ?_
      rcases Nat.lt_or_eq_of_le hkm with hlt₂ | rfl
      · exact h₂.along hlt₂ y (hent hlt₂ y hy)
      · obtain ⟨rfl, ho⟩ := h₂.still rfl
        exact .rest ho fun _ => hstill rfl y hy
    · obtain ⟨rfl, -⟩ := h₁.still rfl
      exact h₂.along hlt x hx
  · obtain ⟨rfl, -⟩ := h₁.still (by omega)
    obtain ⟨rfl, ho⟩ := h₂.still (by omega)
    exact ⟨rfl, ho⟩

/-- An execution that does not come to what stands behind. -/
theorem Covers.stops (h₁ : Covers n k g N R τ o) (ho : o ≠ .normal) (hnk : n ≤ k) (hkm : k ≤ m)
    (hR : ∀ escape, o = .abrupt escape → ∀ y, R escape y → R' escape y) :
    Covers n m g N' R' τ o := by
  refine ⟨fun hlt x hx => ?_, fun heq => h₁.still (by omega)⟩
  rcases Nat.lt_or_eq_of_le hnk with hlt₁ | rfl
  · exact (h₁.along hlt₁ x hx).turn fun y _ hr =>
      ⟨fun heq => absurd heq ho, fun escape heq => hR escape heq y (hr escape heq)⟩
  · obtain ⟨rfl, ho'⟩ := h₁.still rfl
    exact .rest ho' fun heq => absurd heq ho

/-- Behind a way out that control goes on from. -/
theorem Covers.resume {escape : Escape} (h₁ : Covers n k g N R τ (.abrupt escape)) (hnk : n ≤ k)
    (hkm : k ≤ m) (hnext : ∀ y, R escape y → Goes g N' R' y τ' o) :
    Covers n m g N' R' (τ ++ τ') o := by
  have hlt : n < k := by
    rcases Nat.lt_or_eq_of_le hnk with hlt | heq
    · exact hlt
    · rcases (h₁.still heq.symm).2 with ho | ho <;> cases ho
  exact ⟨fun _ x hx => (h₁.along hlt x hx).resume fun y _ hr => hnext y (hr escape rfl),
    fun heq => absurd heq (by omega)⟩

end Covers

/-! ## Constructs -/

/-- What nodes may raise is noted where it may lead. -/
theorem Emits.escapes {es : List Emission} (he : Emits h s es t) :
    ∀ e ∈ es, ∀ exceptionType ∈ e.throws, t.Escapes h (.throwJump exceptionType) e.node.id := by
  induction he with
  | done => simp
  | number _ ih => exact ih
  | record _ _ ih => exact ih
  | @node es t last _ _ _ _ _ ih =>
    intro e hmem exceptionType htype
    rcases List.mem_append.1 hmem with hmem | hmem
    · exact Escapes.sentAll (s := t.placed last.node) (ih e hmem exceptionType htype) _
    · rw [List.mem_singleton.1 hmem] at htype ⊢
      exact escapes_sentAll h (t.placed last.node)
        (e := (⟨last.node.id, _⟩, _)) (List.mem_map_of_mem htype)

/-- Evaluation goes along a line of nodes. -/
theorem line_goes {es : List Emission}
    (hchain : es.IsChain fun e e' => g.HasEdge e.node.id e'.node.id)
    (hat : ∀ e ∈ es, e.node ∈ g.nodes)
    (hthrows : ∀ e ∈ es, ∀ exceptionType ∈ e.throws, R (.throwJump exceptionType) e.node.id)
    (hx : ∀ e ∈ es.head?, g.HasEdge x e.node.id)
    (hev : Evaluates (es.map Emission.step) τ o) :
    Goes g (fun y => (es.getLast?.map (·.node.id)).getD x = y) R x τ o := by
  -- the walk goes node by node, until evaluation pauses or a node raises
  induction es generalizing x τ with
  | nil =>
    cases hev with
    | finish => exact .rest (.inl rfl) fun _ => rfl
    | pause _ => exact .rest (.inr rfl) (by simp)
  | cons e es ih =>
    have hedge := hx e rfl
    have hhere : g.At e.node.id e.step.point := ⟨e.node, hat e List.mem_cons_self, rfl, rfl⟩
    cases hev with
    | pause _ => exact .rest (.inr rfl) (by simp)
    | next _ hev =>
      obtain ⟨y, hw, hn, hr⟩ := ih (List.isChain_cons.1 hchain).2
        (fun e' he' => hat e' (List.mem_cons_of_mem _ he'))
        (fun e' he' => hthrows e' (List.mem_cons_of_mem _ he'))
        (x := e.node.id) (fun e' he' => (List.isChain_cons.1 hchain).1 e' he') hev
      refine ⟨y, .step hedge hhere hw, fun ho => ?_, hr⟩
      rw [← hn ho]
      cases es with
      | nil => rfl
      | cons _ _ => simp [List.getLast?_cons]
    | raise _ htype =>
      refine ⟨e.node.id, .step hedge hhere (.done _), by simp, fun escape heq => ?_⟩
      cases heq
      exact hthrows e List.mem_cons_self _ htype

section Constructs

variable {point : Point} {effects : Effects}

/-- An execution of a construct goes along its nodes. -/
theorem Constructs.goes (hc : Constructs h s point effects head id t) (hs : s.Sound)
    (hne : s.pending ≠ []) (hp : ∀ p ∈ s.pending, p.source ∈ s.graph.ids)
    (hg : t.graph.PartOf g) (hev : Evaluates (effects.steps h point) τ o)
    (hx : g.HasEdge x head) : Goes g (· = id) (t.Escapes h) x τ o := by
  obtain ⟨es, he, hsteps, hhead, hlast⟩ := hc
  rw [← hsteps] at hev
  obtain ⟨first, hfirst, rfl⟩ := Option.map_eq_some_iff.1 hhead
  refine (line_goes ((he.chain hs hne hp).2.imp fun _ _ => hg.hasEdge) (fun e hmem => ?_) he.escapes
    (fun e hmem => ?_) hev).imp (fun _ y hy => ?_) fun _ _ hr => hr
  · refine hg.nodes.subset ?_
    rw [he.nodes_eq]
    exact List.mem_append_right _ (List.mem_map_of_mem hmem)
  · rw [hfirst, Option.mem_some_iff] at hmem
    exact hmem ▸ hx
  · rw [← hy, hlast]
    rfl

/-- An execution of a construct is covered by its nodes. -/
theorem Constructs.covers (hc : Constructs h s point effects head id t) (hs : s.Sound)
    (hne : s.pending ≠ []) (hp : ∀ p ∈ s.pending, p.source ∈ s.graph.ids)
    (hg : t.graph.PartOf g) (hev : Evaluates (effects.steps h point) τ o) :
    Covers s.graph.size t.graph.size g (· = id) (t.Escapes h) τ o := by
  refine ⟨fun hlt x hx => hc.goes hs hne hp hg hev ?_, fun heq =>
    absurd heq (Nat.ne_of_gt hc.nodes.2)⟩
  rwa [hc.head_eq, ← hg.idAt_eq hlt]

end Constructs

/-! ## How statements were lowered -/

section Inversion

variable {source : Element} {stmt : Stmt} {l : Loop} {cond : Effects} {body : List Stmt}
  {catches : List (CatchClause Stmt)}

theorem jump?_of_loop (hloop : stmt.loop? = some l) : stmt.jump? = none := by
  cases stmt <;> first | rfl | cases hloop

/-- A simple statement was lowered by its node. -/
theorem Lowered.simple_inv (hl : Lowered h (.stmt (.simple source cond)) s s')
    (hne : s.pending ≠ []) :
    ∃ head id, Constructs h s ⟨.statement, some source.id⟩ cond head id s' := by
  cases hl with
  | skip _ hp => exact absurd hp hne
  | simple _ _ hc => exact ⟨_, _, hc⟩
  | loopUnentered _ _ hloop => cases hloop
  | tested _ _ hloop => cases hloop
  | endless _ _ hloop => cases hloop
  | jump _ _ hj => cases hj

/-- A branch was lowered by its test and then both its sides. -/
theorem Lowered.branch_inv {thenBranch elseBranch : List Stmt}
    (hl : Lowered h (.stmt (.branch source cond thenBranch elseBranch)) s s')
    (hne : s.pending ≠ []) :
    ∃ t u v head id, Constructs h s ⟨.predicate, some source.id⟩ cond head id t ∧
      Lowered h (.block thenBranch) (t.withPending [.plain id .trueBranch]) u ∧
      Lowered h (.block elseBranch) (u.withPending [.plain id .falseBranch]) v ∧
      s' = v.withPending (v.pending ++ u.pending) := by
  cases hl with
  | skip _ hp => exact absurd hp hne
  | branch _ _ hc hl₁ hl₂ => exact ⟨_, _, _, _, _, hc, hl₁, hl₂, rfl⟩
  | loopUnentered _ _ hloop => cases hloop
  | tested _ _ hloop => cases hloop
  | endless _ _ hloop => cases hloop
  | jump _ _ hj => cases hj

/-- A loop was lowered up to its test, unless nothing comes there. -/
theorem Lowered.loop_inv (hl : Lowered h (.stmt stmt) s s') (hloop : stmt.loop? = some l)
    (hne : s.pending ≠ []) : ∃ t, Lowered h (.block l.init) s t ∧ (t.pending = [] ∧ s' = t ∨
      t.pending ≠ [] ∧ ∃ u v head id enter breaks, Constructs h t l.point l.test head id u ∧
        Lowered h (.rounds id head enter l.body l.update breaks) u v ∧
        v.graph.PartOf s'.graph ∧ v.graph.size = s'.graph.size ∧
        (∀ y, From v.pending y ∨ l.cond.isSome ∧ y = id → From s'.pending y) ∧
        ∀ escape y, v.Escapes h escape y → s'.Escapes h escape y) := by
  cases hl with
  | skip _ hp => exact absurd hp hne
  | @loopUnentered _ l' _ _ _ _ hloop' hl₁ hnil =>
    obtain rfl := Option.some.inj (hloop'.symm.trans hloop)
    exact ⟨_, hl₁, .inl ⟨hnil, rfl⟩⟩
  | @tested _ l' _ _ _ _ _ id _ _ _ hloop' _ hl₁ hne' hc hl₂ =>
    obtain rfl := Option.some.inj (hloop'.symm.trans hloop)
    refine ⟨_, hl₁, .inr ⟨hne', _, _, _, _, _, _, hc, hl₂, .refl _, rfl, ?_, fun _ _ he => he⟩⟩
    rintro y (⟨p, hp, hid⟩ | ⟨-, rfl⟩)
    · exact ⟨p, List.mem_append_left _ hp, hid⟩
    · exact ⟨_, List.mem_append_right _ (List.mem_singleton_self _), rfl⟩
  | @endless _ l' _ _ _ v head _ _ _ hloop' hnone hl₁ hne' hc hl₂ =>
    obtain rfl := Option.some.inj (hloop'.symm.trans hloop)
    refine ⟨_, hl₁, .inr ⟨hne', _, v, _, _, _, _, hc, hl₂, ?_⟩⟩
    have hends (y : NodeId) (hy : From v.pending y ∨ l'.cond.isSome ∧ y = head) :
        From v.pending y := by
      rcases hy with hy | ⟨hsome, -⟩
      · exact hy
      · rw [hnone] at hsome
        cases hsome
    split
    · exact ⟨.refl _, rfl, hends, fun _ _ he => he⟩
    · exact ⟨.refl _, rfl, hends, fun _ _ he => he⟩
  | simple => cases hloop
  | branch => cases hloop
  | footless => cases hloop
  | footed => cases hloop
  | select => cases hloop
  | jump _ _ hj => cases (jump?_of_loop hloop).symm.trans hj
  | tryPlain => cases hloop
  | tryNodeless => cases hloop
  | tryFinally => cases hloop
  | nested => cases hloop

/-- A loop with its test behind was lowered with its test, unless nothing comes there. -/
theorem Lowered.foot_inv (hl : Lowered h (.stmt (.doWhile source body cond)) s s')
    (hne : s.pending ≠ []) : ∃ t, Lowered h (.block body) (s.entered (.loop [] [])) t ∧
      (t.pending ++ t.innermost.continues = [] ∧
        s' = ((t.left.withPending []).skipped source.id).withPending t.innermost.breaks ∨
      t.pending ++ t.innermost.continues ≠ [] ∧ ∃ u head id,
        Constructs h (t.left.withPending (t.pending ++ t.innermost.continues))
          ⟨.predicate, some source.id⟩ cond head id u ∧
        s' = (u.closed (if s.graph.size < t.graph.size then u.graph.idAt s.graph.size else head)
          [.plain id .loopBack]).withPending (.plain id .falseBranch :: t.innermost.breaks)) := by
  cases hl with
  | skip _ hp => exact absurd hp hne
  | footless _ _ hl hnil => exact ⟨_, hl, .inl ⟨hnil, rfl⟩⟩
  | footed _ _ hl hne' hc => exact ⟨_, hl, .inr ⟨hne', _, _, _, hc, rfl⟩⟩
  | loopUnentered _ _ hloop => cases hloop
  | tested _ _ hloop => cases hloop
  | endless _ _ hloop => cases hloop
  | jump _ _ hj => cases hj

/-- A `switch` was lowered by its selector and then its cases. -/
theorem Lowered.select_inv {cases : List (SwitchCase Stmt)}
    (hl : Lowered h (.stmt (.select source cond cases)) s s') (hne : s.pending ≠ []) :
    ∃ t u head id, Constructs h s ⟨.predicate, some source.id⟩ cond head id t ∧
      Lowered h (.cases source id [] cases) (t.entered (.select [])) u ∧
      s' = u.left.withPending (u.pending ++ u.innermost.breaks ++ skipArcs id cases) := by
  cases hl with
  | skip _ hp => exact absurd hp hne
  | select _ _ hc hl => exact ⟨_, _, _, _, hc, hl, rfl⟩
  | loopUnentered _ _ hloop => cases hloop
  | tested _ _ hloop => cases hloop
  | endless _ _ hloop => cases hloop
  | jump _ _ hj => cases hj

/-- A jump was lowered by its node, and its way out was sent. -/
theorem Lowered.jump_inv {j : Jump} (hl : Lowered h (.stmt stmt) s s') (hj : stmt.jump? = some j)
    (hne : s.pending ≠ []) :
    ∃ t head id, Constructs h s ⟨j.kind, some j.source.id⟩ j.value head id t ∧
      s' = (t.withPending []).sent h ⟨id, j.escape.edge⟩ j.escape := by
  cases hl with
  | skip _ hp => exact absurd hp hne
  | jump _ _ hj' hc =>
    obtain rfl := Option.some.inj (hj'.symm.trans hj)
    exact ⟨_, _, _, hc, rfl⟩
  | loopUnentered _ _ hloop => cases (jump?_of_loop hloop).symm.trans hj
  | tested _ _ hloop => cases (jump?_of_loop hloop).symm.trans hj
  | endless _ _ hloop => cases (jump?_of_loop hloop).symm.trans hj
  | simple => cases hj
  | branch => cases hj
  | footless => cases hj
  | footed => cases hj
  | select => cases hj
  | tryPlain => cases hj
  | tryNodeless => cases hj
  | tryFinally => cases hj
  | nested => cases hj

theorem Lowered.nested_inv (hl : Lowered h (.stmt (.block source body)) s s')
    (hne : s.pending ≠ []) : Lowered h (.block body) s s' := by
  cases hl with
  | skip _ hp => exact absurd hp hne
  | nested _ _ hl => exact hl
  | loopUnentered _ _ hloop => cases hloop
  | tested _ _ hloop => cases hloop
  | endless _ _ hloop => cases hloop
  | jump _ _ hj => cases hj

/-- A `try` was lowered up to its `finally` block. -/
theorem Lowered.try_inv {finalizer : Option (List Stmt)}
    (hl : Lowered h (.stmt (.tryBlock source body catches finalizer)) s s')
    (hne : s.pending ≠ []) :
    ∃ t u after, Lowered h (.block body) (s.entered (tryScope catches finalizer.isSome)) t ∧
      Lowered h (.catches t.innermost.handlers catches after)
        ((t.left.withPending []).entered t.innermost.withoutHandlers) u ∧
      match finalizer with
      | none => s' = u.left.withPending (t.pending ++ after)
      | some finalizer => ∃ v, Lowered h (.block finalizer)
          (u.left.withPending (t.pending ++ after ++ u.innermost.escapes.map (·.1))) v ∧
        (v.graph.size = u.graph.size ∧ s' = (v.withPending (v.pending.filter fun p =>
          !(u.innermost.escapes.map (·.1)).contains p)).sentAll h u.innermost.escapes ∨
        v.graph.size ≠ u.graph.size ∧
          s' = (v.withPending (if (t.pending ++ after).isEmpty then [] else v.pending)).sentAll h
            (redirected u.innermost.escapes v.pending)) := by
  cases hl with
  | skip _ hp => exact absurd hp hne
  | tryPlain _ _ hl₁ hl₂ => exact ⟨_, _, _, hl₁, hl₂, rfl⟩
  | tryNodeless _ _ hl₁ hl₂ hl₃ hsize => exact ⟨_, _, _, hl₁, hl₂, _, hl₃, .inl ⟨hsize, rfl⟩⟩
  | tryFinally _ _ hl₁ hl₂ hl₃ hsize => exact ⟨_, _, _, hl₁, hl₂, _, hl₃, .inr ⟨hsize, rfl⟩⟩
  | loopUnentered _ _ hloop => cases hloop
  | tested _ _ hloop => cases hloop
  | endless _ _ hloop => cases hloop
  | jump _ _ hj => cases hj

end Inversion

/-! ## Executions of parts -/

/-- What it means that an execution is covered, wherever it happens. -/
def Coverage (h : Hierarchy) (τ : List Point) (o : Ending) : Code → Prop
  | .stmt stmt => ∀ {s s' : Lowering} {g : FlowGraph} {inside : Bool},
      Lowered h (.stmt stmt) s s' → s.pending ≠ [] → s'.graph.PartOf g → stmt.endsApart inside →
      Covers s.graph.size s'.graph.size g (From s'.pending) (s'.Escapes h) τ o
  | .block stmts => ∀ {s s' : Lowering} {g : FlowGraph} {inside : Bool},
      Lowered h (.block stmts) s s' → s.pending ≠ [] → s'.graph.PartOf g →
      blockEndsApart inside stmts →
      Covers s.graph.size s'.graph.size g (From s'.pending) (s'.Escapes h) τ o
  | .rounds l => ∀ {t u v : Lowering} {g : FlowGraph} {inside : Bool} {head id : NodeId}
      {enter : FlowKind} {breaks : List Pending},
      Ready (.block []) t → t.pending ≠ [] → Constructs h t l.point l.test head id u →
      Lowered h (.rounds id head enter l.body l.update breaks) u v → v.graph.PartOf g →
      blockEndsApart inside l.body → blockEndsApart inside l.update →
      ∀ x, g.HasEdge x head →
        Goes g (fun y => From v.pending y ∨ l.cond.isSome ∧ y = id) (v.Escapes h) x τ o
  | .cases cases => ∀ {s s' : Lowering} {g : FlowGraph} {inside : Bool} {source : Element}
      {selector : NodeId} {fallthrough : List Pending},
      Lowered h (.cases source selector fallthrough cases) s s' → s'.graph.PartOf g →
      casesEndsApart inside cases →
      ∀ x, From fallthrough x ∨ cases ≠ [] ∧ x = selector →
        Goes g (From s'.pending) (s'.Escapes h) x τ o
  | .guarded body catches => ∀ {s t u : Lowering} {g : FlowGraph} {inside hasFinalizer : Bool}
      {after : List Pending},
      Lowered h (.block body) (s.entered (tryScope catches hasFinalizer)) t →
      Lowered h (.catches t.innermost.handlers catches after)
        ((t.left.withPending []).entered t.innermost.withoutHandlers) u →
      s.pending ≠ [] → u.graph.PartOf g → blockEndsApart inside body →
      catchesEndsApart inside catches →
      Covers s.graph.size u.graph.size g (From (t.pending ++ after)) (u.Escapes h) τ o

/-- A block that is entered from what stands in front of it. -/
theorem Covers.goes {stmts : List Stmt}
    (hc : Covers s.graph.size s'.graph.size g (From s'.pending) (s'.Escapes h) τ o)
    (hl : Lowered h (.block stmts) s s') (hg : s'.graph.PartOf g) (hx : From s.pending x) :
    Goes g (From s'.pending) (s'.Escapes h) x τ o := by
  rcases Nat.lt_or_eq_of_le hl.size_le with hlt | heq
  · obtain ⟨p, hp, rfl⟩ := hx
    have hent : Entered s.pending s.graph.size s'.graph := hl.entered hlt
    exact hc.along hlt _ (hent.mono hlt hg p hp)
  · obtain ⟨rfl, ho⟩ := hc.still heq.symm
    refine .rest ho fun _ => ?_
    rw [(hl.inert heq.symm).1.pending]
    exact hx

theorem from_ne_nil {ps : List Pending} (hx : From ps x) : ps ≠ [] := by
  obtain ⟨p, hp, -⟩ := hx
  exact List.ne_nil_of_mem hp

theorem from_plain (id : NodeId) (kind : FlowKind) : From [.plain id kind] id :=
  ⟨_, List.mem_singleton_self _, rfl⟩

/-- A block behind a construct. -/
theorem Coverage.behind {stmts : List Stmt} {inside : Bool} {kind : FlowKind}
    (hcov : Coverage h τ o (.block stmts))
    (hl : Lowered h (.block stmts) (s.withPending [.plain id kind]) s') (hg : s'.graph.PartOf g)
    (hapart : blockEndsApart inside stmts) : Goes g (From s'.pending) (s'.Escapes h) id τ o :=
  (hcov hl (by simp) hg hapart).goes hl hg (from_plain id kind)

/-! ### Blocks and branches -/

/-- A block whose first statement comes to its end. -/
theorem block_next {stmt : Stmt} {stmts : List Stmt}
    (ih₁ : Coverage h τ .normal (.stmt stmt)) (ih₂ : Coverage h τ' o (.block stmts)) :
    Coverage h (τ ++ τ') o (.block (stmt :: stmts)) := by
  intro s s' g inside hl hne hg hapart
  obtain ⟨hapart₁, hapart₂⟩ := Bool.and_eq_true_iff.1 hapart
  cases hl with
  | @blockNext _ _ _ t _ _ hl₁ hl₂ =>
    have hg₁ := hl₂.graph.trans hg
    have h₁ := ih₁ hl₁ hne hg₁ hapart₁
    -- control comes to the rest only if the frontier behind the statement is not empty
    by_cases hne₂ : t.pending = []
    · rcases Nat.lt_or_eq_of_le hl₁.size_le with hlt | heq
      · refine ⟨fun _ x hx => ?_, fun heq => absurd heq (Nat.ne_of_gt
          (Nat.lt_of_lt_of_le hlt hl₂.size_le))⟩
        refine (h₁.along hlt x hx).bind fun y hy => absurd hne₂ (from_ne_nil hy)
      · exact absurd ((hl₁.inert heq.symm).1.pending.symm.trans hne₂) hne
    · have h₂ := ih₂ hl₂ hne₂ hg hapart₂
      refine h₁.next h₂ hl₁.size_le hl₂.size_le (fun hlt y hy => ?_) fun heq y hy => ?_
      · obtain ⟨p, hp, rfl⟩ := hy
        have hent : Entered t.pending t.graph.size s'.graph := hl₂.entered hlt
        exact hent.mono hlt hg p hp
      · rw [(hl₂.inert heq).1.pending]
        exact hy

/-- A block whose first statement does not come to its end. -/
theorem block_stops {stmt : Stmt} {stmts : List Stmt} (ih : Coverage h τ o (.stmt stmt))
    (ho : o ≠ .normal) : Coverage h τ o (.block (stmt :: stmts)) := by
  intro s s' g inside hl hne hg hapart
  obtain ⟨hapart₁, -⟩ := Bool.and_eq_true_iff.1 hapart
  cases hl with
  | blockNext _ hl₁ hl₂ =>
    exact (ih hl₁ hne (hl₂.graph.trans hg) hapart₁).stops ho hl₁.size_le hl₂.size_le
      fun _ _ _ => hl₂.grown.ext.escapes

/-- A simple statement. -/
theorem simple_covers {source : Element} {effects : Effects}
    (hev : Evaluates (effects.steps h ⟨.statement, some source.id⟩) τ o) :
    Coverage h τ o (.stmt (.simple source effects)) := by
  intro s s' g inside hl hne hg _
  obtain ⟨head, id, hc⟩ := hl.simple_inv hne
  refine (hc.covers hl.ready.sound hne hl.ready.inputs hg hev).imp ?_ fun _ _ he => he
  rintro - _ rfl
  rw [hc.pending_eq]
  exact from_plain _ _

/-- An execution that ends in the construct with which a statement starts. -/
theorem Constructs.covers_stops {stmt : Stmt} {point : Point} {effects : Effects}
    (hc : Constructs h s point effects head id t) (hr : Ready (.stmt stmt) s)
    (hne : s.pending ≠ []) (hg : t.graph.PartOf s'.graph) (hg' : s'.graph.PartOf g)
    (hev : Evaluates (effects.steps h point) τ o) (ho : o ≠ .normal)
    (hesc : ∀ escape y, t.Escapes h escape y → s'.Escapes h escape y) :
    Covers s.graph.size s'.graph.size g N (s'.Escapes h) τ o :=
  (hc.covers hr.sound hne hr.inputs (hg.trans hg') hev).stops ho hc.nodes.1.length_le hg.size_le
    fun escape _ => hesc escape

/-- An execution that passes the construct with which a statement starts. -/
theorem Constructs.covers_next {stmt : Stmt} {point : Point} {effects : Effects}
    (hc : Constructs h s point effects head id t) (hr : Ready (.stmt stmt) s)
    (hne : s.pending ≠ []) (hg : t.graph.PartOf s'.graph) (hg' : s'.graph.PartOf g)
    (hev : Evaluates (effects.steps h point) τ .normal)
    (hnext : Goes g N R id τ' o) : Covers s.graph.size s'.graph.size g N R (τ ++ τ') o := by
  have hcov := hc.covers hr.sound hne hr.inputs (hg.trans hg') hev
  have hlt := hc.nodes.2
  refine ⟨fun _ x hx => (hcov.along hlt x hx).bind fun y hy => hy ▸ hnext, fun heq => ?_⟩
  exact absurd heq (Nat.ne_of_gt (Nat.lt_of_lt_of_le hlt hg.size_le))

section Branch

variable {source : Element} {cond : Effects} {thenBranch elseBranch : List Stmt}

/-- A branch that does not come to an end of its test. -/
theorem branch_stops (hev : Evaluates (cond.steps h ⟨.predicate, some source.id⟩) τ o)
    (ho : o ≠ .normal) : Coverage h τ o (.stmt (.branch source cond thenBranch elseBranch)) := by
  intro s s' g inside hl hne hg _
  obtain ⟨t, u, v, head, id, hc, hl₁, hl₂, rfl⟩ := hl.branch_inv hne
  exact hc.covers_stops hl.ready hne (hl₁.graph.trans hl₂.graph) hg hev ho fun _ _ he =>
    hl₂.grown.ext.escapes (hl₁.grown.ext.escapes he)

/-- A branch that goes on with its first side. -/
theorem branch_then (hev : Evaluates (cond.steps h ⟨.predicate, some source.id⟩) τ .normal)
    (ih : Coverage h τ' o (.block thenBranch)) :
    Coverage h (τ ++ τ') o (.stmt (.branch source cond thenBranch elseBranch)) := by
  intro s s' g inside hl hne hg hapart
  obtain ⟨hapart₁, -⟩ := Bool.and_eq_true_iff.1 hapart
  obtain ⟨t, u, v, head, id, hc, hl₁, hl₂, rfl⟩ := hl.branch_inv hne
  refine hc.covers_next hl.ready hne (hl₁.graph.trans hl₂.graph) hg hev ?_
  refine (ih.behind hl₁ (hl₂.graph.trans hg) hapart₁).imp (fun _ y hy => ?_) fun _ _ he => ?_
  · exact hy.mono (List.subset_append_right _ _)
  · exact hl₂.grown.ext.escapes he

/-- A branch that goes on with its second side. -/
theorem branch_else (hev : Evaluates (cond.steps h ⟨.predicate, some source.id⟩) τ .normal)
    (ih : Coverage h τ' o (.block elseBranch)) :
    Coverage h (τ ++ τ') o (.stmt (.branch source cond thenBranch elseBranch)) := by
  intro s s' g inside hl hne hg hapart
  obtain ⟨-, hapart₂⟩ := Bool.and_eq_true_iff.1 hapart
  obtain ⟨t, u, v, head, id, hc, hl₁, hl₂, rfl⟩ := hl.branch_inv hne
  refine hc.covers_next hl.ready hne (hl₁.graph.trans hl₂.graph) hg hev ?_
  exact (ih.behind hl₂ hg hapart₂).imp (fun _ y hy => hy.mono (List.subset_append_left _ _))
    fun _ _ he => he

end Branch

/-! ### Loops -/

/-- A statement is left by a way out that it has not taken in for certain. -/
theorem escapes_leave {scope : Scope} {escape : Escape} (hext : Extends P H (s.entered scope) t)
    (he : t.Escapes h escape y) : t.innermost.Notes h escape y ∧
      (t.innermost.Passes h escape → t.left.Escapes h escape y) := by
  obtain ⟨scope', scopes', -, -, heq⟩ := List.forall₂_cons_left_iff.1 hext.scopes
  rw [Escapes, heq] at he
  rw [Escapes, innermost, left_scopes, heq]
  exact he

/-- A loop has noted its breaks and continues, and all else leaves it. -/
theorem loop_escapes {escape : Escape} (hext : Extends P H (s.entered (.loop [] [])) t)
    (he : t.Escapes h escape y) :
    (escape = .breakJump → From t.innermost.breaks y) ∧
      (escape = .continueJump → From t.innermost.continues y) ∧
      (escape ≠ .breakJump → escape ≠ .continueJump → t.left.Escapes h escape y) := by
  obtain ⟨hnotes, hpasses⟩ := escapes_leave hext he
  have hgrows := hext.leave.2
  generalize t.innermost = scope at *
  cases hgrows with
  | loop _ _ => exact ⟨hnotes.1, hnotes.2, fun h₁ h₂ => hpasses ⟨h₁, h₂⟩⟩

/-- A `switch` has noted its breaks, and all else leaves it. -/
theorem select_escapes {escape : Escape} (hext : Extends P H (s.entered (.select [])) t)
    (he : t.Escapes h escape y) : (escape = .breakJump → From t.innermost.breaks y) ∧
      (escape ≠ .breakJump → t.left.Escapes h escape y) := by
  obtain ⟨hnotes, hpasses⟩ := escapes_leave hext he
  have hgrows := hext.leave.2
  generalize t.innermost = scope at *
  cases hgrows with
  | select _ => exact ⟨hnotes, hpasses⟩

/-- Where the execution of the body of a loop is when the round is over. -/
theorem endsRound_from (hext : Extends P H (s.entered (.loop [] [])) t) (ho : o.EndsRound)
    (hn : o = .normal → From t.pending y)
    (hr : ∀ escape, o = .abrupt escape → t.Escapes h escape y) :
    From (t.pending ++ t.innermost.continues) y := by
  rcases ho with ho | ho
  · exact (hn ho).mono (List.subset_append_left _ _)
  · exact ((loop_escapes hext (hr _ ho)).2.1 rfl).mono (List.subset_append_right _ _)

/-- Where the execution of the body of a loop is when it ends the loop as well. -/
theorem endsLoop_escapes {escape : Escape} (hext : Extends P H (s.entered (.loop [] [])) t)
    (ho : o.EndsLoop) (heq : o = .abrupt escape) (he : t.Escapes h escape y) :
    t.left.Escapes h escape y := by
  refine (loop_escapes hext he).2.2 ?_ ?_
  · rintro rfl
    exact ho.2 heq
  · rintro rfl
    exact ho.1 (.inr heq)

section Rounds

variable {l : Loop} {τ₂ τ₃ : List Point}

/-- The rounds of a loop that end with its test. -/
theorem rounds_test (hev : Evaluates (l.test.steps h l.point) τ o)
    (ho : o = .normal → l.cond.isSome) : Coverage h τ o (.rounds l) := by
  intro t u v g inside head id enter breaks hready hne hc hl hg _ _ x hx
  refine (hc.goes hready.sound hne hready.inputs (hl.graph.trans hg) hev hx).imp
    (fun heq y hy => .inr ⟨ho heq, hy⟩) fun _ _ he => hl.grown.ext.escapes he

/-- The lowering of a round: the body, and the update if something comes to it. -/
theorem Lowered.rounds_inv {node : NodeId} {enter : FlowKind} {body update : List Stmt}
    {breaks : List Pending} (hl : Lowered h (.rounds node head enter body update breaks) s s') :
    ∃ t u, Lowered h (.block body) ((s.withPending [.plain node enter]).entered (.loop [] [])) t ∧
      Lowered h (.update update) (t.left.withPending (t.pending ++ t.innermost.continues)) u ∧
      (∀ y, From t.innermost.breaks y → From s'.pending y) ∧ u.graph.PartOf s'.graph ∧
      (∀ y, From u.pending y → s'.graph.HasEdge y head) ∧
      ∀ escape y, u.Escapes h escape y → s'.Escapes h escape y := by
  cases hl with
  | @rounds _ _ _ _ _ _ t u hr hl₁ hl₂ =>
    refine ⟨t, u, hl₁, hl₂, fun _ hy => hy, closed_graph (u.withPending []) head u.pending, ?_,
      fun _ _ he => he⟩
    rintro _ ⟨p, hp, rfl⟩
    have hhead : head ∈ u.graph.ids :=
      hl₂.grown.ext.ids_subset (hl₁.grown.ext.ids_subset (hr.heads head rfl))
    have hedges : ((u.withPending []).closed head u.pending).graph.edges = _ :=
      closed_edges head u.pending hhead (hl₂.grown.outputs_mem hl₂.ready)
    refine ⟨backEdge p.edge, ?_⟩
    rw [withPending_graph, hedges]
    exact List.mem_append_right _ (List.mem_map.2 ⟨p, hp, rfl⟩)

/-- An update that something leads to was lowered as a block. -/
theorem Lowered.update_inv {stmts : List Stmt} (hl : Lowered h (.update stmts) s s')
    (hne : s.pending ≠ []) : Lowered h (.block stmts) s s' := by
  cases hl with
  | updateUnentered _ hp => exact absurd hp hne
  | update _ _ hl => exact hl

/-- A round of a loop up to the end of its body. -/
theorem round_goes {enter : FlowKind} {inside : Bool}
    (hready : Ready (.block []) s) (hne : s.pending ≠ [])
    (hc : Constructs h s l.point l.test head id t)
    (hl : Lowered h (.block l.body) ((t.withPending [.plain id enter]).entered (.loop [] [])) u)
    (hg : u.graph.PartOf g) (hapart : blockEndsApart inside l.body)
    (hev : Evaluates (l.test.steps h l.point) τ .normal) (ih : Coverage h τ' o (.block l.body))
    (hx : g.HasEdge x head) : Goes g (From u.pending) (u.Escapes h) x (τ ++ τ') o := by
  refine (hc.goes hready.sound hne hready.inputs (hl.graph.trans hg) hev hx).bind ?_
  rintro _ rfl
  exact (ih hl (by simp) hg hapart).goes hl hg (from_plain _ _)

/-- The rounds of a loop that end with a break. -/
theorem rounds_breaks (hev : Evaluates (l.test.steps h l.point) τ .normal)
    (ih : Coverage h τ' (.abrupt .breakJump) (.block l.body)) :
    Coverage h (τ ++ τ') .normal (.rounds l) := by
  intro t u v g inside head id enter breaks hready hne hc hl hg hapart _ x hx
  obtain ⟨t', u', hl₁, hl₂, hbreaks, hgv, -, -⟩ := hl.rounds_inv
  have hg₁ := (hl₂.graph.trans hgv).trans hg
  refine (round_goes hready hne hc hl₁ hg₁ hapart hev ih hx).turn fun y _ hr =>
    ⟨fun _ => .inl (hbreaks y ?_), by simp⟩
  exact (loop_escapes hl₁.grown.ext (hr _ rfl)).1 rfl

/-- The rounds of a loop that end with a way out of it. -/
theorem rounds_stops (hev : Evaluates (l.test.steps h l.point) τ .normal)
    (ih : Coverage h τ' o (.block l.body)) (ho : o.EndsLoop) :
    Coverage h (τ ++ τ') o (.rounds l) := by
  intro t u v g inside head id enter breaks hready hne hc hl hg hapart _ x hx
  obtain ⟨t', u', hl₁, hl₂, -, hgv, -, hesc⟩ := hl.rounds_inv
  have hg₁ := (hl₂.graph.trans hgv).trans hg
  refine (round_goes hready hne hc hl₁ hg₁ hapart hev ih hx).turn fun y _ hr =>
    ⟨fun heq => absurd (.inl heq) ho.1, fun escape heq => hesc escape y ?_⟩
  exact hl₂.grown.ext.of_withPending.escapes
    (endsLoop_escapes hl₁.grown.ext ho heq (hr escape heq))

/-- A round of a loop up to the end of its update. -/
theorem rounds_update (hev : Evaluates (l.test.steps h l.point) τ .normal)
    (ih₁ : Coverage h τ' o (.block l.body)) (ho : o.EndsRound)
    (ih₂ : Coverage h τ₂ o' (.block l.update)) {inside : Bool} {enter : FlowKind}
    {breaks : List Pending} (hready : Ready (.block []) s) (hne : s.pending ≠ [])
    (hc : Constructs h s l.point l.test head id t)
    (hl : Lowered h (.rounds id head enter l.body l.update breaks) t u) (hg : u.graph.PartOf g)
    (hapart₁ : blockEndsApart inside l.body) (hapart₂ : blockEndsApart inside l.update)
    (hx : g.HasEdge x head) :
    Goes g (fun y => g.HasEdge y head) (u.Escapes h) x (τ ++ τ' ++ τ₂) o' := by
  obtain ⟨t', u', hl₁, hl₂, -, hgv, hback, hesc⟩ := hl.rounds_inv
  have hg₁ := (hl₂.graph.trans hgv).trans hg
  refine (round_goes hready hne hc hl₁ hg₁ hapart₁ hev ih₁ hx).resume fun y hn hr => ?_
  have hy := endsRound_from hl₁.grown.ext ho hn hr
  have hl₂ := hl₂.update_inv (from_ne_nil hy)
  exact ((ih₂ hl₂ (from_ne_nil hy) (hgv.trans hg) hapart₂).goes hl₂ (hgv.trans hg) hy).imp
    (fun _ z hz => hg.hasEdge (hback z hz)) hesc

/-- The rounds of a loop that end in its update. -/
theorem rounds_update_stops (hev : Evaluates (l.test.steps h l.point) τ .normal)
    (ih₁ : Coverage h τ' o (.block l.body)) (ho : o.EndsRound)
    (ih₂ : Coverage h τ₂ o' (.block l.update)) (ho' : o' ≠ .normal) :
    Coverage h (τ ++ τ' ++ τ₂) o' (.rounds l) := by
  intro t u v g inside head id enter breaks hready hne hc hl hg hapart₁ hapart₂ x hx
  exact (rounds_update hev ih₁ ho ih₂ hready hne hc hl hg hapart₁ hapart₂ hx).imp
    (fun heq => absurd heq ho') fun _ _ he => he

/-- The rounds of a loop that go on with another one. -/
theorem rounds_again (hev : Evaluates (l.test.steps h l.point) τ .normal)
    (ih₁ : Coverage h τ' o (.block l.body)) (ho : o.EndsRound)
    (ih₂ : Coverage h τ₂ .normal (.block l.update)) (ih₃ : Coverage h τ₃ o' (.rounds l)) :
    Coverage h (τ ++ τ' ++ τ₂ ++ τ₃) o' (.rounds l) := by
  intro t u v g inside head id enter breaks hready hne hc hl hg hapart₁ hapart₂ x hx
  exact (rounds_update hev ih₁ ho ih₂ hready hne hc hl hg hapart₁ hapart₂ hx).bind fun y hy =>
    ih₃ hready hne hc hl hg hapart₁ hapart₂ y hy

end Rounds

section Loops

variable {stmt : Stmt} {l : Loop}

/-- A loop that ends while it starts. -/
theorem loop_stops (hloop : stmt.loop? = some l) (ih : Coverage h τ o (.block l.init))
    (ho : o ≠ .normal) : Coverage h τ o (.stmt stmt) := by
  intro s s' g inside hl hne hg hapart
  have hinit := ((Stmt.endsApart_loop_iff hloop).1 hapart).1
  obtain ⟨t, hl₁, ⟨-, rfl⟩ | ⟨hne', u, v, head, id, enter, breaks, hc, hl₂, hgv, hsize, -, hesc⟩⟩ :=
    hl.loop_inv hloop hne
  · exact ih hl₁ hne hg hinit
  · have hext := hc.extends hl₁.grown.ext.sound hne' (hl₁.grown.outputs_mem hl₁.ready)
    have hg₁ := (hext.graph.trans hl₂.graph).trans hgv
    exact (ih hl₁ hne (hg₁.trans hg) hinit).stops ho hl₁.size_le hg₁.size_le
      fun escape _ y he => hesc escape y (hl₂.grown.ext.escapes (hext.escapes he))

/-- A loop that comes to its test. -/
theorem loop_goes (hloop : stmt.loop? = some l) (ih₁ : Coverage h τ .normal (.block l.init))
    (ih₂ : Coverage h τ' o (.rounds l)) : Coverage h (τ ++ τ') o (.stmt stmt) := by
  intro s s' g inside hl hne hg hapart
  obtain ⟨hinit, hbody, hupdate⟩ := (Stmt.endsApart_loop_iff hloop).1 hapart
  obtain ⟨t, hl₁, ⟨hnil, rfl⟩ |
    ⟨hne', u, v, head, id, enter, breaks, hc, hl₂, hgv, hsize, hends, hesc⟩⟩ := hl.loop_inv hloop hne
  · -- nothing comes to the test, so no execution comes to the end of what is in front of it
    have hcov := ih₁ hl₁ hne hg hinit
    rcases Nat.lt_or_eq_of_le hl₁.size_le with hlt | heq
    · exact ⟨fun _ x hx => (hcov.along hlt x hx).bind fun y hy => absurd hnil (from_ne_nil hy),
        fun heq => absurd heq (Nat.ne_of_gt hlt)⟩
    · exact absurd ((hl₁.inert heq.symm).1.pending.symm.trans hnil) hne
  · have hmem := hl₁.grown.outputs_mem hl₁.ready
    have hext := hc.extends hl₁.grown.ext.sound hne' hmem
    have hg₁ := (hext.graph.trans hl₂.graph).trans hgv
    have hlt : t.graph.size < s'.graph.size := Nat.lt_of_lt_of_le hc.nodes.2
      (hsize ▸ hl₂.size_le)
    have hready : Ready (.block []) t := ⟨hl₁.grown.ext.sound, hmem, fun _ hf => hf.elim⟩
    have hrounds := ih₂ hready hne' hc hl₂ (hgv.trans hg) hbody hupdate
    have hhead : head = g.idAt t.graph.size := by
      rw [hc.head_eq, ((hl₂.graph.trans hgv).trans hg).idAt_eq hc.nodes.2]
    have hcov : Covers t.graph.size s'.graph.size g (From s'.pending) (s'.Escapes h) τ' o :=
      ⟨fun _ x hx => (hrounds x (hhead ▸ hx)).imp (fun _ => hends) hesc, fun heq =>
        absurd heq (Nat.ne_of_gt hlt)⟩
    refine (ih₁ hl₁ hne (hg₁.trans hg) hinit).next hcov hl₁.size_le (Nat.le_of_lt hlt)
      (fun _ y hy => ?_) fun heq => absurd heq (Nat.ne_of_gt hlt)
    obtain ⟨p, hp, rfl⟩ := hy
    have hent := hc.entered hl₁.grown.ext.sound hne' hmem
    exact hent.mono hc.nodes.2 ((hl₂.graph.trans hgv).trans hg) p hp

end Loops

section Foot

variable {source : Element} {body : List Stmt} {cond : Effects}

/-- A loop with its test behind that ends with a break. -/
theorem foot_breaks (ih : Coverage h τ (.abrupt .breakJump) (.block body)) :
    Coverage h τ .normal (.stmt (.doWhile source body cond)) := by
  intro s s' g inside hl hne hg hapart
  obtain ⟨t, hl₁, hfoot⟩ := hl.foot_inv hne
  have hgt : t.graph.PartOf s'.graph ∧ ∀ y, From t.innermost.breaks y → From s'.pending y := by
    rcases hfoot with ⟨-, rfl⟩ | ⟨hne', u, head, id, hc, rfl⟩
    · exact ⟨⟨List.prefix_refl _, List.Subset.refl _⟩, fun _ hy => hy⟩
    · have hready := continue_ready s.pending hl.ready.inputs hl₁.grown []
      exact ⟨(hc.extends hready.sound hne' hready.inputs).graph.trans (closed_graph u _ _),
        fun _ hy => hy.mono (List.subset_cons_self _ _)⟩
  rw [← List.append_nil τ]
  refine (ih hl₁ hne (hgt.1.trans hg) hapart).resume hl₁.size_le hgt.1.size_le fun y hy => ?_
  exact .rest (.inl rfl) fun _ => hgt.2 y ((loop_escapes hl₁.grown.ext hy).1 rfl)

/-- A loop with its test behind that ends with a way out of it. -/
theorem foot_stops (ih : Coverage h τ o (.block body)) (ho : o.EndsLoop) :
    Coverage h τ o (.stmt (.doWhile source body cond)) := by
  intro s s' g inside hl hne hg hapart
  obtain ⟨t, hl₁, hfoot⟩ := hl.foot_inv hne
  have hgt : t.graph.PartOf s'.graph ∧
      ∀ escape y, t.left.Escapes h escape y → s'.Escapes h escape y := by
    rcases hfoot with ⟨-, rfl⟩ | ⟨hne', u, head, id, hc, rfl⟩
    · exact ⟨⟨List.prefix_refl _, List.Subset.refl _⟩, fun _ _ he => he⟩
    · have hready := continue_ready s.pending hl.ready.inputs hl₁.grown []
      have hext := hc.extends hready.sound hne' hready.inputs
      exact ⟨hext.graph.trans (closed_graph u _ _), fun _ _ he => hext.escapes he⟩
  exact (ih hl₁ hne (hgt.1.trans hg) hapart).stops (fun heq => ho.1 (.inl heq)) hl₁.size_le
    hgt.1.size_le fun escape heq y he => hgt.2 escape y (endsLoop_escapes hl₁.grown.ext ho heq he)

/-- The test behind a loop leads back to where the loop is entered. -/
theorem foot_back {n k : Nat} {ps : List Pending} (hnk : n ≤ k) (hk : k < u.graph.size)
    (hgu : u.graph.PartOf g) (hhead : head = g.idAt k) (hid : id ∈ u.graph.ids)
    (hg : ((u.closed (if n < k then u.graph.idAt n else head)
      [.plain id .loopBack]).withPending ps).graph.PartOf g) :
    g.HasEdge id (g.idAt n) := by
  have hn := Nat.lt_of_le_of_lt hnk hk
  have htarget : (if n < k then u.graph.idAt n else head) = u.graph.idAt n := by
    split
    · rfl
    · rw [hhead, Nat.le_antisymm hnk (Nat.not_lt.1 ‹_›), hgu.idAt_eq hk]
  refine hg.hasEdge ⟨backEdge ⟨.loopBack, none⟩, ?_⟩
  rw [htarget, hgu.idAt_eq hn, withPending_graph, closed_edges _ _ (FlowGraph.idAt_mem hn) (by
    intro p hp
    rw [List.mem_singleton.1 hp]
    exact hid)]
  exact List.mem_append_right _ (List.mem_singleton_self _)

/-- A round of a loop with its test behind the body, up to the test. -/
theorem foot_goes (ih : Coverage h τ o (.block body)) (ho : o.EndsRound)
    (hev : Evaluates (cond.steps h ⟨.predicate, some source.id⟩) τ' o') {inside : Bool}
    (hl : Lowered h (.stmt (.doWhile source body cond)) s s') (hne : s.pending ≠ [])
    (hg : s'.graph.PartOf g) (hapart : blockEndsApart inside body)
    (hx : g.HasEdge x (g.idAt s.graph.size)) :
    Goes g (fun y => From s'.pending y ∧ g.HasEdge y (g.idAt s.graph.size)) (s'.Escapes h) x
      (τ ++ τ') o' := by
  obtain ⟨t, hl₁, hfoot⟩ := hl.foot_inv hne
  have hround (hgt : t.graph.PartOf g) (hlt : s.graph.size < t.graph.size) :
      Goes g (From (t.pending ++ t.innermost.continues)) (fun _ _ => False) x τ .normal :=
    ((ih hl₁ hne hgt hapart).along hlt x hx).turn fun y hn hr =>
      ⟨fun _ => endsRound_from hl₁.grown.ext ho hn hr, by simp⟩
  have hle : s.graph.size ≤ t.graph.size := hl₁.size_le
  rcases hfoot with ⟨hnil, rfl⟩ | ⟨hne', u, head, id, hc, rfl⟩
  · -- nothing comes to the test, so no round is over
    rcases Nat.lt_or_eq_of_le hle with hlt | heq
    · exact (hround ⟨hg.nodes, hg.edges⟩ hlt).bind fun y hy => absurd hnil (from_ne_nil hy)
    · have hsame := (hl₁.inert heq.symm).1
      exact absurd (hsame.pending.symm.trans (List.append_eq_nil_iff.1 hnil).1) hne
  · have hready := continue_ready s.pending hl.ready.inputs hl₁.grown []
    have hgu : u.graph.PartOf g := (closed_graph u _ _).trans hg
    have hgt : t.graph.PartOf g := (hc.extends hready.sound hne' hready.inputs).graph.trans hgu
    have hsize : t.graph.size < u.graph.size := hc.nodes.2
    have hhead : head = g.idAt t.graph.size := hc.head_eq.trans (hgu.idAt_eq hsize).symm
    have htest (y : NodeId) (hy : g.HasEdge y head) : Goes g (fun y => From (.plain id .falseBranch ::
        t.innermost.breaks) y ∧ g.HasEdge y (g.idAt s.graph.size)) (u.Escapes h) y τ' o' := by
      refine (hc.goes hready.sound hne' hready.inputs hgu hev hy).imp ?_ fun _ _ he => he
      rintro - _ rfl
      exact ⟨⟨_, List.mem_cons_self, rfl⟩, foot_back hle hsize hgu hhead hc.made.2.mem hg⟩
    rcases Nat.lt_or_eq_of_le hle with hlt | heq
    · refine (hround hgt hlt).bind fun y hy => htest y ?_
      obtain ⟨p, hp, rfl⟩ := hy
      have hent := (hc.entered hready.sound hne' hready.inputs).mono hsize hgu p hp
      rw [hhead]
      exact hent
    · obtain ⟨rfl, -⟩ := (ih hl₁ hne hgt hapart).still heq.symm
      refine htest x ?_
      rw [hhead, ← heq]
      exact hx

/-- A loop with its test behind the body has nodes. -/
theorem foot_size (hl : Lowered h (.stmt (.doWhile source body cond)) s s') (hne : s.pending ≠ []) :
    s'.graph.size ≠ s.graph.size := by
  intro heq
  cases (hl.inert heq).2 hne

/-- A loop with its test behind that ends with its test. -/
theorem foot_test (ih : Coverage h τ o (.block body)) (ho : o.EndsRound)
    (hev : Evaluates (cond.steps h ⟨.predicate, some source.id⟩) τ' o') :
    Coverage h (τ ++ τ') o' (.stmt (.doWhile source body cond)) := by
  intro s s' g inside hl hne hg hapart
  refine ⟨fun _ x hx => ?_, fun heq => absurd heq (foot_size hl hne)⟩
  exact (foot_goes ih ho hev hl hne hg hapart hx).imp (fun _ _ hy => hy.1) fun _ _ he => he

/-- A loop with its test behind that goes on with another round. -/
theorem foot_again {τ₂ : List Point} (ih₁ : Coverage h τ o (.block body)) (ho : o.EndsRound)
    (hev : Evaluates (cond.steps h ⟨.predicate, some source.id⟩) τ' .normal)
    (ih₂ : Coverage h τ₂ o' (.stmt (.doWhile source body cond))) :
    Coverage h (τ ++ τ' ++ τ₂) o' (.stmt (.doWhile source body cond)) := by
  intro s s' g inside hl hne hg hapart
  refine ⟨fun hlt x hx => ?_, fun heq => absurd heq (foot_size hl hne)⟩
  exact (foot_goes ih₁ ho hev hl hne hg hapart hx).bind fun y hy =>
    (ih₂ hl hne hg hapart).along hlt y hy.2

end Foot

/-! ### `switch` -/

section Select

variable {source : Element} {selector : Effects} {cases : List (SwitchCase Stmt)}

/-- A `switch` that does not come to an end of its selector. -/
theorem select_stops (hev : Evaluates (selector.steps h ⟨.predicate, some source.id⟩) τ o)
    (ho : o ≠ .normal) : Coverage h τ o (.stmt (.select source selector cases)) := by
  intro s s' g inside hl hne hg _
  obtain ⟨t, u, head, id, hc, hl₁, rfl⟩ := hl.select_inv hne
  exact hc.covers_stops hl.ready hne hl₁.graph hg hev ho fun _ _ he =>
    hl₁.grown.ext.leave.1.escapes he

/-- A `switch` that enters none of its cases. -/
theorem select_skips (hev : Evaluates (selector.steps h ⟨.predicate, some source.id⟩) τ .normal)
    (hall : cases.all (·.label.isSome)) :
    Coverage h τ .normal (.stmt (.select source selector cases)) := by
  intro s s' g inside hl hne hg _
  obtain ⟨t, u, head, id, hc, hl₁, rfl⟩ := hl.select_inv hne
  have hgu : t.graph.PartOf u.graph := hl₁.graph
  rw [← List.append_nil τ]
  refine hc.covers_next hl.ready hne hgu hg hev (.rest (.inl rfl) fun _ => ?_)
  refine ⟨⟨id, ⟨.falseBranch, some "default"⟩⟩, List.mem_append_right _ ?_, rfl⟩
  rw [skipArcs, if_pos hall]
  exact List.mem_singleton_self _

/-- The cases of a `switch` from one on. -/
theorem Lowered.cases_inv {id : NodeId} {before rest : List (SwitchCase Stmt)}
    {fallthrough : List Pending}
    (hl : Lowered h (.cases source id fallthrough (before ++ rest)) s s') :
    ∃ fallthrough' t, Lowered h (.cases source id fallthrough' rest) t s' := by
  induction before generalizing s fallthrough with
  | nil => exact ⟨_, _, hl⟩
  | cons c before ih =>
    cases hl with
    | case _ _ _ hl => exact ih hl

theorem casesEndsApart_append {inside : Bool} {before rest : List (SwitchCase Stmt)}
    (hapart : casesEndsApart inside (before ++ rest)) : casesEndsApart inside rest := by
  induction before with
  | nil => exact hapart
  | cons c before ih => exact ih (Bool.and_eq_true_iff.1 hapart).2

theorem withoutBreak_abrupt {escape : Escape} (hne : escape ≠ .breakJump) :
    (Ending.abrupt escape).withoutBreak = .abrupt escape := by
  cases escape with
  | breakJump => exact absurd rfl hne
  | continueJump => rfl
  | returnJump => rfl
  | throwJump _ => rfl

/-- A `switch` that enters one of its cases. -/
theorem select_enters {before after : List (SwitchCase Stmt)} {case : SwitchCase Stmt}
    (hev : Evaluates (selector.steps h ⟨.predicate, some source.id⟩) τ .normal)
    (ih : Coverage h τ' o (.cases (case :: after))) :
    Coverage h (τ ++ τ') o.withoutBreak
      (.stmt (.select source selector (before ++ case :: after))) := by
  intro s s' g inside hl hne hg hapart
  obtain ⟨t, u, head, id, hc, hl₁, rfl⟩ := hl.select_inv hne
  have hgu : t.graph.PartOf u.graph := hl₁.graph
  obtain ⟨fallthrough, w, hl₂⟩ := hl₁.cases_inv
  refine hc.covers_next hl.ready hne hgu hg hev ?_
  refine (ih hl₂ hg (casesEndsApart_append hapart) id (.inr ⟨by simp, rfl⟩)).turn fun y hn hr => ?_
  -- a break is taken in, and everything else goes on to the statements around
  cases o with
  | normal =>
    refine ⟨fun _ => (hn rfl).mono ?_, by simp [Ending.withoutBreak]⟩
    exact List.Subset.trans (List.subset_append_left _ _) (List.subset_append_left _ _)
  | unfinished => simp [Ending.withoutBreak]
  | abrupt escape =>
    obtain ⟨hbreak, hother⟩ := select_escapes hl₁.grown.ext (hr escape rfl)
    by_cases heq : escape = .breakJump
    · subst heq
      refine ⟨fun _ => (hbreak rfl).mono ?_, by simp [Ending.withoutBreak]⟩
      exact List.Subset.trans (List.subset_append_right _ _) (List.subset_append_left _ _)
    · rw [withoutBreak_abrupt heq]
      refine ⟨by simp, fun escape' heq' => ?_⟩
      cases heq'
      exact hother heq

theorem cases_end : Coverage h [] .normal (.cases []) := by
  intro s s' g inside source selector fallthrough hl hg _ x hx
  cases hl with
  | casesEnd _ => exact .rest (.inl rfl) fun _ => hx.resolve_right (by simp)

/-- A node without calls or exceptions is passed. -/
theorem evaluates_point (h : Hierarchy) (point : Point) :
    Evaluates (Effects.none.steps h point) [point] .normal := by
  exact .next ⟨point, []⟩ .finish

/-- A block behind a node of its own. -/
theorem labelled_goes {stmts : List Stmt} {point : Point} {ps : List Pending} {inside : Bool}
    (hs : s.Sound) (hp : ∀ p ∈ ps, p.source ∈ s.graph.ids)
    (hc : Constructs h (s.withPending ps) point .none head head t)
    (hl : Lowered h (.block stmts) t u) (hg : u.graph.PartOf g)
    (hapart : blockEndsApart inside stmts) (ih : Coverage h τ o (.block stmts))
    (hx : From ps x) : Goes g (From u.pending) (u.Escapes h) x (point :: τ) o := by
  have hne := from_ne_nil hx
  have hgt := hl.graph.trans hg
  have hedge : g.HasEdge x head := by
    obtain ⟨p, hmem, rfl⟩ := hx
    rw [hc.head_eq, ← hgt.idAt_eq hc.nodes.2]
    exact (hc.entered (hs.withPending _) hne hp).mono hc.nodes.2 hgt p hmem
  refine (hc.goes (hs.withPending _) hne hp hgt (evaluates_point h _) hedge).bind ?_
  rintro _ rfl
  have hpending := hc.pending_eq
  exact (ih hl (by simp [hpending]) hg hapart).goes hl hg (hpending ▸ from_plain _ _)

/-- A case up to the end of its body. -/
theorem case_goes {case : SwitchCase Stmt} {id : NodeId} {fallthrough : List Pending}
    {inside : Bool} (hr : Ready (.cases source id fallthrough (case :: cases)) s)
    (hc : Constructs h (s.withPending (caseFrontier id fallthrough case.label))
      ⟨.caseLabel, some case.id⟩ .none head head t)
    (hl : Lowered h (.block case.body) t u) (hg : u.graph.PartOf g)
    (hapart : blockEndsApart inside case.body) (ih : Coverage h τ o (.block case.body))
    (hx : From fallthrough x ∨ case :: cases ≠ [] ∧ x = id) :
    Goes g (From u.pending) (u.Escapes h) x (⟨.caseLabel, some case.id⟩ :: τ) o := by
  refine labelled_goes hr.sound (fun p hp => hr.from_mem (caseFrontier_from hp)) hc hl hg hapart
    ih ?_
  rcases hx with hx | ⟨-, rfl⟩
  · exact hx.mono (List.subset_append_left _ _)
  · exact ⟨_, List.mem_append_right _ (List.mem_singleton_self _), rfl⟩

/-- The cases of a `switch` from one on whose body does not come to its end. -/
theorem case_stops {case : SwitchCase Stmt} (ih : Coverage h τ o (.block case.body))
    (ho : o ≠ .normal) :
    Coverage h (⟨.caseLabel, some case.id⟩ :: τ) o (.cases (case :: cases)) := by
  intro s s' g inside source selector fallthrough hl hg hapart x hx
  obtain ⟨hapart₁, -⟩ := Bool.and_eq_true_iff.1 hapart
  cases hl with
  | case hr hc hl₁ hl₂ =>
    have hgu := hl₂.graph.trans hg
    exact (case_goes hr hc hl₁ hgu hapart₁ ih hx).imp (fun heq => absurd heq ho) fun _ _ he =>
      hl₂.grown.ext.escapes he

/-- The cases of a `switch` from one on that falls through to the next. -/
theorem case_next {case : SwitchCase Stmt} (ih₁ : Coverage h τ .normal (.block case.body))
    (ih₂ : Coverage h τ' o (.cases cases)) :
    Coverage h (⟨.caseLabel, some case.id⟩ :: τ ++ τ') o (.cases (case :: cases)) := by
  intro s s' g inside source selector fallthrough hl hg hapart x hx
  obtain ⟨hapart₁, hapart₂⟩ := Bool.and_eq_true_iff.1 hapart
  cases hl with
  | case hr hc hl₁ hl₂ =>
    have hgu := hl₂.graph.trans hg
    exact (case_goes hr hc hl₁ hgu hapart₁ ih₁ hx).bind fun y hy =>
      ih₂ hl₂ hg hapart₂ y (.inl hy)

end Select

/-! ### Jumps -/

section Jumps

variable {stmt : Stmt} {j : Jump}

/-- A jump that raises while its value is computed. -/
theorem jump_stops (hj : stmt.jump? = some j)
    (hev : Evaluates (j.value.steps h ⟨j.kind, some j.source.id⟩) τ o) (ho : o ≠ .normal) :
    Coverage h τ o (.stmt stmt) := by
  intro s s' g inside hl hne hg _
  obtain ⟨t, head, id, hc, rfl⟩ := hl.jump_inv hj hne
  exact hc.covers_stops hl.ready hne (.refl _) hg hev ho fun _ _ he =>
    Escapes.sent (s := t.withPending []) he _ _

/-- A jump that leaves by its way out. -/
theorem jump_goes (hj : stmt.jump? = some j)
    (hev : Evaluates (j.value.steps h ⟨j.kind, some j.source.id⟩) τ .normal) :
    Coverage h τ (.abrupt j.escape) (.stmt stmt) := by
  intro s s' g inside hl hne hg _
  obtain ⟨t, head, id, hc, rfl⟩ := hl.jump_inv hj hne
  have hcov := hc.covers hl.ready.sound hne hl.ready.inputs hg hev
  refine ⟨fun hlt x hx => (hcov.along hlt x hx).turn fun y hn _ => ⟨by simp, fun escape heq => ?_⟩,
    fun heq => absurd heq (Nat.ne_of_gt hc.nodes.2)⟩
  cases heq
  rw [hn rfl]
  exact escapes_sent h (t.withPending []) ⟨id, j.escape.edge⟩ j.escape

end Jumps

/-! ### `try` -/

section Try

variable {source : Element} {body finalizer : List Stmt} {catches : List (CatchClause Stmt)}
  {after : List Pending} {hasFinalizer inside : Bool} {escape : Escape}

/-- What passes the handlers of a `try` is still noted when they are lowered. -/
theorem try_escapes (hl₁ : Lowered h (.block body) (s.entered (tryScope catches hasFinalizer)) t)
    (hl₂ : Lowered h (.catches t.innermost.handlers catches after)
      ((t.left.withPending []).entered t.innermost.withoutHandlers) u)
    (hpass : PassesHandlers h escape t.innermost.handlers) (he : t.Escapes h escape y) :
    u.Escapes h escape y := by
  obtain ⟨hnotes, hpasses⟩ := escapes_leave hl₁.grown.ext he
  obtain ⟨handlers, escapes, heq, -⟩ := hl₁.grown.ext.leave.2.of_tryScope
  refine hl₂.grown.ext.escapes ?_
  rw [heq] at hnotes hpasses hpass ⊢
  exact ⟨⟨fun _ _ => by simp [Offered], fun hfin _ => hnotes.2 hfin hpass⟩, fun hp =>
    hpasses ⟨hp.1, hpass⟩⟩

/-- The handlers of a `try` have the types of its clauses. -/
theorem try_handlers (hl : Lowered h (.block body) (s.entered (tryScope catches hasFinalizer)) t) :
    List.Forall₂ (fun (clause : CatchClause Stmt) (handler : Handler) =>
      handler.exceptionType = clause.exceptionType) catches t.innermost.handlers := by
  obtain ⟨handlers, escapes, heq, hforall, -⟩ := hl.grown.ext.leave.2.of_tryScope
  rw [heq]
  exact hforall.imp fun _ _ hb => hb.1

/-- The graph grows with the body of a `try` and then with its clauses. -/
theorem guarded_size (hl₁ : Lowered h (.block body) (s.entered (tryScope catches hasFinalizer)) t)
    (hl₂ : Lowered h (.catches t.innermost.handlers catches after)
      ((t.left.withPending []).entered t.innermost.withoutHandlers) u) :
    s.graph.size ≤ t.graph.size ∧ t.graph.size ≤ u.graph.size :=
  ⟨hl₁.size_le, hl₂.size_le⟩

/-- The end of an execution of the body of a `try` that the handlers let pass. -/
theorem guarded_passes (ih : Coverage h τ o (.block body))
    (hpass : ∀ exceptionType, o = .abrupt (.throwJump exceptionType) →
      MayPass h exceptionType catches) : Coverage h τ o (.guarded body catches) := by
  intro s t u g inside hasFinalizer after hl₁ hl₂ hne hg hapart₁ _
  obtain ⟨hle₁, hle₂⟩ := guarded_size hl₁ hl₂
  have hcov := ih hl₁ hne (hl₂.graph.trans hg) hapart₁
  refine ⟨fun hlt x hx => ?_, fun heq => hcov.still (by simp only [entered_graph]; omega)⟩
  rcases Nat.lt_or_eq_of_le hle₁ with hlt₁ | heq
  · refine (hcov.along hlt₁ x hx).turn fun y hn hr => ⟨fun ho =>
      (hn ho).mono (List.subset_append_left _ _), fun escape ho => ?_⟩
    refine try_escapes hl₁ hl₂ ?_ (hr escape ho)
    rintro exceptionType rfl handler hmem
    obtain ⟨clause, hclause, htype⟩ := forall₂_mem_right (try_handlers hl₁) hmem
    rw [htype]
    exact hpass exceptionType ho clause hclause
  · exact absurd (try_size hl₁ hl₂ heq.symm) (Nat.ne_of_gt hlt)

/-- The lowering of one of the clauses of a `try`. -/
theorem Lowered.catches_inv {before after : List Handler} {handler : Handler}
    {clauses clauses' : List (CatchClause Stmt)} {clause : CatchClause Stmt} {ends : List Pending}
    (hl : Lowered h (.catches (before ++ handler :: after) (clauses ++ clause :: clauses') ends) s s')
    (hlen : before.length = clauses.length) (hne : handler.incoming ≠ []) :
    ∃ (t t' u : Lowering) (head : NodeId), t.Sound ∧ (∀ p ∈ handler.incoming, p.source ∈ t.graph.ids) ∧
      Constructs h (t.withPending handler.incoming) ⟨.catchClause, some clause.id⟩ .none head head
        t' ∧ Lowered h (.block clause.body) t' u ∧ u.graph.PartOf s'.graph ∧
      u.pending ⊆ ends ∧ ∀ escape y, u.Escapes h escape y → s'.Escapes h escape y := by
  -- the clauses in front are lowered first, with or without a node
  induction before generalizing s clauses ends with
  | nil =>
    obtain rfl : clauses = [] := List.eq_nil_of_length_eq_zero hlen.symm
    cases hl with
    | catchUnentered _ hnil _ => exact absurd hnil hne
    | «catch» hr _ hc hl₁ hl₂ =>
      exact ⟨_, _, _, _, hr.sound, fun p hp => hr.inputs p (List.mem_append_left _ hp), hc, hl₁,
        hl₂.graph, List.subset_append_left _ _, fun _ _ he => hl₂.grown.ext.escapes he⟩
  | cons first before ih =>
    cases clauses with
    | nil => simp at hlen
    | cons c clauses =>
      have hlen : before.length = clauses.length := by simpa using hlen
      cases hl with
      | catchUnentered _ _ hl => exact ih hl hlen
      | «catch» _ _ _ _ hl =>
        obtain ⟨t, t', u, head, hs, hp, hc, hl₁, hg, hsub, hesc⟩ := ih hl hlen
        exact ⟨t, t', u, head, hs, hp, hc, hl₁, hg,
          List.Subset.trans hsub (List.subset_append_right _ _), hesc⟩

/-- Ends and ways out stay apart in each clause. -/
theorem catchesEndsApart_mem {clause : CatchClause Stmt} (hapart : catchesEndsApart inside catches)
    (hmem : clause ∈ catches) : blockEndsApart inside clause.body := by
  induction catches with
  | nil => cases hmem
  | cons c catches ih =>
    obtain ⟨h₁, h₂⟩ := Bool.and_eq_true_iff.1 hapart
    rcases List.mem_cons.1 hmem with rfl | hmem
    exacts [h₁, ih h₂ hmem]

/-- A `try` that goes on in one of its clauses. -/
theorem guarded_catches {clause : CatchClause Stmt} {exceptionType : String}
    (ih₁ : Coverage h τ (.abrupt (.throwJump exceptionType)) (.block body))
    (hcatch : MayCatch h exceptionType catches clause) (ih₂ : Coverage h τ' o (.block clause.body)) :
    Coverage h (τ ++ ⟨.catchClause, some clause.id⟩ :: τ') o (.guarded body catches) := by
  intro s t u g inside hasFinalizer after hl₁ hl₂ hne hg hapart₁ hapart₂
  obtain ⟨hle₁, hle₂⟩ := guarded_size hl₁ hl₂
  refine (ih₁ hl₁ hne (hl₂.graph.trans hg) hapart₁).resume hle₁ hle₂ fun y hy => ?_
  obtain ⟨before, rest, rfl, hbefore, hmatch⟩ := hcatch
  -- the exception is noted at the handler of the clause
  obtain ⟨handlers, handlers', hfb, hfr, hsplit⟩ := forall₂_append_right (try_handlers hl₁).flip
  obtain ⟨handler, handlers'', htype, -, rfl⟩ := List.forall₂_cons_right_iff.1 hfr
  obtain ⟨hnotes, -⟩ := escapes_leave hl₁.grown.ext hy
  have hoffered : Offered h exceptionType y t.innermost.handlers := by
    obtain ⟨_, _, heq, -⟩ := hl₁.grown.ext.leave.2.of_tryScope
    rw [heq] at hnotes ⊢
    exact hnotes.1 exceptionType rfl
  have hfrom : From handler.incoming y := by
    refine hoffered handlers handler handlers'' hsplit (fun b hb => ?_) (by rwa [htype])
    obtain ⟨c, hc, hct⟩ := forall₂_mem_right hfb.flip hb
    rw [hct]
    exact hbefore c hc
  rw [hsplit] at hl₂
  obtain ⟨w, w', v, head, hs, hp, hc, hl₃, hgv, hsub, hesc⟩ :=
    hl₂.catches_inv hfb.length_eq (from_ne_nil hfrom)
  have hapart₃ := catchesEndsApart_mem hapart₂ (by simp : clause ∈ before ++ clause :: rest)
  exact (labelled_goes hs hp hc hl₃ (hgv.trans hg) hapart₃ ih₂ hfrom).imp (fun _ z hz =>
    hz.mono (List.Subset.trans hsub (List.subset_append_right _ _))) hesc

/-- A `try` without a `finally` block. -/
theorem try_plain (ih : Coverage h τ o (.guarded body catches)) :
    Coverage h τ o (.stmt (.tryBlock source body catches none)) := by
  intro s s' g inside hl hne hg hapart
  obtain ⟨hapart₁, hapart₂⟩ := Bool.and_eq_true_iff.1 hapart
  obtain ⟨t, u, after, hl₁, hl₂, heq⟩ := hl.try_inv hne
  obtain rfl : s' = u.left.withPending (t.pending ++ after) := heq
  refine (ih hl₁ hl₂ hne hg hapart₁ hapart₂).imp (fun _ _ hy => hy) fun escape y he => ?_
  obtain ⟨-, hpasses⟩ := escapes_leave hl₂.grown.ext he
  obtain ⟨handlers, escapes, heq, -⟩ := hl₁.grown.ext.leave.2.of_tryScope
  have hgrows := hl₂.grown.ext.leave.2
  rw [heq] at hgrows
  obtain ⟨escapes', heq', -⟩ := hgrows.of_withoutHandlers
  rw [heq'] at hpasses
  exact hpasses ⟨rfl, by simp [PassesHandlers]⟩

/-- What leaves a `try` with a `finally` block waits for this block. -/
theorem finalizer_waits (hl₁ : Lowered h (.block body) (s.entered (tryScope catches true)) t)
    (hl₂ : Lowered h (.catches t.innermost.handlers catches after)
      ((t.left.withPending []).entered t.innermost.withoutHandlers) u)
    (he : u.Escapes h escape y) : ∃ e ∈ u.innermost.escapes, e.2 = escape ∧ e.1.source = y := by
  obtain ⟨hnotes, -⟩ := escapes_leave hl₂.grown.ext he
  obtain ⟨handlers, escapes, heq, -⟩ := hl₁.grown.ext.leave.2.of_tryScope
  have hgrows := hl₂.grown.ext.leave.2
  rw [heq] at hgrows
  obtain ⟨escapes', heq', -⟩ := hgrows.of_withoutHandlers
  rw [heq'] at hnotes ⊢
  exact hnotes.2 rfl (by simp [PassesHandlers])

/-- A `try` that has not come to its `finally` block so far. -/
theorem try_stops (ih : Coverage h τ .unfinished (.guarded body catches)) :
    Coverage h τ .unfinished (.stmt (.tryBlock source body catches (some finalizer))) := by
  intro s s' g inside hl hne hg hapart
  simp only [Stmt.endsApart, Bool.and_eq_true] at hapart
  obtain ⟨t, u, after, hl₁, hl₂, v, hl₃, hs'⟩ := hl.try_inv hne
  obtain ⟨hle₁, hle₂⟩ := guarded_size hl₁ hl₂
  have hgv : v.graph = s'.graph := by
    rcases hs' with ⟨-, rfl⟩ | ⟨-, rfl⟩ <;> simp
  have hgu : u.graph.PartOf s'.graph := hgv ▸ hl₃.graph
  exact (ih hl₁ hl₂ hne (hgu.trans hg) hapart.1.1.2 hapart.1.2).stops (by simp)
    (hle₁.trans hle₂) hgu.size_le (by simp)

/-- An execution that has passed a `finally` block with nodes goes on as it was headed. -/
theorem resume_turn {normal : List Pending} {escapes : List (Pending × Escape)} {z : NodeId}
    (hn : o = .normal → normal ≠ []) (he : ∀ escape, o = .abrupt escape → escape ∈ escapes.map (·.2))
    (hn' : o' = .normal → From v.pending z)
    (hr' : ∀ escape, o' = .abrupt escape → v.Escapes h escape z)
    (hs : s = (v.withPending (if normal.isEmpty then [] else v.pending)).sentAll h
      (redirected escapes v.pending)) :
    (o.resume o' = .normal → From s.pending z) ∧
      ∀ escape, o.resume o' = .abrupt escape → s.Escapes h escape z := by
  subst hs
  rw [sentAll_pending, withPending_pending]
  -- only an end of the block lets the execution go on as it was headed
  cases o' with
  | normal =>
    obtain ⟨p, hp, rfl⟩ := hn' rfl
    refine ⟨fun ho => ?_, fun escape ho => ?_⟩
    · rw [if_neg (by simpa using hn ho)]
      exact ⟨p, hp, rfl⟩
    · obtain ⟨e, hmem, rfl⟩ := List.mem_map.1 (he escape ho)
      obtain ⟨e', hmem', heq, hsource⟩ := redirected_mem hmem hp
      rw [← heq, ← hsource]
      exact escapes_sentAll h _ hmem'
  | abrupt escape =>
    refine ⟨by simp [Ending.resume], fun escape' ho => ?_⟩
    cases ho
    have hesc : (v.withPending (if normal.isEmpty then [] else v.pending)).Escapes h escape z :=
      hr' escape rfl
    exact hesc.sentAll _
  | unfinished => simp [Ending.resume]

/-- An execution that comes to the `finally` block of a `try`. -/
theorem finalizer_goes (hl₁ : Lowered h (.block body) (s.entered (tryScope catches true)) t)
    (hl₂ : Lowered h (.catches t.innermost.handlers catches after)
      ((t.left.withPending []).entered t.innermost.withoutHandlers) u)
    (hl₃ : Lowered h (.block finalizer)
      (u.left.withPending (t.pending ++ after ++ u.innermost.escapes.map (·.1))) v)
    (hs' : v.graph.size = u.graph.size ∧ s' = (v.withPending (v.pending.filter fun p =>
        !(u.innermost.escapes.map (·.1)).contains p)).sentAll h u.innermost.escapes ∨
      v.graph.size ≠ u.graph.size ∧
        s' = (v.withPending (if (t.pending ++ after).isEmpty then [] else v.pending)).sentAll h
          (redirected u.innermost.escapes v.pending))
    (hg : v.graph.PartOf g)
    (hapart : (Stmt.tryBlock source body catches (some finalizer)).endsApart inside)
    (ih : Coverage h τ' o' (.block finalizer)) (ho : o ≠ .unfinished)
    (hn : o = .normal → From (t.pending ++ after) y)
    (hr : ∀ escape, o = .abrupt escape → u.Escapes h escape y) :
    Goes g (From s'.pending) (s'.Escapes h) y τ' (o.resume o') := by
  have hwaits (escape : Escape) (heq : o = .abrupt escape) :=
    finalizer_waits hl₁ hl₂ (hr escape heq)
  simp only [Stmt.endsApart, Bool.and_eq_true] at hapart
  have hfrom : From (t.pending ++ after ++ u.innermost.escapes.map (·.1)) y := by
    cases o with
    | normal => exact (hn rfl).mono (List.subset_append_left _ _)
    | abrupt escape =>
      obtain ⟨e, hmem, -, hsource⟩ := hwaits escape rfl
      exact ⟨e.1, List.mem_append_right _ (List.mem_map_of_mem hmem), hsource⟩
    | unfinished => exact absurd rfl ho
  have hcov := ih hl₃ (from_ne_nil hfrom) hg hapart.2
  rcases hs' with ⟨hsize, rfl⟩ | ⟨hsize, heq⟩
  · obtain ⟨rfl, ho'⟩ := hcov.still hsize
    obtain ⟨hsame, hno⟩ := hl₃.inert hsize
    have hno := hno (from_ne_nil hfrom)
    rw [Part.hasNode] at hno
    rw [hno, Bool.not_false, Bool.or_true] at hapart
    refine ⟨y, .done y, fun heq => ?_, fun escape heq => ?_⟩
    · -- an end is not taken for a way out
      have ho : o = .normal := by
        rcases ho' with rfl | rfl
        · exact heq
        · cases heq
      obtain ⟨p, hp, rfl⟩ := hn ho
      refine ⟨p, ?_, rfl⟩
      rw [sentAll_pending]
      refine List.mem_filter.2 ⟨?_, ?_⟩
      · rw [hsame.pending]
        exact List.mem_append_left _ hp
      · simpa using try_apart hl₁ hl₂ hapart.1.1.2 hapart.1.2 p hp
    · have ho : o = .abrupt escape := by
        rcases ho' with rfl | rfl
        · exact heq
        · cases heq
      obtain ⟨e, hmem, rfl, rfl⟩ := hwaits escape ho
      exact escapes_sentAll h _ hmem
  · refine (hcov.goes hl₃ hg hfrom).turn fun z hn' hr' => ?_
    refine resume_turn (fun heq => from_ne_nil (hn heq)) (fun escape heq => ?_) hn' hr' heq
    obtain ⟨e, hmem, rfl, -⟩ := hwaits escape heq
    exact List.mem_map_of_mem hmem

/-- A `try` that goes through its `finally` block. -/
theorem try_finally (ih₁ : Coverage h τ o (.guarded body catches)) (ho : o ≠ .unfinished)
    (ih₂ : Coverage h τ' o' (.block finalizer)) : Coverage h (τ ++ τ') (o.resume o')
      (.stmt (.tryBlock source body catches (some finalizer))) := by
  intro s s' g inside hl hne hg hapart
  obtain ⟨t, u, after, hl₁, hl₂, v, hl₃, hs'⟩ := hl.try_inv hne
  obtain ⟨hle₁, hle₂⟩ := guarded_size hl₁ hl₂
  have hgraph : v.graph = s'.graph := by
    rcases hs' with ⟨-, rfl⟩ | ⟨-, rfl⟩ <;> simp
  have hgv : v.graph.PartOf g := hgraph ▸ hg
  have hle₃ : u.graph.size ≤ v.graph.size := hl₃.size_le
  have hparts := hapart
  simp only [Stmt.endsApart, Bool.and_eq_true] at hparts
  have hcov₁ := ih₁ hl₁ hl₂ hne (hl₃.graph.trans hgv) hparts.1.1.2 hparts.1.2
  rw [← hgraph]
  rcases Nat.lt_or_eq_of_le (hle₁.trans hle₂) with hlt | heq
  · refine ⟨fun _ x hx => (hcov₁.along hlt x hx).resume fun y hn hr => ?_, fun heq => by omega⟩
    exact finalizer_goes hl₁ hl₂ hl₃ hs' hgv hapart ih₂ ho hn hr
  · -- nothing is passed in front of the block, which is entered like the whole statement
    obtain ⟨rfl, ho'⟩ := hcov₁.still heq.symm
    obtain rfl := ho'.resolve_right ho
    have hpending : t.pending ≠ [] := by
      have hsame := (hl₁.inert (by simp only [entered_graph]; omega)).1
      rw [hsame.pending]
      exact hne
    have hcov₃ := ih₂ hl₃ (by simp [hpending]) hgv hparts.2
    refine ⟨fun hlt x hx => ?_, fun hsize => ?_⟩
    · rcases hs' with ⟨hsize, -⟩ | ⟨-, hs'⟩
      · omega
      · refine (hcov₃.along (by simp only [withPending_graph, left_graph]; omega) x ?_).turn
          fun z hn' hr' => resume_turn (fun _ => by simp [hpending]) (by simp) hn' hr' hs'
        rw [withPending_graph, left_graph, ← heq]
        exact hx
    · obtain ⟨rfl, ho''⟩ := hcov₃.still (by simp only [withPending_graph, left_graph]; omega)
      refine ⟨rfl, ?_⟩
      rcases ho'' with rfl | rfl
      · exact .inl rfl
      · exact .inr rfl

end Try

/-! ## Whole executions -/

/-- An execution that has passed nothing so far is where it starts. -/
theorem coverage_pause (c : Code) : Coverage h [] .unfinished c := by
  have hcov {n m : Nat} {g : FlowGraph} {N : NodeId → Prop} {R : Escape → NodeId → Prop} :
      Covers n m g N R [] .unfinished :=
    ⟨fun _ _ _ => .rest (.inr rfl) (by simp), fun _ => ⟨rfl, .inr rfl⟩⟩
  cases c with
  | stmt stmt =>
    intro s s' g inside _ _ _ _
    exact hcov
  | block stmts =>
    intro s s' g inside _ _ _ _
    exact hcov
  | rounds l =>
    intro t u v g inside head id enter breaks _ _ _ _ _ _ _ x _
    exact .rest (.inr rfl) (by simp)
  | cases rest =>
    intro s s' g inside source selector fallthrough _ _ _ x _
    exact .rest (.inr rfl) (by simp)
  | guarded body catches =>
    intro s t u g inside hasFinalizer after _ _ _ _ _ _
    exact hcov

/-- Every execution is covered. -/
theorem covers_of_runs {c : Code} (hr : Runs h c τ o) : Coverage h τ o c := by
  induction hr with
  | pause c => exact coverage_pause c
  | simple hev => exact simple_covers hev
  | branchStops hev ho => exact branch_stops hev ho
  | branchThen hev _ ih => exact branch_then hev ih
  | branchElse hev _ ih => exact branch_else hev ih
  | loopStops hloop _ ho ih => exact loop_stops hloop ih ho
  | loop hloop _ _ ih₁ ih₂ => exact loop_goes hloop ih₁ ih₂
  | testStops hev ho => exact rounds_test hev fun heq => absurd heq ho
  | testFails hsome hev => exact rounds_test hev fun _ => hsome
  | roundBreaks hev _ ih => exact rounds_breaks hev ih
  | roundStops hev _ ho ih => exact rounds_stops hev ih ho
  | updateStops hev _ ho _ ho' ih₁ ih₂ => exact rounds_update_stops hev ih₁ ho ih₂ ho'
  | again hev _ ho _ _ ih₁ ih₂ ih₃ => exact rounds_again hev ih₁ ho ih₂ ih₃
  | footBreaks _ ih => exact foot_breaks ih
  | footStops _ ho ih => exact foot_stops ih ho
  | footTest _ ho hev ih => exact foot_test ih ho hev
  | footAgain _ ho hev _ ih₁ ih₂ => exact foot_again ih₁ ho hev ih₂
  | selectStops hev ho => exact select_stops hev ho
  | selectSkips hev hall => exact select_skips hev hall
  | selectEnters hev _ ih => exact select_enters hev ih
  | casesEnd => exact cases_end
  | caseStops _ ho ih => exact case_stops ih ho
  | fallsThrough _ _ ih₁ ih₂ => exact case_next ih₁ ih₂
  | jumpStops hj hev ho => exact jump_stops hj hev ho
  | jump hj hev => exact jump_goes hj hev
  | guarded _ hno ih => exact guarded_passes ih fun type heq => absurd ⟨type, heq⟩ hno
  | passed _ hpass ih =>
    refine guarded_passes ih fun type heq => ?_
    cases heq
    exact hpass
  | caught _ hcatch _ ih₁ ih₂ => exact guarded_catches ih₁ hcatch ih₂
  | tryPlain _ ih => exact try_plain ih
  | tryStops _ ih => exact try_stops ih
  | tryFinally _ ho _ ih₁ ih₂ => exact try_finally ih₁ ho ih₂
  | nested _ ih =>
    intro s s' g inside hl hne hg hapart
    exact ih (hl.nested_inv hne) hne hg hapart
  | blockEnd =>
    intro s s' g inside hl hne hg hapart
    cases hl with
    | blockEnd _ => exact ⟨fun hlt => absurd hlt (Nat.lt_irrefl _), fun _ => ⟨rfl, .inl rfl⟩⟩
  | blockStops _ ho ih => exact block_stops ih ho
  | blockNext _ _ ih₁ ih₂ => exact block_next ih₁ ih₂

end Lowering

end Slicing
