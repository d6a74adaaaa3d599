import Slicing.Proofs.Flow.Growth

/-!
# Successful runs of lowering

Every run of lowering that succeeds has a derivation: `lowered_block` for the
statements of a body, by recursion on them. What a construct evaluates is placed as a
straight line (`lowerCalls_emits`, `placeWith_constructs`), and the loops with their
test in front are put together in one place (`lowered_rounds`, `lowered_headedLoop`).
-/

namespace Slicing

namespace Lowering

variable {α : Type} {h : Hierarchy} {s s' t u : Lowering}

/-! ## Runs of calls -/

theorem forall₂_append {α β : Type} {R : α → β → Prop} {a a' : List α} {b b' : List β}
    (h : List.Forall₂ R a b) (h' : List.Forall₂ R a' b') : List.Forall₂ R (a ++ a') (b ++ b') :=
  List.rel_append h h'

/-- The steps of the values that come back from a call. -/
theorem map_step_of_isOut {site : CallSiteId} {es : List Emission}
    {outs : List (OutputSlot × NodeId)} (ho : List.Forall₂ (Emission.IsOut site) es outs) :
    es.map Emission.step =
      (outs.map (·.1)).map fun slot => ⟨⟨.actualOut site slot, none⟩, []⟩ := by
  induction ho with
  | nil => rfl
  | cons h _ ih => rw [List.map_cons, ih, h.2]; rfl

/-- A value that comes back gets one node. -/
theorem placeActualOut_emits {site : CallSite} {slot : OutputSlot} {var : String}
    {out : OutputSlot × NodeId} (hs : s.Below)
    (hr : placeActualOut site slot var s = .ok out s') :
    ∃ e, Emits h s [e] s' ∧ e.IsOut site.id out ∧ out.1 = slot := by
  simp only [placeActualOut, bind_eq_ok, newNode_eq_ok, place_eq_ok, pure_eq_ok] at hr
  obtain ⟨_, _, ⟨rfl, rfl⟩, _, _, ⟨rfl, rfl⟩, rfl, rfl⟩ := hr
  refine ⟨⟨_, []⟩, Emits.reserved hs .done ?_ ?_, ⟨rfl, rfl⟩, rfl⟩
  · rfl
  · rfl

/-- The arguments that are written back get their nodes, in order. -/
theorem placeWrittenArgs_emits {site : CallSite} {passing : List Passing} {position : Nat}
    {args : List (Argument CallSite)} {outs : List (OutputSlot × NodeId)} (hs : s.Below)
    (hr : placeWrittenArgs site passing position args s = .ok outs s') :
    ∃ es, Emits h s es s' ∧ List.Forall₂ (Emission.IsOut site.id) es outs ∧
      outs.map (·.1) = writtenSlots passing position args := by
  induction args generalizing position s outs with
  | nil =>
    obtain ⟨rfl, rfl⟩ := pure_eq_ok.1 hr
    exact ⟨[], .done, .nil, rfl⟩
  | cons arg args ih =>
    unfold placeWrittenArgs at hr
    unfold writtenSlots
    generalize arg.var = var, passing[position]? = mode at hr ⊢
    match var, mode with
    | some var, some .byReference =>
      simp only [bind_eq_ok, pure_eq_ok] at hr
      obtain ⟨out, t, hout, outs', _, hrest, rfl, rfl⟩ := hr
      obtain ⟨e, he, hisOut, hslot⟩ := placeActualOut_emits (h := h) hs hout
      obtain ⟨es, hes, hisOuts, hslots⟩ := ih (he.keepsBelow hs) hrest
      refine ⟨e :: es, he.trans hes, .cons hisOut hisOuts, ?_⟩
      rw [List.map_cons, hslot, hslots]
    | none, _ => exact ih hs hr
    | some _, none => exact ih hs hr
    | some _, some .byValue => exact ih hs hr

/-- The result of a call gets a node if it is used. -/
theorem placeResult_emits {site : CallSite} {outs : List (OutputSlot × NodeId)} (hs : s.Below)
    (hr : placeResult site s = .ok outs s') :
    ∃ es, Emits h s es s' ∧ List.Forall₂ (Emission.IsOut site.id) es outs ∧
      outs.map (·.1) = if site.resultUsed then [.result] else [] := by
  rw [placeResult] at hr
  by_cases hused : site.resultUsed
  · rw [if_pos hused] at hr ⊢
    simp only [bind_eq_ok, pure_eq_ok] at hr
    obtain ⟨out, _, hout, rfl, rfl⟩ := hr
    obtain ⟨e, he, hisOut, hslot⟩ := placeActualOut_emits (h := h) hs hout
    refine ⟨[e], he, .cons hisOut .nil, ?_⟩
    rw [List.map_singleton, hslot]
  · rw [if_neg hused] at hr ⊢
    obtain ⟨rfl, rfl⟩ := pure_eq_ok.1 hr
    exact ⟨[], .done, .nil, rfl⟩

/-- The nodes of a call are placed behind those of its arguments. -/
theorem placeCall_emits {site : CallSite} {actualIns : List NodeId} {es : List Emission}
    {u : Unit} (hs : s.Below) (he : Emits h s es t)
    (hins : List.Forall₂ (IsIn es site.id) actualIns (List.range' 0 site.args.length))
    (hr : placeCall h site actualIns t = .ok u s') :
    ∃ es', Emits h s (es ++ es') s' ∧ es'.map Emission.step = site.ownSteps h := by
  simp only [placeCall, bind_eq_ok, newNode_eq_ok, place_eq_ok, raiseAll_eq_ok,
    modifyGraph_eq_ok] at hr
  obtain ⟨_, _, ⟨rfl, rfl⟩, _, _, ⟨rfl, rfl⟩, _, _, rfl, results, t₁, hresults, written, t₂,
    hwritten, rfl⟩ := hr
  have hcall := he.fresh hs (e := ⟨t.freshNode (.call site.id) site.text, site.throws⟩) rfl rfl
  have hs₀ := hcall.keepsBelow hs
  obtain ⟨es₁, he₁, hisOut₁, hslots₁⟩ := placeResult_emits (h := h) hs₀ hresults
  obtain ⟨es₂, he₂, hisOut₂, hslots₂⟩ :=
    placeWrittenArgs_emits (h := h) (he₁.keepsBelow hs₀) hwritten
  have hisOut := forall₂_append hisOut₁ hisOut₂
  have hslots : (results ++ written).map (·.1) = site.outputs h := by
    rw [List.map_append, hslots₁, hslots₂]
    rfl
  refine ⟨⟨t.freshNode (.call site.id) site.text, site.throws⟩ :: (es₁ ++ es₂), ?_, ?_⟩
  · have hline := (hcall.trans he₁).trans he₂
    rw [List.append_assoc, List.append_assoc] at hline
    refine .record hline ⟨⟨es, _, es₁ ++ es₂, rfl, rfl, rfl, rfl, hisOut⟩, ?_, hslots⟩
    exact hins.imp fun _ _ => IsIn.mono (List.subset_append_left _ _)
  · rw [List.map_cons, map_step_of_isOut hisOut, hslots]
    rfl

mutual

/-- A call is lowered to a line of nodes, its steps. -/
theorem lowerCall_emits (h : Hierarchy) (site : CallSite) {s s' : Lowering} {u : Unit}
    (hs : s.Below) (hr : lowerCall h site s = .ok u s') :
    ∃ es, Emits h s es s' ∧ es.map Emission.step = callSteps h site := by
  match site with
  | ⟨id, text, target, dispatch, args, resultUsed, throws⟩ =>
    simp only [lowerCall, bind_eq_ok] at hr
    obtain ⟨ins, t, hargs, hcall⟩ := hr
    obtain ⟨es, he, hsteps, hins⟩ := lowerArgs_emits h id 0 args hs hargs
    obtain ⟨es', he', hsteps'⟩ := placeCall_emits hs he hins hcall
    refine ⟨es ++ es', he', ?_⟩
    rw [List.map_append, hsteps, hsteps', callSteps]

/-- Arguments are lowered to a line of nodes, their steps, with an actual-in at each position. -/
theorem lowerArgs_emits (h : Hierarchy) (site : CallSiteId) (position : Nat)
    (args : List (Argument CallSite)) {s s' : Lowering} {ids : List NodeId} (hs : s.Below)
    (hr : lowerArgs h site position args s = .ok ids s') :
    ∃ es, Emits h s es s' ∧ es.map Emission.step = argSteps h site position args ∧
      List.Forall₂ (IsIn es site) ids (List.range' position args.length) := by
  match args with
  | [] =>
    simp only [lowerArgs, pure_eq_ok] at hr
    obtain ⟨rfl, rfl⟩ := hr
    exact ⟨[], .done, by rw [argSteps, List.map_nil], .nil⟩
  | ⟨text, uses, calls, var⟩ :: args =>
    simp only [lowerArgs, bind_eq_ok, newNode_eq_ok, place_eq_ok, pure_eq_ok] at hr
    obtain ⟨_, _, ⟨rfl, rfl⟩, _, t, hcalls, _, _, ⟨rfl, rfl⟩, ids, _, hargs, rfl, rfl⟩ := hr
    have hs' : s.numbered.Below := Emits.keepsBelow (h := h) (.number .done) hs
    obtain ⟨es, he, hsteps⟩ := lowerCalls_emits h calls hs' hcalls
    -- the actual-in was numbered before the calls in its argument were lowered
    have hin := he.reserved hs (e := ⟨{ s.freshNode (.actualIn site position) text with
      uses := uses ++ resultVars calls, calls := calls.map (·.id) }, []⟩) rfl rfl
    obtain ⟨es', he', hsteps', hins⟩ :=
      lowerArgs_emits h site (position + 1) args (hin.keepsBelow hs) hargs
    refine ⟨_, hin.trans he', ?_, .cons ?_ (hins.imp fun _ _ => IsIn.mono ?_)⟩
    · rw [List.map_append, List.map_append, hsteps, hsteps', argSteps]
      simp [Emission.step, Node.point, freshNode]
    · exact ⟨_, List.mem_append_left _ (List.mem_append_right _ List.mem_cons_self), rfl, rfl⟩
    · exact List.subset_append_right _ _

/-- Calls are lowered to a line of nodes, their steps. -/
theorem lowerCalls_emits (h : Hierarchy) (sites : List CallSite) {s s' : Lowering} {u : Unit}
    (hs : s.Below) (hr : lowerCalls h sites s = .ok u s') :
    ∃ es, Emits h s es s' ∧ es.map Emission.step = callsSteps h sites := by
  match sites with
  | [] =>
    simp only [lowerCalls, pure_eq_ok] at hr
    obtain ⟨-, rfl⟩ := hr
    exact ⟨[], .done, by rw [callsSteps, List.map_nil]⟩
  | site :: sites =>
    simp only [lowerCalls, bind_eq_ok] at hr
    obtain ⟨_, t, hcall, hcalls⟩ := hr
    obtain ⟨es, he, hsteps⟩ := lowerCall_emits h site hs hcall
    obtain ⟨es', he', hsteps'⟩ := lowerCalls_emits h sites (he.keepsBelow hs) hcalls
    exact ⟨es ++ es', he.trans he', by rw [List.map_append, hsteps, hsteps', callsSteps]⟩

end

/-! ## Runs of statements -/

theorem numbered_below (hs : s.Below) : s.numbered.Below :=
  Emits.keepsBelow (h := ⟨[], []⟩) (.number .done) hs

/-- A construct is placed behind its calls. -/
theorem placeWith_constructs {node : Node} {effects : Effects} {head id : NodeId} (hs : s.Below)
    (hid : node.id = ⟨s.nextId⟩) (hcallable : node.callable = s.graph.callable)
    (hr : placeWith h node effects s.numbered = .ok (head, id) s') :
    Constructs h s node.point effects head id s' := by
  simp only [placeWith, bind_eq_ok, get_eq_ok, place_eq_ok, raiseAll_eq_ok, pure_eq_ok] at hr
  obtain ⟨_, _, ⟨rfl, rfl⟩, _, t, hcalls, _, _, ⟨rfl, rfl⟩, _, _, ⟨rfl, rfl⟩, _, _, rfl, hpair,
    rfl⟩ := hr
  cases hpair
  obtain ⟨es, he, hsteps⟩ := lowerCalls_emits h effects.calls (numbered_below hs) hcalls
  have hline := he.reserved hs (e := ⟨{ node with
    defs := node.defs ++ effects.defs
    uses := node.uses ++ effects.uses ++ resultVars effects.calls
    calls := node.calls ++ effects.calls.map (·.id) }, effects.throws⟩) hid hcallable
  refine ⟨_, hline, ?_, ?_, ?_⟩
  · rw [List.map_append, hsteps]
    rfl
  · -- the first node placed stands where the graph ended before
    have hids := hline.ids_eq
    rw [sentAll_graph] at hids
    rw [← List.head?_map]
    exact FlowGraph.head?_eq_idAt hids (by simp)
  · simp

/-- A construct without calls is a single node. -/
theorem place_constructs (h : Hierarchy) (node : Node) (hs : s.Below) (hid : node.id = ⟨s.nextId⟩)
    (hcallable : node.callable = s.graph.callable) :
    Constructs h s node.point .none node.id node.id (s.numbered.placed node) :=
  ⟨[⟨node, []⟩], Emits.reserved hs .done hid hcallable, rfl, rfl, rfl⟩

/-- What is run unless nothing leads to it. -/
theorem unless_eq_ok {m : Lower Unit} {f : Lower α} {a : α} :
    (if !s.pending.isEmpty then m >>= fun _ => f else f) s = .ok a s' ↔
      ∃ t, (s.pending = [] ∧ t = s ∨ s.pending ≠ [] ∧ m s = .ok () t) ∧ f t = .ok a s' := by
  by_cases hp : s.pending = []
  · simp [hp]
  · rw [if_pos (by simpa using hp), bind_eq_ok]
    refine ⟨fun ⟨_, t, hm, hf⟩ => ⟨t, .inr ⟨hp, hm⟩, hf⟩, ?_⟩
    rintro ⟨t, ⟨hp', -⟩ | ⟨-, hm⟩, hf⟩
    exacts [(hp hp').elim, ⟨(), t, hm, hf⟩]

/-- The rounds of a loop: body and update are lowered, what they end in leads back, and the breaks
    wait. -/
theorem lowerLoop_eq_ok {node head : NodeId} {enter : FlowKind} {body update : Lower Unit}
    {breaks : List Pending} :
    lowerLoop node head enter body update s = .ok breaks s' ↔
      ∃ t u, body ((s.withPending [.plain node enter]).entered (.loop [] [])) = .ok () t ∧
        (let t' := t.left.withPending (t.pending ++ t.innermost.continues)
         t'.pending = [] ∧ u = t' ∨ t'.pending ≠ [] ∧ update t' = .ok () u) ∧
        breaks = t.innermost.breaks ∧
        s' = ((u.withPending []).closed head u.pending).withPending t.innermost.breaks := by
  simp only [lowerLoop, bind_eq_ok, setPending_eq_ok, pushScope_eq_ok, popScope_eq_ok,
    addPending_eq_ok, get_eq_ok]
  constructor
  · rintro ⟨_, _, rfl, _, _, rfl, _, t, hbody, _, _, ⟨rfl, rfl⟩, _, _, rfl, _, _, ⟨rfl, rfl⟩, hr⟩
    rw [unless_eq_ok] at hr
    simp only [bind_eq_ok, takePending_eq_ok, closeLoop_eq_ok, setPending_eq_ok, pure_eq_ok] at hr
    obtain ⟨u, hupdate, _, _, ⟨rfl, rfl⟩, _, _, rfl, _, _, rfl, rfl, rfl⟩ := hr
    exact ⟨t, u, hbody, hupdate, rfl, rfl⟩
  · rintro ⟨t, u, hbody, hupdate, rfl, rfl⟩
    refine ⟨(), _, rfl, (), _, rfl, (), t, hbody, _, _, ⟨rfl, rfl⟩, (), _, rfl, _, _, ⟨rfl, rfl⟩,
      ?_⟩
    rw [unless_eq_ok]
    simp only [bind_eq_ok, takePending_eq_ok, closeLoop_eq_ok, setPending_eq_ok, pure_eq_ok]
    exact ⟨u, hupdate, _, _, ⟨rfl, rfl⟩, (), _, rfl, (), _, rfl, trivial, rfl⟩

/-- A `finally` block is lowered from all that comes to it; without nodes it lets that through, and
    with nodes what was headed elsewhere goes on from its end. -/
theorem lowerFinalizer_eq_ok {block : Lower Unit} {normal : List Pending}
    {escapes : List (Pending × Escape)} {u : Unit}
    (hr : lowerFinalizer h block normal escapes s = .ok u s') :
    ∃ v, block (s.withPending (normal ++ escapes.map (·.1))) = .ok () v ∧
      (v.graph.size = s.graph.size ∧
          s' = (v.withPending
            (v.pending.filter fun p => !(escapes.map (·.1)).contains p)).sentAll h escapes ∨
        v.graph.size ≠ s.graph.size ∧
          s' = (v.withPending (if normal.isEmpty then [] else v.pending)).sentAll h
            (redirected escapes v.pending)) := by
  simp only [lowerFinalizer, bind_eq_ok, get_eq_ok, setPending_eq_ok] at hr
  obtain ⟨_, s, ⟨rfl, rfl⟩, _, _, rfl, _, _, hblock, _, v, ⟨rfl, rfl⟩, hr⟩ := hr
  refine ⟨v, hblock, ?_⟩
  by_cases hsize : v.graph.size = s.graph.size
  · rw [if_pos hsize, bind_eq_ok] at hr
    obtain ⟨_, _, hset, hroute⟩ := hr
    rw [setPending_eq_ok.1 hset] at hroute
    exact .inl ⟨hsize, routeAll_eq_ok hroute⟩
  · rw [if_neg hsize, bind_eq_ok] at hr
    obtain ⟨_, _, hset, hroute⟩ := hr
    rw [setPending_eq_ok.1 hset] at hroute
    exact .inr ⟨hsize, routeAll_eq_ok hroute⟩

/-- A jump leaves nothing waiting, and its way out is sent. -/
theorem jump_eq_ok {node : NodeId} {escape : Escape} {u : Unit}
    (hr : jump h node escape s = .ok u s') :
    s' = (s.withPending []).sent h ⟨node, escape.edge⟩ escape := by
  simp only [jump, bind_eq_ok, setPending_eq_ok, route_eq_ok] at hr
  obtain ⟨_, _, rfl, -, rfl⟩ := hr
  rfl

/-- The rounds of a loop are lowered once its body and its update are. -/
theorem lowered_rounds {m m' : Lower Unit} {node head : NodeId} {enter : FlowKind}
    {body update : List Stmt} {breaks : List Pending}
    (hr : Ready (.rounds node head enter body update breaks) s)
    (hbody : ∀ {v w : Lowering}, m v = .ok () w → Ready (.block body) v →
      Lowered h (.block body) v w)
    (hupdate : ∀ {v w : Lowering}, m' v = .ok () w → Ready (.block update) v →
      Lowered h (.block update) v w)
    (hrun : lowerLoop node head enter m m' s = .ok breaks s') :
    Lowered h (.rounds node head enter body update breaks) s s' := by
  obtain ⟨t, u, hb, hu, rfl, rfl⟩ := lowerLoop_eq_ok.1 hrun
  have hnode : ∀ p ∈ [Pending.plain node enter], p.source ∈ s.graph.ids := hr.inputs
  have hl := hbody hb (loop_ready _ hr.sound hnode)
  have hnext := continue_ready _ hnode hl.grown update
  have hready : Ready (.update update) _ := ⟨hnext.sound, hnext.inputs, hnext.heads⟩
  refine .rounds hr hl ?_
  rcases hu with ⟨hp, rfl⟩ | ⟨hp, hu⟩
  · exact .updateUnentered hready hp
  · exact .update hready hp (hupdate hu hnext)

/-- A loop with its test in front is lowered once its parts are. -/
theorem lowered_headedLoop {m m' : Lower Unit} {stmt : Stmt} {l : Loop} {cond : Effects}
    {header : Node} {u : Unit} (hr : Ready (.stmt stmt) s) (hp : s.pending ≠ [])
    (hloop : stmt.loop? = some l) (hcond : l.cond = some cond)
    (hinit : Lowered h (.block l.init) s t) (ht : t.pending ≠ [])
    (hheader : header.id = ⟨t.nextId⟩) (hcallable : header.callable = t.graph.callable)
    (hpoint : header.point = l.point)
    (hbody : ∀ {v w : Lowering}, m v = .ok () w → Ready (.block l.body) v →
      Lowered h (.block l.body) v w)
    (hupdate : ∀ {v w : Lowering}, m' v = .ok () w → Ready (.block l.update) v →
      Lowered h (.block l.update) v w)
    (hrun : lowerHeadedLoop h header cond m m' t.numbered = .ok u s') :
    Lowered h (.stmt stmt) s s' := by
  simp only [lowerHeadedLoop, bind_eq_ok, addPending_eq_ok] at hrun
  obtain ⟨⟨head, id⟩, u, hplace, breaks, v, hrounds, rfl⟩ := hrun
  have hg := hinit.grown
  have hc := placeWith_constructs hg.ext.sound.below hheader hcallable hplace
  rw [hpoint, show cond = l.test by rw [Loop.test, hcond]; rfl] at hc
  have hext := construct_after hr.toBlock hg ht hc
  have hl := lowered_rounds (rounds_ready hext.sound hc.made.2 hc.made.1) hbody hupdate hrounds
  exact .tested hr hp hloop (by rw [hcond]; rfl) hinit ht hc hl

/-- A loop with its test behind the body is lowered once its body is. -/
theorem lowered_footedLoop {m : Lower Unit} {source : Element} {body : List Stmt} {cond : Effects}
    {u : Unit} (hr : Ready (.stmt (.doWhile source body cond)) s) (hp : s.pending ≠ [])
    (hbody : ∀ {v w : Lowering}, m v = .ok () w → Ready (.block body) v →
      Lowered h (.block body) v w)
    (hrun : lowerFootedLoop h source m cond s = .ok u s') :
    Lowered h (.stmt (.doWhile source body cond)) s s' := by
  simp only [lowerFootedLoop, bind_eq_ok, get_eq_ok, pushScope_eq_ok, popScope_eq_ok,
    addPending_eq_ok] at hrun
  obtain ⟨_, s, ⟨rfl, rfl⟩, _, _, rfl, _, t, hb, _, _, ⟨rfl, rfl⟩, _, _, ⟨rfl, rfl⟩, _, _, rfl,
    _, _, ⟨rfl, rfl⟩, hrun⟩ := hrun
  have hl := hbody hb (loop_ready s.pending hr.sound hr.inputs)
  by_cases hfoot : t.pending ++ t.innermost.continues = []
  · -- nothing leads to the test, which stays without a node
    rw [if_pos (by simpa using hfoot)] at hrun
    simp only [bind_eq_ok, skip_eq_ok, setPending_eq_ok] at hrun
    obtain ⟨_, _, rfl, rfl⟩ := hrun
    rw [left_pending, hfoot]
    exact .footless hr hp hl hfoot
  · rw [if_neg (by simpa using hfoot)] at hrun
    simp only [bind_eq_ok, newStmtNode_eq_ok, modifyGraph_eq_ok, setPending_eq_ok] at hrun
    obtain ⟨_, _, ⟨rfl, rfl⟩, ⟨head, id⟩, u, hplace, _, _, rfl, rfl⟩ := hrun
    have hc := placeWith_constructs (s := t.left.withPending (t.pending ++ t.innermost.continues))
      hl.grown.ext.sound.below rfl rfl hplace
    exact .footed hr hp hl hfoot hc

/-- A loop without a test is lowered once its parts are. -/
theorem lowered_endlessLoop {m m' : Lower Unit} {source : Element} {init body update : List Stmt}
    {u : Unit} (hr : Ready (.stmt (.forLoop source init none update body)) s) (hp : s.pending ≠ [])
    (hinit : Lowered h (.block init) s t) (ht : t.pending ≠ [])
    (hbody : ∀ {v w : Lowering}, m v = .ok () w → Ready (.block body) v →
      Lowered h (.block body) v w)
    (hupdate : ∀ {v w : Lowering}, m' v = .ok () w → Ready (.block update) v →
      Lowered h (.block update) v w)
    (hrun : lowerEndlessLoop source m m' t = .ok u s') :
    Lowered h (.stmt (.forLoop source init none update body)) s s' := by
  simp only [lowerEndlessLoop, bind_eq_ok, newStmtNode_eq_ok, place_eq_ok] at hrun
  obtain ⟨_, _, ⟨rfl, rfl⟩, _, _, ⟨rfl, rfl⟩, breaks, v, hrounds, hrun⟩ := hrun
  have hc := place_constructs h (t.stmtNode .predicate source) hinit.grown.ext.sound.below rfl rfl
  have hext := construct_after hr.toBlock hinit.grown ht hc
  have hl := lowered_rounds (rounds_ready hext.sound hc.made.2 hc.made.2) hbody hupdate hrounds
  -- its header counts as a loop head only if nothing breaks out of it
  have hs' : s' = if breaks.isEmpty then v.withLoopHead ⟨t.nextId⟩ else v := by
    split at hrun <;> rename_i hbreaks
    · rw [if_pos hbreaks]
      exact modify_eq_ok.1 hrun
    · rw [if_neg hbreaks]
      exact (pure_eq_ok.1 hrun).2
  rw [hs']
  exact .endless (l := ⟨source, init, [], none, update, body⟩) hr hp rfl rfl hinit ht hc hl

/-- A jump without a value is placed, and then leaves. -/
theorem lowered_plainJump {stmt : Stmt} {j : Jump} {u : Unit} (hr : Ready (.stmt stmt) s)
    (hp : s.pending ≠ []) (hj : stmt.jump? = some j) (hvalue : j.value = .none)
    (hrun : (do
      let node ← place (← newStmtNode j.kind j.source)
      jump h node j.escape : Lower Unit) s = .ok u s') :
    Lowered h (.stmt stmt) s s' := by
  simp only [bind_eq_ok, newStmtNode_eq_ok, place_eq_ok] at hrun
  obtain ⟨_, _, ⟨rfl, rfl⟩, _, _, ⟨rfl, rfl⟩, hrun⟩ := hrun
  obtain rfl := jump_eq_ok hrun
  have hc := place_constructs h (s.stmtNode j.kind j.source) hr.sound.below rfl rfl
  exact .jump hr hp hj (hvalue ▸ hc)

/-- A `try` with a `finally` block is lowered once its body, its handlers and the block are. -/
theorem lowered_finally {m : Lower Unit} {source : Element} {body block : List Stmt}
    {catches : List (CatchClause Stmt)} {after : List Pending} {x : Unit}
    (hr : Ready (.stmt (.tryBlock source body catches (some block))) s) (hp : s.pending ≠ [])
    (hl : Lowered h (.block body) (s.entered (tryScope catches true)) t)
    (hl' : Lowered h (.catches t.innermost.handlers catches after)
      ((t.left.withPending []).entered t.innermost.withoutHandlers) u)
    (hblock : ∀ {v w : Lowering}, m v = .ok () w → Ready (.block block) v →
      Lowered h (.block block) v w)
    (hrun : lowerFinalizer h m (t.pending ++ after) u.innermost.escapes u.left = .ok x s') :
    Lowered h (.stmt (.tryBlock source body catches (some block))) s s' := by
  obtain ⟨hext, hescapes, hout⟩ := try_grown hl.grown hl'.grown
  have hready := finalizer_ready block hext hr.inputs (finalizer_inputs hescapes hout)
  obtain ⟨v, hb, ⟨hsize, rfl⟩ | ⟨hsize, rfl⟩⟩ := lowerFinalizer_eq_ok hrun
  · exact .tryNodeless hr hp hl hl' (hblock hb hready) hsize
  · exact .tryFinally hr hp hl hl' (hblock hb hready) hsize

mutual

/-- Every statement that is lowered has a derivation. -/
theorem lowered_stmt (h : Hierarchy) (stmt : Stmt) {s s' : Lowering} {u : Unit}
    (hrun : lowerStmt h stmt s = .ok u s') (hr : Ready (.stmt stmt) s) :
    Lowered h (.stmt stmt) s s' := by
  unfold lowerStmt at hrun
  rw [bind_eq_ok] at hrun
  obtain ⟨_, s, hget, hrun⟩ := hrun
  obtain ⟨rfl, rfl⟩ := get_eq_ok.1 hget
  by_cases hp : s.pending = []
  · rw [if_pos (by simpa using hp)] at hrun
    obtain rfl := skip_eq_ok.1 hrun
    exact .skip hr hp
  rw [if_neg (by simpa using hp)] at hrun
  have hs := hr.sound.below
  match stmt with
  | .simple source effects =>
    simp only [bind_eq_ok, newStmtNode_eq_ok, pure_eq_ok] at hrun
    obtain ⟨_, _, ⟨rfl, rfl⟩, ⟨head, id⟩, _, hplace, -, rfl⟩ := hrun
    exact .simple hr hp (placeWith_constructs hs rfl rfl hplace)
  | .branch source cond thenBranch elseBranch =>
    simp only [bind_eq_ok, newStmtNode_eq_ok, setPending_eq_ok, takePending_eq_ok,
      addPending_eq_ok] at hrun
    obtain ⟨_, _, ⟨rfl, rfl⟩, ⟨head, id⟩, t, hplace, _, _, rfl, _, u, hthen, _, _, ⟨rfl, rfl⟩, _, _,
      rfl, _, v, helse, rfl⟩ := hrun
    have hc := placeWith_constructs hs rfl rfl hplace
    have hext := (hc.extends hr.sound hp hr.inputs).withPending [.plain id .trueBranch]
    have hl := lowered_block h thenBranch hthen (block_ready hext (made_plain hc.made.2))
    have hext' := (block_made hext (made_plain hc.made.2) hl.grown).1.withPending [.plain id .falseBranch]
    exact .branch hr hp hc hl (lowered_block h elseBranch helse
      (block_ready hext' (made_plain (hl.grown.ext.made_of_right hc.made.2))))
  | .whileLoop source cond body =>
    simp only [bind_eq_ok, newStmtNode_eq_ok] at hrun
    obtain ⟨_, _, ⟨rfl, rfl⟩, hrun⟩ := hrun
    refine lowered_headedLoop (l := ⟨source, [], [], some cond, [], body⟩) hr hp rfl rfl
      (.blockEnd hr.toBlock) hp rfl rfl rfl (fun hb => lowered_block h body hb) (fun hu hr' => ?_) hrun
    obtain ⟨-, rfl⟩ := pure_eq_ok.1 hu
    exact .blockEnd hr'
  | .forEach source var iterable body =>
    simp only [bind_eq_ok, newStmtNode_eq_ok] at hrun
    obtain ⟨_, _, ⟨rfl, rfl⟩, hrun⟩ := hrun
    refine lowered_headedLoop (l := ⟨source, [], [var], some iterable, [], body⟩) hr hp rfl rfl
      (.blockEnd hr.toBlock) hp ?_ ?_ ?_ (fun hb => lowered_block h body hb) (fun hu hr' => ?_) hrun
    · rfl
    · rfl
    · rfl
    · obtain ⟨-, rfl⟩ := pure_eq_ok.1 hu
      exact .blockEnd hr'
  | .doWhile source body cond =>
    exact lowered_footedLoop hr hp (fun hb => lowered_block h body hb) hrun
  | .forLoop source init cond update body =>
    simp only [bind_eq_ok, get_eq_ok] at hrun
    obtain ⟨_, _, hinit, _, t, ⟨rfl, rfl⟩, hrun⟩ := hrun
    have hl := lowered_block h init hinit hr.toBlock
    by_cases ht : t.pending = []
    · rw [if_neg (by simpa using ht)] at hrun
      obtain ⟨-, rfl⟩ := pure_eq_ok.1 hrun
      exact .loopUnentered hr hp rfl hl ht
    rw [if_pos (by simpa using ht)] at hrun
    match cond with
    | some cond =>
      simp only [bind_eq_ok, newStmtNode_eq_ok] at hrun
      obtain ⟨_, _, ⟨rfl, rfl⟩, hrun⟩ := hrun
      exact lowered_headedLoop (l := ⟨source, init, [], some cond, update, body⟩) hr hp rfl rfl hl
        ht rfl rfl rfl (fun hb => lowered_block h body hb) (fun hu => lowered_block h update hu) hrun
    | none =>
      exact lowered_endlessLoop hr hp hl ht (fun hb => lowered_block h body hb)
        (fun hu => lowered_block h update hu) hrun
  | .select source selector cases =>
    simp only [bind_eq_ok, newStmtNode_eq_ok, pushScope_eq_ok, popScope_eq_ok,
      addPending_eq_ok] at hrun
    obtain ⟨_, _, ⟨rfl, rfl⟩, ⟨head, id⟩, t, hplace, _, _, rfl, _, u, hcases, _, _, ⟨rfl, rfl⟩, _,
      _, rfl, hrun⟩ := hrun
    have hc := placeWith_constructs hs rfl rfl hplace
    have hext := hc.extends hr.sound hp hr.inputs
    have hl := Lowered.select hr hp hc
      (lowered_cases h source id [] cases hcases (cases_ready hext.sound hc.made.2))
    rw [skipArcs] at hl
    -- control can skip all the cases only if none of them is the default one
    split at hrun
    · rename_i hall
      rw [if_pos hall] at hl
      obtain rfl := addPending_eq_ok.1 hrun
      exact hl
    · rename_i hall
      rw [if_neg hall, List.append_nil] at hl
      obtain ⟨-, rfl⟩ := pure_eq_ok.1 hrun
      exact hl
  | .breakJump source =>
    exact lowered_plainJump (j := ⟨source, .breakJump, .breakJump, [], .none⟩) hr hp rfl rfl hrun
  | .continueJump source =>
    exact lowered_plainJump (j := ⟨source, .continueJump, .continueJump, [], .none⟩) hr hp rfl rfl
      hrun
  | .returnJump source none =>
    exact lowered_plainJump (j := ⟨source, .returnJump, .returnJump, [], .none⟩) hr hp rfl rfl hrun
  | .returnJump source (some value) =>
    simp only [bind_eq_ok, newStmtNode_eq_ok] at hrun
    obtain ⟨_, _, ⟨rfl, rfl⟩, ⟨head, id⟩, t, hplace, hrun⟩ := hrun
    obtain rfl := jump_eq_ok hrun
    exact .jump (j := ⟨source, .returnJump, .returnJump, [returnVar], value⟩) hr hp rfl
      (placeWith_constructs hs rfl rfl hplace)
  | .throwJump source exceptionType value =>
    simp only [bind_eq_ok, newStmtNode_eq_ok] at hrun
    obtain ⟨_, _, ⟨rfl, rfl⟩, ⟨head, id⟩, t, hplace, hrun⟩ := hrun
    obtain rfl := jump_eq_ok hrun
    exact .jump (j := ⟨source, .throwJump, .throwJump exceptionType, [], value⟩) hr hp rfl
      (placeWith_constructs hs rfl rfl hplace)
  | .tryBlock source body catches finalizer =>
    simp only [bind_eq_ok, pushScope_eq_ok, popScope_eq_ok, takePending_eq_ok] at hrun
    obtain ⟨_, _, rfl, _, t, hbody, _, _, ⟨rfl, rfl⟩, _, _, ⟨rfl, rfl⟩, _, _, rfl, after, u,
      hcatches, _, _, ⟨rfl, rfl⟩, hrun⟩ := hrun
    have hl : Lowered h (.block body) (s.entered (tryScope catches finalizer.isSome)) t :=
      lowered_block h body hbody (try_ready hr.sound hr.inputs)
    have hready := catches_ready after hl.grown
    have hl' := lowered_catches h _ catches hcatches hready
    match finalizer with
    | none =>
      obtain rfl := setPending_eq_ok.1 hrun
      exact .tryPlain hr hp hl hl'
    | some block => exact lowered_finally hr hp hl hl' (fun hb => lowered_block h block hb) hrun
  | .block source body => exact .nested hr hp (lowered_block h body hrun hr.toBlock)

/-- Lowering a block is a derivation. -/
theorem lowered_block (h : Hierarchy) (stmts : List Stmt) {s s' : Lowering} {u : Unit}
    (hrun : lowerBlock h stmts s = .ok u s') (hr : Ready (.block stmts) s) :
    Lowered h (.block stmts) s s' := by
  match stmts with
  | [] =>
    simp only [lowerBlock, pure_eq_ok] at hrun
    obtain ⟨-, rfl⟩ := hrun
    exact .blockEnd hr
  | stmt :: stmts =>
    simp only [lowerBlock, bind_eq_ok] at hrun
    obtain ⟨_, t, hstmt, hrest⟩ := hrun
    have hl := lowered_stmt h stmt hstmt hr.toStmt
    exact .blockNext hr hl (lowered_block h stmts hrest (next_ready hr.toStmt hl.grown))

/-- Lowering the cases of a `switch` is a derivation. -/
theorem lowered_cases (h : Hierarchy) (source : Element) (selector : NodeId)
    (fallthrough : List Pending) (cases : List (SwitchCase Stmt)) {s s' : Lowering} {u : Unit}
    (hrun : lowerCases h source selector fallthrough cases s = .ok u s')
    (hr : Ready (.cases source selector fallthrough cases) s) :
    Lowered h (.cases source selector fallthrough cases) s s' := by
  match cases with
  | [] =>
    simp only [lowerCases, setPending_eq_ok] at hrun
    obtain rfl := hrun
    exact .casesEnd hr
  | ⟨id, label, body⟩ :: cases =>
    simp only [lowerCases, bind_eq_ok, setPending_eq_ok, newNode_eq_ok, place_eq_ok,
      takePending_eq_ok] at hrun
    obtain ⟨_, _, rfl, _, _, ⟨rfl, rfl⟩, _, _, ⟨rfl, rfl⟩, _, u, hbody, _, _, ⟨rfl, rfl⟩,
      hrest⟩ := hrun
    have hc := place_constructs h (s := s.withPending (caseFrontier selector fallthrough label))
      { s.freshNode .caseLabel (caseText label) with
        element := some id, span := source.span } hr.sound.below rfl rfl
    have hext := case_extends (c := ⟨id, label, body⟩) hr hc
    have hl := lowered_block h body hbody (block_ready hext hc.made_pending)
    obtain ⟨hext', hout⟩ := block_made hext hc.made_pending hl.grown
    exact .case (c := ⟨id, label, body⟩) hr hc hl
      (lowered_cases h source selector _ cases hrest (case_ready hr hext' hout))

/-- Lowering the clauses of a `try` is a derivation. -/
theorem lowered_catches (h : Hierarchy) (handlers : List Handler)
    (clauses : List (CatchClause Stmt)) {s s' : Lowering} {after : List Pending}
    (hrun : lowerCatches h handlers clauses s = .ok after s')
    (hr : Ready (.catches handlers clauses after) s) :
    Lowered h (.catches handlers clauses after) s s' := by
  match clauses, handlers with
  | [], handlers =>
    simp only [lowerCatches, pure_eq_ok] at hrun
    obtain ⟨rfl, rfl⟩ := hrun
    exact .catchesEnd hr
  | ⟨id, exceptionType, var, body⟩ :: clauses, [] =>
    simp only [lowerCatches, pure_eq_ok] at hrun
    obtain ⟨rfl, rfl⟩ := hrun
    exact .catchesUnhandled hr
  | ⟨id, exceptionType, var, body⟩ :: clauses, handler :: handlers =>
    simp only [lowerCatches] at hrun
    by_cases hin : handler.incoming = []
    · rw [if_pos (by simpa using hin)] at hrun
      simp only [bind_eq_ok, skip_eq_ok] at hrun
      obtain ⟨_, _, rfl, hrun⟩ := hrun
      exact .catchUnentered hr hin
        (lowered_catches h handlers clauses hrun (unentered_ready hr id))
    · rw [if_neg (by simpa using hin)] at hrun
      simp only [bind_eq_ok, setPending_eq_ok, newNode_eq_ok, place_eq_ok, takePending_eq_ok,
        pure_eq_ok] at hrun
      obtain ⟨_, _, rfl, _, _, ⟨rfl, rfl⟩, _, _, ⟨rfl, rfl⟩, _, u, hbody, _, _, ⟨rfl, rfl⟩, after,
        _, hrest, rfl, rfl⟩ := hrun
      have hc := place_constructs h (s := s.withPending handler.incoming)
        { s.freshNode .catchClause (catchText exceptionType var) with
          element := some id, defs := [var] } hr.sound.below rfl rfl
      have hext := catch_extends (c := ⟨id, exceptionType, var, body⟩) hr hin hc
      have hl := lowered_block h body hbody (block_ready hext hc.made_pending)
      have hext' := (block_made hext hc.made_pending hl.grown).1
      exact .catch (c := ⟨id, exceptionType, var, body⟩) hr hin hc hl
        (lowered_catches h handlers clauses hrest (catch_ready hr hext'))

end

end Lowering

end Slicing
