import Slicing.Proofs.Flow.Inversion

/-!
# The nodes around the body of a callable

The body of a callable stands between two lines of nodes: the formal-ins behind the entry
(`placeFormalIns_eq_ok`), and the formal-outs in front of the exit (`finish_eq_ok`). The
stages of a whole flow graph are put together in `build_eq_ok`.
-/

namespace Slicing

/-- A node was placed for a value that leaves the callable. -/
def Emission.IsFormalOut (e : Emission) (out : OutputSlot × NodeId) : Prop :=
  e.node.id = out.2 ∧ e.step = ⟨⟨.formalOut out.1, none⟩, []⟩

/-- The parameters passed by reference, from a position on. -/
def writtenParams (position : Nat) : List Param → List OutputSlot
  | [] => []
  | param :: params =>
    if param.passing = .byReference then .param position :: writtenParams (position + 1) params
    else writtenParams (position + 1) params

/-- The values that leave a callable: its result, and the parameters that it writes. -/
theorem CallableDecl.outputs_eq (decl : CallableDecl) : decl.outputs =
    (if decl.returnsValue then [.result] else []) ++ writtenParams 0 decl.params := by
  have key (params : List Param) (position : Nat) (f : Nat → Bool)
      (hf : ∀ i, f (position + i) = (params[i]?.map (·.passing) == some .byReference)) :
      ((List.range' position params.length).filter f).map OutputSlot.param =
        writtenParams position params := by
    induction params generalizing position with
    | nil => rfl
    | cons param params ih =>
      have hrest := ih (position + 1) fun i => by
        rw [Nat.add_right_comm, Nat.add_assoc, hf]
        simp
      have hfirst : f position = (param.passing == .byReference) := by simpa using hf 0
      rw [List.length_cons, List.range'_succ, List.filter_cons, hfirst, writtenParams]
      by_cases hmode : param.passing = .byReference <;> simp [hmode, hrest]
  rw [outputs, List.range_eq_range', key]
  intro i
  simp [isByReference, passing]

namespace Lowering

variable {h : Hierarchy} {decl : CallableDecl} {s s' t u : Lowering}

/-! ## Formal nodes -/

/-- The state with other formal nodes recorded. -/
def withFormals (s : Lowering) (formalIns : List NodeId) (formalOuts : List (OutputSlot × NodeId)) :
    Lowering :=
  s.withGraph { s.graph with formalIns, formalOuts }

section Fields

variable (s) (ins : List NodeId) (outs : List (OutputSlot × NodeId))

@[simp] theorem withFormals_pending : (s.withFormals ins outs).pending = s.pending := rfl
@[simp] theorem withFormals_scopes : (s.withFormals ins outs).scopes = s.scopes := rfl
@[simp] theorem withFormals_returns : (s.withFormals ins outs).returns = s.returns := rfl
@[simp] theorem withFormals_loopHeads : (s.withFormals ins outs).loopHeads = s.loopHeads := rfl
@[simp] theorem withFormals_nextId : (s.withFormals ins outs).nextId = s.nextId := rfl
@[simp] theorem withFormals_formalIns : (s.withFormals ins outs).graph.formalIns = ins := rfl
@[simp] theorem withFormals_formalOuts : (s.withFormals ins outs).graph.formalOuts = outs := rfl
@[simp] theorem withFormals_ids : (s.withFormals ins outs).graph.ids = s.graph.ids := rfl
@[simp] theorem withFormals_nodes : (s.withFormals ins outs).graph.nodes = s.graph.nodes := rfl
@[simp] theorem withFormals_edges : (s.withFormals ins outs).graph.edges = s.graph.edges := rfl

theorem addArc_withFormals (g : FlowGraph) (x y : NodeId) (edge : FlowEdge) :
    FlowGraph.addArc { g with formalIns := ins, formalOuts := outs } x y edge =
      { g.addArc x y edge with formalIns := ins, formalOuts := outs } := by
  have hpos (z : NodeId) :
      FlowGraph.position? { g with formalIns := ins, formalOuts := outs } z = g.position? z := rfl
  unfold FlowGraph.addArc
  rw [hpos, hpos]
  cases g.position? x <;> cases g.position? y <;> rfl

/-- The formals do not matter for placing a node. -/
theorem placed_withFormals (node : Node) :
    (s.withFormals ins outs).placed node = (s.placed node).withFormals ins outs := by
  have key (g : FlowGraph) (ps : List Pending) :
      ps.foldl (fun g p => g.addArc p.source node.id p.edge)
        { g with formalIns := ins, formalOuts := outs } =
      { ps.foldl (fun g p => g.addArc p.source node.id p.edge) g with
        formalIns := ins, formalOuts := outs } := by
    induction ps generalizing g with
    | nil => rfl
    | cons p ps ih =>
      rw [List.foldl_cons, List.foldl_cons, addArc_withFormals, ih]
  unfold placed withFormals withGraph
  exact congrArg (fun graph => Lowering.mk _ graph _ _ _ _) (key (s.graph.addNode node) s.pending)

end Fields

/-- The node of a parameter. -/
def formalInNode (s : Lowering) (position : Nat) (param : Param) : Node :=
  { s.freshNode (.formalIn position) ("in " ++ param.name) with defs := [param.name] }

/-- The node of a value that leaves the callable. -/
def formalOutNode (s : Lowering) (slot : OutputSlot) (text var : String) : Node :=
  { s.freshNode (.formalOut slot) text with uses := [var] }

section Runs

variable {position : Nat} {param : Param} {params : List Param} {es : List Emission}
  {ins : List NodeId} {outs : List (OutputSlot × NodeId)} {x : Unit}

/-- The first parameter gets its node, and then the others. -/
theorem placeFormalIns_cons (hr : placeFormalIns position (param :: params)
      (t.withFormals ins outs) = .ok x s') :
    placeFormalIns (position + 1) params ((t.numbered.placed (t.formalInNode position
      param)).withFormals (ins ++ [⟨t.nextId⟩]) outs) = .ok x s' := by
  simp only [placeFormalIns, bind_eq_ok, newNode_eq_ok, place_eq_ok, modifyGraph_eq_ok] at hr
  obtain ⟨_, _, ⟨rfl, rfl⟩, _, _, ⟨rfl, rfl⟩, _, _, rfl, hr⟩ := hr
  have hstate (node : Node) (id : NodeId) :
      (t.numbered.placed node).withFormals (ins ++ [id]) outs =
        ((t.numbered.withFormals ins outs).placed node).withGraph
          { ((t.numbered.withFormals ins outs).placed node).graph with
            formalIns := ((t.numbered.withFormals ins outs).placed node).graph.formalIns ++ [id] } := by
    rw [placed_withFormals]
    rfl
  rw [hstate]
  exact hr

/-- A value that leaves the callable gets a node, which is recorded by its slot. -/
theorem placeFormalOut_eq_ok {slot : OutputSlot} {text var : String}
    (hr : placeFormalOut slot text var (t.withFormals ins outs) = .ok x s') :
    s' = (t.numbered.placed (t.formalOutNode slot text var)).withFormals ins
      (outs ++ [(slot, ⟨t.nextId⟩)]) := by
  simp only [placeFormalOut, bind_eq_ok, newNode_eq_ok, place_eq_ok, modifyGraph_eq_ok] at hr
  obtain ⟨_, _, ⟨rfl, rfl⟩, _, _, ⟨rfl, rfl⟩, rfl⟩ := hr
  have hstate (node : Node) (out : OutputSlot × NodeId) :
      (t.numbered.placed node).withFormals ins (outs ++ [out]) =
        ((t.numbered.withFormals ins outs).placed node).withGraph
          { ((t.numbered.withFormals ins outs).placed node).graph with
            formalOuts := ((t.numbered.withFormals ins outs).placed node).graph.formalOuts ++
              [out] } := by
    rw [placed_withFormals]
    rfl
  rw [hstate]
  rfl

/-- The nodes of the parameters stand in line. -/
theorem placeFormalIns_eq_ok (ins : List NodeId) (outs : List (OutputSlot × NodeId)) (hs : s.Below) (he : Emits h s es t)
    (hr : placeFormalIns position params (t.withFormals ins outs) = .ok x s') :
    ∃ es' t', Emits h s (es ++ es') t' ∧
      s' = t'.withFormals (ins ++ es'.map (·.node.id)) outs ∧
      es'.map Emission.step = (List.range' position params.length).map fun position =>
        ⟨⟨.formalIn position, none⟩, []⟩ := by
  induction params generalizing position t es ins with
  | nil =>
    obtain ⟨-, rfl⟩ := pure_eq_ok.1 hr
    exact ⟨[], t, by simpa using he, by simp, rfl⟩
  | cons param params ih =>
    have hnode := he.fresh hs (e := ⟨t.formalInNode position param, []⟩) rfl rfl
    obtain ⟨es', t', he', rfl, hsteps⟩ := ih _ hnode (placeFormalIns_cons hr)
    refine ⟨⟨t.formalInNode position param, []⟩ :: es', t', by simpa using he', ?_, ?_⟩
    · rw [List.append_assoc]
      rfl
    · rw [List.map_cons, hsteps, List.length_cons, List.range'_succ, List.map_cons]
      rfl

/-- A formal-out is placed behind the nodes there are. -/
theorem placeFormalOut_emits {slot : OutputSlot} {text var : String} (hs : s.Below)
    (he : Emits h s es t)
    (hr : placeFormalOut slot text var (t.withFormals ins outs) = .ok x s') :
    ∃ e t', Emits h s (es ++ [e]) t' ∧ s' = t'.withFormals ins (outs ++ [(slot, e.node.id)]) ∧
      e.IsFormalOut (slot, e.node.id) :=
  ⟨⟨t.formalOutNode slot text var, []⟩, _, he.fresh hs rfl rfl, placeFormalOut_eq_ok hr, rfl, rfl⟩

/-- The parameters that are written get their formal-outs, one behind the other. -/
theorem placeWrittenParams_eq_ok (hs : s.Below) (he : Emits h s es t)
    (hr : placeWrittenParams position params (t.withFormals ins outs) = .ok x s') :
    ∃ es' outs' t', Emits h s (es ++ es') t' ∧ s' = t'.withFormals ins (outs ++ outs') ∧
      List.Forall₂ Emission.IsFormalOut es' outs' ∧
      outs'.map (·.1) = writtenParams position params := by
  induction params generalizing position t es outs with
  | nil =>
    obtain ⟨-, rfl⟩ := pure_eq_ok.1 hr
    exact ⟨[], [], t, by simpa using he, by simp, .nil, rfl⟩
  | cons param params ih =>
    rw [placeWrittenParams] at hr
    rw [writtenParams]
    by_cases hmode : param.passing = .byReference
    · rw [if_pos hmode] at hr ⊢
      simp only [bind_eq_ok] at hr
      obtain ⟨_, _, hout, hr⟩ := hr
      obtain ⟨e, t₁, he₁, rfl, hisOut⟩ := placeFormalOut_emits hs he hout
      obtain ⟨es', outs', t', he', rfl, hisOuts, hslots⟩ := ih he₁ hr
      refine ⟨e :: es', _ :: outs', t', by simpa using he', ?_, .cons hisOut hisOuts, ?_⟩
      · rw [List.append_assoc]
        rfl
      · rw [List.map_cons, hslots]
    · rw [if_neg hmode] at hr ⊢
      exact ih he hr

end Runs

/-! ## The end of a callable -/

/-- The graph with arcs to the exit. -/
def exiting (g : FlowGraph) (tails : List Pending) : FlowGraph :=
  tails.foldl (fun g p => g.addArc p.source g.exit.id p.edge) g

/-- The graph with its exit head. -/
def headed (g : FlowGraph) : FlowGraph :=
  match g.formalOuts with
  | (_, head) :: _ => g.setExitHead head
  | [] => g

/-- The graph with the loops flagged from which the exit is not reached. -/
def flagged (g : FlowGraph) (heads : List NodeId) : FlowGraph :=
  { g with
    nonTerminating := heads.filter fun head =>
      match g.position? head with
      | some position => !(g.reaching FlowGraph.exitPosition).contains position
      | none => false }

/-- The end of a callable behind its result. -/
def leave (params : List Param) : Lower Unit := do
  placeWrittenParams 0 params
  let tails ← takePending
  modifyGraph fun g => exiting g tails
  modifyGraph headed
  let s ← get
  modifyGraph fun g => { g with nonTerminating := (flagged s.graph s.loopHeads).nonTerminating }

/-- A callable is finished by what comes behind its body, the result first. -/
theorem finish_eq (decl : CallableDecl) : finish decl = (do
    let s ← get
    addPending s.returns
    if decl.returnsValue then do
      placeFormalOut .result "out return" returnVar
      leave decl.params
    else leave decl.params) := by
  rfl

/-- Leaving a callable places the formal-outs of its parameters, goes to the exit and flags the
    loops without a way out. -/
theorem leave_eq_ok {params : List Param} {es : List Emission} {ins : List NodeId}
    {outs : List (OutputSlot × NodeId)} {x : Unit} (hs : s.Below) (he : Emits h s es t)
    (hr : leave params (t.withFormals ins outs) = .ok x s') :
    ∃ es' outs' t', Emits h s (es ++ es') t' ∧ List.Forall₂ Emission.IsFormalOut es' outs' ∧
      outs'.map (·.1) = writtenParams 0 params ∧
      s'.graph = flagged (headed (exiting (t'.withFormals ins (outs ++ outs')).graph t'.pending))
        t'.loopHeads := by
  simp only [leave, bind_eq_ok, takePending_eq_ok, modifyGraph_eq_ok, get_eq_ok] at hr
  obtain ⟨_, _, hparams, tails, _, ⟨rfl, rfl⟩, _, _, rfl, _, _, rfl, _, _, ⟨rfl, rfl⟩, rfl⟩ := hr
  obtain ⟨es', outs', t', he', rfl, hisOuts, hslots⟩ := placeWrittenParams_eq_ok hs he hparams
  exact ⟨es', outs', t', he', hisOuts, hslots, rfl⟩

theorem Emits.loopHeads_eq {es : List Emission} (he : Emits h s es t) :
    t.loopHeads = s.loopHeads := by
  induction he with
  | done => rfl
  | number _ ih => exact ih
  | record _ _ ih => exact ih
  | node _ _ _ _ _ ih => simpa using ih

/-- The nodes of the values that leave a callable stand in line, and lead to the exit. -/
theorem finish_eq_ok {x : Unit} (hs : s.Below) (houts : s.graph.formalOuts = [])
    (hr : finish decl s = .ok x s') :
    ∃ es outs t, Emits h (s.withPending (s.pending ++ s.returns)) es t ∧
      List.Forall₂ Emission.IsFormalOut es outs ∧ outs.map (·.1) = decl.outputs ∧
      s'.graph = flagged (headed (exiting (t.withFormals s.graph.formalIns outs).graph t.pending))
        s.loopHeads := by
  simp only [finish_eq, bind_eq_ok, get_eq_ok, addPending_eq_ok] at hr
  obtain ⟨_, s, ⟨rfl, rfl⟩, _, _, rfl, hr⟩ := hr
  have hstart : s.withPending (s.pending ++ s.returns) =
      (s.withPending (s.pending ++ s.returns)).withFormals s.graph.formalIns [] := by
    rw [← houts]
    rfl
  rw [hstart] at hr
  have hs' : (s.withPending (s.pending ++ s.returns)).Below := hs
  rw [decl.outputs_eq]
  by_cases hresult : decl.returnsValue
  · rw [if_pos hresult] at hr ⊢
    simp only [bind_eq_ok] at hr
    obtain ⟨_, _, hout, hr⟩ := hr
    obtain ⟨e, t₁, he₁, rfl, hisOut⟩ := placeFormalOut_emits (h := h) hs' .done hout
    obtain ⟨es, outs, t, he, hisOuts, hslots, hgraph⟩ := leave_eq_ok hs' he₁ hr
    refine ⟨e :: es, (.result, e.node.id) :: outs, t, he, .cons hisOut hisOuts, ?_, ?_⟩
    · rw [List.map_cons, hslots]
      rfl
    · rw [hgraph, he.loopHeads_eq]
      rfl
  · rw [if_neg hresult] at hr ⊢
    obtain ⟨es, outs, t, he, hisOuts, hslots, hgraph⟩ := leave_eq_ok (h := h) hs' .done hr
    refine ⟨es, outs, t, he, hisOuts, hslots, ?_⟩
    rw [hgraph, he.loopHeads_eq]
    rfl

/-! ## Stages -/

/-- The state in which lowering a callable starts. -/
def start (decl : CallableDecl) (n : Nat) : Lowering :=
  { nextId := n + 2, graph := FlowGraph.ofDecl decl n, pending := [.plain ⟨n⟩ .unconditional] }

/-- The flow graph of a callable comes about in three stages: the nodes of the parameters,
    the body, and the nodes of the values that leave it. -/
structure Builds (h : Hierarchy) (decl : CallableDecl) (body : List Stmt) (n : Nat)
    (ins : List Emission) (t s : Lowering) (es : List Emission)
    (outs : List (OutputSlot × NodeId)) (u : Lowering) (g : FlowGraph) : Prop where
  opening : Emits h (start decl n) ins t
  inSteps : ins.map Emission.step = (List.range' 0 decl.params.length).map fun position =>
    ⟨⟨.formalIn position, none⟩, []⟩
  lowers : lowerBlock h body (t.withFormals (ins.map (·.node.id)) []) = .ok () s
  body : Lowered h (.block body) (t.withFormals (ins.map (·.node.id)) []) s
  closing : Emits h (s.withPending (s.pending ++ s.returns)) es u
  outNodes : List.Forall₂ Emission.IsFormalOut es outs
  slots : outs.map (·.1) = decl.outputs
  graph : g = flagged (headed (exiting (u.withFormals s.graph.formalIns outs).graph u.pending))
    s.loopHeads

/-- The graph that a callable starts with is as it should be. -/
theorem start_sound (decl : CallableDecl) (n : Nat) : (start decl n).Sound where
  below id hid := by
    rcases List.mem_cons.1 hid with rfl | hid
    · exact Nat.lt_add_of_pos_right (by decide)
    · rw [List.mem_singleton.1 hid]
      exact Nat.lt_succ_self _
  nodup := by simp [FlowGraph.ids, FlowGraph.nodes, start, FlowGraph.ofDecl]
  inRange _ harc := (List.not_mem_nil harc).elim
  collected _ hp := (List.not_mem_nil hp).elim
  loopHeads _ hh := (List.not_mem_nil hh).elim

theorem Sound.withFormals (hs : s.Sound) (ins : List NodeId)
    (outs : List (OutputSlot × NodeId)) : (s.withFormals ins outs).Sound :=
  ⟨hs.below, hs.nodup, hs.inRange, hs.collected, hs.loopHeads⟩

/-- The nodes of the parameters, as what the body starts from. -/
theorem opening_extends {n : Nat} {ins : List Emission} (he : Emits h (start decl n) ins t) :
    Extends (From (start decl n).pending) Nowhere (start decl n) t ∧
      ∀ p ∈ t.pending, p.source ∈ t.graph.ids := by
  have hmem : ∀ p ∈ (start decl n).pending, p.source ∈ (start decl n).graph.ids := by
    intro p hp
    rw [List.mem_singleton.1 hp]
    exact List.mem_cons_self
  obtain ⟨hext, hpend⟩ := he.extends (start_sound decl n) (by simp [start]) hmem
  exact ⟨hext, fun p hp => (hpend p hp).1⟩

/-- Behind the formal-ins the body can be lowered. -/
theorem opening_ready {n : Nat} {ins : List Emission} (he : Emits h (start decl n) ins t)
    (formals : List NodeId) (stmts : List Stmt) :
    Ready (.block stmts) (t.withFormals formals []) :=
  let ⟨hext, hpend⟩ := opening_extends he
  ⟨hext.sound.withFormals _ _, hpend, fun _ hf => hf.elim⟩

/-- A callable with a body that is built goes through all its stages. -/
theorem build_eq_ok {body : List Stmt} {n : Nat} {g : FlowGraph} (hbody : decl.body = some body)
    (hg : (FlowGraph.build h decl n).1 = .ok g) :
    ∃ ins t s es outs u, Builds h decl body n ins t s es outs u g := by
  have hrun : ∃ s', lowerCallable h decl body (start decl n) = .ok () s' ∧ s'.graph = g := by
    simp only [FlowGraph.build, hbody] at hg
    split at hg
    · rename_i s' hrun
      exact ⟨s', hrun, Except.ok.inj hg⟩
    · cases hg
  obtain ⟨s', hrun, rfl⟩ := hrun
  simp only [lowerCallable, bind_eq_ok] at hrun
  obtain ⟨_, s₁, hins, _, s, hblock, hfinish⟩ := hrun
  obtain ⟨ins, t, hopen, rfl, hsteps⟩ := placeFormalIns_eq_ok (h := h) (t := start decl n)
    [] [] (start_sound decl n).below .done hins
  have hready := opening_ready hopen (ins.map (·.node.id)) body
  have hlowered := lowered_block h body hblock hready
  have houts : s.graph.formalOuts = [] := hlowered.grown.ext.frame.formalOuts
  obtain ⟨es, outs, u, hclose, hisOut, hslots, hgraph⟩ :=
    finish_eq_ok (h := h) hlowered.grown.ext.sound.below houts hfinish
  exact ⟨ins, t, s, es, outs, u, hopen, hsteps, hblock, hlowered, hclose, hisOut, hslots, hgraph⟩

end Lowering

end Slicing
