import Slicing.Proofs.Flow.Placement
import Slicing.Proofs.Flow.ReachingDefinitions
import Slicing.Proofs.Flow.Stages

/-!
# Straight lines of assignments

The flow graph of a callable whose statements only read and write variables is a line: the
entry and the formal-ins, the statements in order, the formal-outs and the exit
(`FlowGraph.build_straight`). On a line, what a node writes to a variable is carried to
another node just if that stands behind it and no node in between writes the variable
(`FlowGraph.Line.carries_iff`), and nothing but the entry controls other nodes
(`FlowGraph.Straight.controller_eq`).
-/

namespace Slicing

/-- A statement that only reads and writes variables. -/
structure Assignment where
  source : Element
  defs : List String
  uses : List String

/-- An assignment as a statement. -/
def Assignment.toStmt (a : Assignment) : Stmt := .simple a.source ⟨a.defs, a.uses, [], []⟩

/-- A node stands for an assignment. -/
structure Assignment.At (a : Assignment) (node : Node) : Prop where
  element : node.element = some a.source.id
  defs : node.defs = a.defs
  uses : node.uses = a.uses

/-! ## Lowering -/

namespace Lowering

variable {h : Hierarchy} {s s' t : Lowering} {es : List Emission} {x : Unit}

/-- An assignment that is reached gets a node. -/
theorem lowerStmt_assignment {a : Assignment} (hp : s.pending ≠ [])
    (hr : lowerStmt h a.toStmt s = .ok x s') :
    ∃ node, a.At node ∧ node.id = ⟨s.nextId⟩ ∧ node.callable = s.graph.callable ∧
      s' = s.numbered.placed node := by
  rw [Assignment.toStmt, lowerStmt] at hr
  simp only [bind_eq_ok, get_eq_ok] at hr
  obtain ⟨_, _, ⟨rfl, rfl⟩, hr⟩ := hr
  rw [if_neg (by simpa using hp)] at hr
  simp only [bind_eq_ok, newStmtNode_eq_ok, placeWith, get_eq_ok, lowerCalls, place_eq_ok,
    raiseAll_eq_ok, pure_eq_ok] at hr
  obtain ⟨_, _, ⟨rfl, rfl⟩, _, _, ⟨_, _, ⟨rfl, rfl⟩, _, _, ⟨-, rfl⟩, _, _, ⟨rfl, rfl⟩, _, _, ⟨rfl, rfl⟩,
    _, _, rfl, -, rfl⟩, -, rfl⟩ := hr
  exact ⟨_, ⟨rfl, rfl, by simp [stmtNode, freshNode, resultVars]⟩, rfl, rfl, rfl⟩

/-- The nodes of assignments stand in line. -/
theorem lowerBlock_assignments {body : List Assignment} (hs : s.Below) (he : Emits h s es t)
    (hp : t.pending ≠ []) (hr : lowerBlock h (body.map Assignment.toStmt) t = .ok x s') :
    ∃ es', Emits h s (es ++ es') s' ∧ List.Forall₂ (fun a e => a.At e.node ∧ e.throws = []) body es' := by
  induction body generalizing t es with
  | nil =>
    rw [List.map_nil, lowerBlock, pure_eq_ok] at hr
    obtain ⟨-, rfl⟩ := hr
    exact ⟨[], by simpa using he, .nil⟩
  | cons a body ih =>
    rw [List.map_cons, lowerBlock, bind_eq_ok] at hr
    obtain ⟨_, _, hstmt, hr⟩ := hr
    obtain ⟨node, hat, hid, hcallable, rfl⟩ := lowerStmt_assignment hp hstmt
    have hnode := he.fresh hs (e := ⟨node, []⟩) hid hcallable
    obtain ⟨es', he', hall⟩ := ih hnode (by simp) hr
    exact ⟨⟨node, []⟩ :: es', by simpa using he', .cons ⟨hat, rfl⟩ hall⟩

/-- What raises nothing sends nothing out of the callable. -/
theorem Emits.returns_eq (he : Emits h s es t) (hquiet : ∀ e ∈ es, e.throws = []) :
    t.returns = s.returns := by
  induction he with
  | done => rfl
  | number _ ih => exact ih hquiet
  | record _ _ ih => exact ih hquiet
  | node _ _ _ _ _ ih =>
    have hlast := hquiet _ (List.mem_append_right _ (List.mem_singleton_self _))
    have hbefore := ih fun e he => hquiet e (List.mem_append_left _ he)
    simpa [hlast, raises, sentAll] using hbefore

/-- The arcs along a line fall into those along its parts. -/
theorem lineArcs_append (ps : List Pending) (ids ids' : List NodeId) :
    lineArcs ps (ids ++ ids') = lineArcs ps ids ++ lineArcs (lineEnd ps ids) ids' := by
  induction ids generalizing ps with
  | nil => rfl
  | cons id ids ih => rw [List.cons_append, lineArcs, ih, lineArcs, List.append_assoc, lineEnd]

/-- The arcs of a line join neighbours. -/
theorem exists_mem_lineArcs_iff {a : NodeId} {kind : FlowKind} {ids : List NodeId} {x y : NodeId} :
    (∃ edge, (x, y, edge) ∈ lineArcs [.plain a kind] ids) ↔
      ∃ i : Nat, (a :: ids)[i]? = some x ∧ (a :: ids)[i + 1]? = some y := by
  induction ids generalizing a kind with
  | nil => simp [lineArcs]
  | cons b ids ih =>
    rw [lineArcs]
    constructor
    · rintro ⟨edge, hmem⟩
      rcases List.mem_append.1 hmem with hmem | hmem
      · obtain ⟨p, hp, heq⟩ := List.mem_map.1 hmem
        cases List.mem_singleton.1 hp
        cases heq
        exact ⟨0, rfl, rfl⟩
      · obtain ⟨i, hx, hy⟩ := ih.1 ⟨edge, hmem⟩
        exact ⟨i + 1, hx, hy⟩
    · rintro ⟨i, hx, hy⟩
      cases i with
      | zero =>
        cases hx
        cases hy
        exact ⟨_, List.mem_append_left _ (List.mem_singleton_self _)⟩
      | succ i =>
        obtain ⟨edge, hmem⟩ := ih.2 ⟨i, hx, hy⟩
        exact ⟨edge, List.mem_append_right _ hmem⟩

theorem lineEnd_ne_nil {ps : List Pending} (hp : ps ≠ []) (ids : List NodeId) :
    lineEnd ps ids ≠ [] := by
  induction ids generalizing ps with
  | nil => exact hp
  | cons id ids ih => exact ih (by simp)

namespace Builds

variable {decl : CallableDecl} {body : List Stmt} {n : Nat} {ins es es' : List Emission}
  {outs : List (OutputSlot × NodeId)} {u : Lowering} {g : FlowGraph}

/-- The nodes of parameters stand for no source and raise nothing. -/
theorem of_mem_ins (hb : Builds h decl body n ins t s es outs u g) {e : Emission} (he : e ∈ ins) :
    e.node.element = none ∧ e.throws = [] := by
  have hstep := List.mem_map_of_mem (f := Emission.step) he
  rw [hb.inSteps, List.mem_map] at hstep
  obtain ⟨position, -, hstep⟩ := hstep
  exact ⟨(congrArg (·.point.element) hstep).symm, (congrArg (·.throws) hstep).symm⟩

/-- The nodes of the values that leave a callable stand for no source. -/
theorem element_of_mem_outs (hb : Builds h decl body n ins t s es outs u g) {e : Emission}
    (he : e ∈ es) : e.node.element = none := by
  obtain ⟨out, -, hout⟩ := forall₂_mem_right hb.outNodes.flip he
  exact congrArg (·.point.element) hout.2

/-- A body that is a line makes the whole graph a line. -/
theorem nodes_line (hb : Builds h decl body n ins t s es outs u g)
    (he : Emits h (t.withFormals (ins.map (·.node.id)) []) es' s) :
    g.nodes = (start decl n).graph.nodes ++ (ins ++ es' ++ es).map (·.node) := by
  have ht : (t.withFormals (ins.map (·.node.id)) []).graph.nodes = t.graph.nodes := rfl
  rw [hb.whole.nodes, he.nodes_eq, ht, hb.opening.nodes_eq]
  simp

/-- The graph of a callable whose body is a line of nodes has the edges of one line. -/
theorem edges_line (hb : Builds h decl body n ins t s es outs u g)
    (he : Emits h (t.withFormals (ins.map (·.node.id)) []) es' s)
    (hquiet : ∀ e ∈ es', e.throws = []) :
    g.edges = lineArcs [.plain g.entry.id .unconditional]
      ((ins ++ es' ++ es).map (·.node.id) ++ [g.exit.id]) := by
  have hstart : ∀ p ∈ (start decl n).pending, p.source ∈ (start decl n).graph.ids := by
    intro p hp
    rw [List.mem_singleton.1 hp]
    exact List.mem_cons_self
  have hready := hb.body.ready
  obtain ⟨-, -, hopening⟩ := hb.opening.edges_eq (start_sound decl n).inRange hstart
  obtain ⟨-, -, hbody⟩ := he.edges_eq hready.sound.inRange hready.inputs
  have hreturns : s.returns = [] :=
    (he.returns_eq hquiet).trans (hb.opening.returns_eq fun e he => (hb.of_mem_ins he).2)
  have hends := FlowGraph.ends_eq hb.whole.part.nodes
  have hentry : g.entry.id = ⟨n⟩ := hends.1 ▸ hb.end_ids.1
  have ht : (t.withFormals (ins.map (·.node.id)) []).graph.edges = t.graph.edges := rfl
  have htp : (t.withFormals (ins.map (·.node.id)) []).pending = t.pending := rfl
  rw [hb.whole.edges, hbody, ht, htp, hopening, hreturns, List.append_nil, he.lineEnd_eq, htp,
    hb.opening.lineEnd_eq, hentry, hends.2]
  have hedges : (start decl n).graph.edges = [] := rfl
  have hpending : (start decl n).pending = [.plain ⟨n⟩ .unconditional] := rfl
  simp [hedges, hpending, lineArcs_append]

end Builds

end Lowering

/-! ## Lines -/

namespace FlowGraph

variable {g : FlowGraph} {row : List Node} {i j : Nat} {a b : Node} {var : String}

/-- The nodes of a graph stand in line. -/
structure Line (g : FlowGraph) (row : List Node) : Prop where
  nodes : ∀ node, node ∈ g.nodes ↔ node ∈ row
  nodup : (row.map (·.id)).Nodup
  hasEdge : ∀ x y, g.HasEdge x y ↔
    ∃ i : Nat, (row.map (·.id))[i]? = some x ∧ (row.map (·.id))[i + 1]? = some y

namespace Line

/-- A number stands once in a line. -/
theorem index_eq (hg : g.Line row) (hi : row[i]? = some a)
    (hj : (row.map (·.id))[j]? = some a.id) : j = i := by
  have hi' : (row.map (·.id))[i]? = some a.id := by rw [List.getElem?_map, hi]; rfl
  obtain ⟨hlt, hid⟩ := List.getElem?_eq_some_iff.1 hi'
  obtain ⟨hlt', hid'⟩ := List.getElem?_eq_some_iff.1 hj
  exact (List.Nodup.getElem_inj_iff hg.nodup).1 (hid'.trans hid.symm)

/-- In a line there are edges to the next node only. -/
theorem hasEdge_iff (hg : g.Line row) (hi : row[i]? = some a) (hj : row[j]? = some b) :
    g.HasEdge a.id b.id ↔ j = i + 1 := by
  rw [hg.hasEdge]
  constructor
  · rintro ⟨k, ha, hb⟩
    rw [← hg.index_eq hi ha, hg.index_eq hj hb]
  · rintro rfl
    exact ⟨i, by rw [List.getElem?_map, hi]; rfl, by rw [List.getElem?_map, hj]; rfl⟩

/-- On a line, a value is carried forward up to the next write of its variable. -/
theorem carries_iff (hg : g.Line row) (hi : row[i]? = some a) (hj : row[j]? = some b) :
    g.Carries var a.id b.id ↔
      i < j ∧ ∀ k, i < k → k < j → ∀ node, row[k]? = some node → var ∉ node.defs := by
  constructor
  · intro hc
    generalize hy : b.id = y at hc
    induction hc generalizing j b with
    | edge hstep =>
      rw [← hy, hg.hasEdge_iff hi hj] at hstep
      exact ⟨by omega, fun k hik hkj => by omega⟩
    | pass _ hclear hstep ih =>
      obtain ⟨m, hm, -⟩ := (hg.hasEdge _ _).1 hstep
      obtain ⟨c, hc, rfl⟩ : ∃ c, row[m]? = some c ∧ c.id = _ := by
        simpa [List.getElem?_map] using hm
      rw [← hy, hg.hasEdge_iff hc hj] at hstep
      obtain ⟨hlt, hbetween⟩ := ih hc rfl
      refine ⟨by omega, fun k hik hkj node hnode => ?_⟩
      rcases Nat.lt_or_ge k m with hk | hk
      · exact hbetween k hik hk node hnode
      · obtain rfl : k = m := by omega
        cases hc.symm.trans hnode
        exact hclear _ ((hg.nodes _).2 (List.mem_of_getElem? hc)) rfl
  · rintro ⟨hlt, hclear⟩
    -- induction on the number of nodes in between
    obtain ⟨d, rfl⟩ := Nat.exists_eq_add_of_lt hlt
    induction d generalizing b with
    | zero => exact .edge ((hg.hasEdge_iff hi hj).2 rfl)
    | succ d ih =>
      have hlen : i + d + 1 < row.length := by
        have := (List.getElem?_eq_some_iff.1 hj).1
        omega
      obtain ⟨c, hc⟩ : ∃ c, row[i + d + 1]? = some c := ⟨_, List.getElem?_eq_getElem hlen⟩
      have hbefore := ih hc (by omega) fun k hik hkj => hclear k hik (by omega)
      refine hbefore.pass (fun node hnode hid => ?_) ((hg.hasEdge_iff hc hj).2 rfl)
      obtain ⟨m, hm⟩ := List.getElem?_of_mem ((hg.nodes node).1 hnode)
      have hmc : m = i + d + 1 := by
        refine hg.index_eq hc ?_
        rw [List.getElem?_map, hm]
        exact congrArg some hid
      exact hclear m (by omega) (by omega) node hm

/-- A node of the graph with a number of the line is the one there. -/
theorem eq_of_id (hg : g.Line row) (hi : row[i]? = some a) {node : Node} (hnode : node ∈ g.nodes)
    (hid : node.id = a.id) : node = a := by
  obtain ⟨j, hj⟩ := List.getElem?_of_mem ((hg.nodes node).1 hnode)
  have hji : j = i := by
    refine hg.index_eq hi ?_
    rw [List.getElem?_map, hj]
    exact congrArg some hid
  rw [hji, hi] at hj
  exact (Option.some.inj hj).symm

/-- On a line, a read depends on the last write of its variable in front of it. -/
theorem mem_dependences_iff (hg : g.Line row) (hr : g.InRange) (hn : g.ids.Nodup)
    (hi : row[i]? = some a) (hj : row[j]? = some b) :
    ⟨a.id, b.id, var⟩ ∈ g.reachingDefinitions.dependences g ↔ var ∈ a.defs ∧ var ∈ b.uses ∧
      i < j ∧ ∀ k, i < k → k < j → ∀ node, row[k]? = some node → var ∉ node.defs := by
  rw [FlowGraph.mem_dependences_iff hr hn, ← hg.carries_iff hi hj]
  constructor
  · rintro ⟨source, hsource, target, htarget, hsid, htid, hdef, huse, hcarries⟩
    rw [hg.eq_of_id hi hsource hsid] at hdef
    rw [hg.eq_of_id hj htarget htid] at huse
    exact ⟨hdef, huse, hcarries⟩
  · rintro ⟨hdef, huse, hcarries⟩
    exact ⟨a, (hg.nodes a).2 (List.mem_of_getElem? hi), b, (hg.nodes b).2 (List.mem_of_getElem? hj),
      rfl, rfl, hdef, huse, hcarries⟩

end Line

/-! ## Callables -/

/-- A graph is a line with a node for each of some assignments, in their order. -/
structure Straight (g : FlowGraph) (body : List Assignment) (before stmts after : List Node) :
    Prop where
  line : g.Line ((g.entry :: before) ++ stmts ++ after)
  assigns : List.Forall₂ Assignment.At body stmts
  unnamed : ∀ node ∈ (g.entry :: before) ++ after, node.element = none
  nonTerminating : g.nonTerminating = []

/-- A body that is a line makes the nodes stand in line. -/
theorem line_of_builds {h : Hierarchy} {decl : CallableDecl} {body : List Stmt} {n : Nat}
    {ins es es' : List Emission} {outs : List (OutputSlot × NodeId)} {t s u : Lowering}
    (hb : Lowering.Builds h decl body n ins t s es outs u g)
    (he : Lowering.Emits h (t.withFormals (ins.map (·.node.id)) []) es' s)
    (hquiet : ∀ e ∈ es', e.throws = []) :
    g.Line ((g.entry :: ins.map (·.node)) ++ es'.map (·.node) ++ (es.map (·.node) ++ [g.exit])) := by
  -- in the graph the exit stands behind the entry, in the line at the end
  have hends := ends_eq ⟨_, (hb.nodes_line he).symm⟩
  have hnodes : g.nodes = g.entry :: g.exit :: (ins ++ es' ++ es).map (·.node) := by
    rw [hb.nodes_line he, hends.1, hends.2]
    rfl
  have hline : (g.entry :: ins.map (·.node)) ++ es'.map (·.node) ++ (es.map (·.node) ++ [g.exit]) =
      g.entry :: ((ins ++ es' ++ es).map (·.node) ++ [g.exit]) := by simp
  rw [hline]
  constructor
  · intro node
    rw [hnodes]
    simp only [List.mem_cons, List.mem_append]
    tauto
  · have hperm : (g.entry :: ((ins ++ es' ++ es).map (·.node) ++ [g.exit])).Perm g.nodes := by
      rw [hnodes]
      exact (List.perm_append_singleton _ _).cons _
    exact (hperm.map _).nodup_iff.2 hb.whole.nodup
  · intro x y
    have hids : (g.entry :: ((ins ++ es' ++ es).map (·.node) ++ [g.exit])).map (·.id) =
        g.entry.id :: ((ins ++ es' ++ es).map (·.node.id) ++ [g.exit.id]) := by
      simp [Function.comp_def]
    rw [HasEdge, hb.edges_line he hquiet, Lowering.exists_mem_lineArcs_iff, hids]

/-- The flow graph of assignments is a line. -/
theorem build_straight {h : Hierarchy} {decl : CallableDecl} {body : List Assignment} {n : Nat}
    (hbody : decl.body = some (body.map Assignment.toStmt)) (hg : (build h decl n).1 = .ok g) :
    ∃ before stmts after, g.Straight body before stmts after := by
  obtain ⟨ins, t, s, es, outs, u, hb⟩ := Lowering.build_eq_ok hbody hg
  have hready := hb.body.ready
  have hpend : t.pending = Lowering.lineEnd [.plain ⟨n⟩ .unconditional] (ins.map (·.node.id)) :=
    hb.opening.lineEnd_eq
  have hne : t.pending ≠ [] := hpend ▸ Lowering.lineEnd_ne_nil (by simp) _
  obtain ⟨es', he', hall⟩ :=
    Lowering.lowerBlock_assignments hready.sound.below .done hne hb.lowers
  rw [List.nil_append] at he'
  have hquiet : ∀ e ∈ es', e.throws = [] := fun e he =>
    let ⟨_, _, hat⟩ := forall₂_mem_right hall he
    hat.2
  have hends := ends_eq ⟨_, (hb.nodes_line he').symm⟩
  refine ⟨ins.map (·.node), es'.map (·.node), es.map (·.node) ++ [g.exit],
    line_of_builds hb he' hquiet, ?_, ?_, ?_⟩
  · rw [List.forall₂_map_right_iff]
    exact hall.imp fun _ _ hat => hat.1
  · intro node hnode
    simp only [List.cons_append, List.mem_cons, List.mem_append, List.mem_map, List.not_mem_nil,
      or_false] at hnode
    rcases hnode with rfl | ⟨e, he, rfl⟩ | ⟨e, he, rfl⟩ | rfl
    · rw [hends.1]
      rfl
    · exact (hb.of_mem_ins he).1
    · exact hb.element_of_mem_outs he
    · rw [hends.2]
      rfl
  · have hheads : s.loopHeads = [] := he'.loopHeads_eq.trans hb.opening.loopHeads_eq
    exact List.subset_nil.1 (hheads ▸ hb.whole.heads)

namespace Straight

variable {body : List Assignment} {before stmts after : List Node} {m : Nat} {node : Node}

/-- Each assignment has its node on the line. -/
theorem exists_at (hs : g.Straight body before stmts after) {a : Assignment}
    (ha : body[i]? = some a) :
    ∃ node, ((g.entry :: before) ++ stmts ++ after)[before.length + 1 + i]? = some node ∧
      a.At node := by
  obtain ⟨node, hnode, hat⟩ := forall₂_getElem? hs.assigns ha
  refine ⟨node, ?_, hat⟩
  have hlt := (List.getElem?_eq_some_iff.1 hnode).1
  rw [List.append_assoc, List.getElem?_append_right (by simp), List.getElem?_append_left (by simp; omega)]
  simpa using hnode

/-- A node stands in front of the assignments, for one of them, or behind them. -/
theorem cases_of_getElem? (hs : g.Straight body before stmts after)
    (hm : ((g.entry :: before) ++ stmts ++ after)[m]? = some node) :
    m < before.length + 1 ∧ node.element = none ∨
      (∃ i a, m = before.length + 1 + i ∧ body[i]? = some a ∧ a.At node) ∨
      before.length + 1 + body.length ≤ m ∧ node.element = none := by
  have hlen := hs.assigns.length_eq
  rcases Nat.lt_or_ge m (before.length + 1) with hlt | hge
  · refine .inl ⟨hlt, hs.unnamed node (List.mem_append_left _ (List.mem_of_getElem? (i := m) ?_))⟩
    rwa [List.append_assoc, List.getElem?_append_left (by simpa using hlt)] at hm
  · rcases Nat.lt_or_ge m (before.length + 1 + body.length) with hlt | hge'
    · obtain ⟨i, rfl⟩ := Nat.exists_eq_add_of_le hge
      obtain ⟨node', hnode', hat⟩ := hs.exists_at (List.getElem?_eq_getElem (by omega : i < body.length))
      cases hm.symm.trans hnode'
      exact .inr (.inl ⟨i, _, rfl, List.getElem?_eq_getElem _, hat⟩)
    · refine .inr (.inr ⟨hge', hs.unnamed node (List.mem_append_right _
        (List.mem_of_getElem? (i := m - (before.length + 1 + stmts.length)) ?_))⟩)
      rw [List.getElem?_append_right (by simp; omega)] at hm
      rw [← hm]
      congr 1
      simp
      omega

end Straight

/-- On a line, only the entry has several ways to go on. -/
theorem Straight.controller_eq {body : List Assignment} {before stmts after : List Node}
    (hs : g.Straight body before stmts after) (hg : g.Formed) {ds : List ControlDependence}
    (hds : g.controlDependences = .ok ds) {d : ControlDependence} (hd : d ∈ ds) :
    d.controller = g.entry.id := by
  obtain ⟨v, w, ⟨x, hx, hw, hstrict⟩, rfl⟩ := (hg.mem_controlDependences_iff hds).1 hd
  have hv := (hg.proper.controlSteps_inRange.steps _ hx).1
  have hne : v ≠ exitPosition := fun heq => hg.exit_step (heq ▸ hx)
  obtain ⟨y, hy, z, hz, hyz⟩ := exists_ne_of_two_le_length_eraseDups
    (FlowSteps.length_targets (hg.controlSteps_exits hv) hne hx hw hstrict)
  by_contra hentry
  -- the other steps are arcs, and there is only one from each node
  have harc {y : Nat} (hy : y ∈ (g.controlSteps.steps.filter (·.1 == v)).map (·.2)) :
      y < g.size ∧ g.HasEdge (g.idAt v) (g.idAt y) := by
    have hstep : (v, y) ∈ g.controlSteps.steps := by simpa using hy
    rcases List.mem_append.1 hstep with hstep | hstep
    · have hlt := (hg.proper.steps_inRange hstep).2
      rcases mem_steps_iff.1 hstep with harc | ⟨⟨id, hid, -⟩, -⟩
      · exact ⟨hlt, (hasEdge_idAt_iff hg.inRange hg.nodup hv hlt).2 harc⟩
      · rw [hs.nonTerminating] at hid
        cases hid
    · exact absurd (congrArg (g.idAt ·.1) (List.mem_singleton.1 hstep)) hentry
  obtain ⟨hlt, hedge⟩ := harc hy
  obtain ⟨hlt', hedge'⟩ := harc hz
  obtain ⟨i, hi, hi'⟩ := (hs.line.hasEdge _ _).1 hedge
  obtain ⟨j, hj, hj'⟩ := (hs.line.hasEdge _ _).1 hedge'
  have hij : i = j := (List.getElem?_inj (List.getElem?_eq_some_iff.1 hi).1 hs.line.nodup).1 (hi.trans hj.symm)
  rw [hij, hj'] at hi'
  exact hyz (idAt_injective hg.nodup hlt hlt' (Option.some.inj hi').symm)

end FlowGraph

end Slicing
