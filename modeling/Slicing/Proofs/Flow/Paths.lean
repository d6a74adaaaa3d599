import Slicing.Proofs.Flow.Coverage
import Slicing.Proofs.Flow.Placement

/-!
# Executions are paths

An execution of a callable goes from the entry through the nodes of the parameters, along
its body, and once it leaves the body through the nodes of the values that leave it to the
exit. What the body does is covered by its part of the graph (`Lowering.covers_of_runs`), and
the nodes around it stand in line, so the execution is a path (`FlowGraph.exists_path`).
-/

namespace Slicing

namespace Lowering

variable {h : Hierarchy} {decl : CallableDecl} {s t u : Lowering} {g : FlowGraph} {x : NodeId}
  {ps : List Pending} {τ : List Point} {o : Ending}

/-- Control goes along a line of nodes. -/
theorem line_walks {nodes : List Node} (hsub : lineArcs ps (nodes.map (·.id)) ⊆ g.edges)
    (hnodes : nodes ⊆ g.nodes) (hx : From ps x) :
    ∃ y, g.Walks x (nodes.map Node.point) y ∧ From (lineEnd ps (nodes.map (·.id))) y := by
  induction nodes generalizing ps x with
  | nil => exact ⟨x, .done x, hx⟩
  | cons node nodes ih =>
    obtain ⟨hfirst, hrest⟩ := List.append_subset.1 hsub
    obtain ⟨hnode, hnodes⟩ := List.cons_subset.1 hnodes
    obtain ⟨y, hw, hy⟩ := ih hrest hnodes ⟨_, List.mem_singleton_self _, rfl⟩
    obtain ⟨p, hp, rfl⟩ := hx
    have hedge : g.HasEdge p.source node.id := ⟨p.edge, hfirst (List.mem_map.2 ⟨p, hp, rfl⟩)⟩
    exact ⟨y, .step hedge ⟨node, hnode, rfl, rfl⟩ hw, hy⟩

namespace Builds

variable {body : List Stmt} {n : Nat} {ins es : List Emission}
  {outs : List (OutputSlot × NodeId)}

/-- The graph in front of the body is a part of that of the callable. -/
theorem opening_part (hb : Builds h decl body n ins t s es outs u g) : t.graph.PartOf g :=
  FlowGraph.PartOf.trans ⟨hb.body.graph.nodes, hb.body.graph.edges⟩ hb.whole.part

/-- A callable keeps the entry and the exit that it starts with. -/
theorem ends_eq (hb : Builds h decl body n ins t s es outs u g) :
    g.entry = (FlowGraph.ofDecl decl n).entry ∧ g.exit = (FlowGraph.ofDecl decl n).exit := by
  refine FlowGraph.ends_eq (List.IsPrefix.trans ?_ hb.opening_part.nodes)
  rw [hb.opening.nodes_eq]
  exact List.prefix_append _ _

/-- Control comes from the entry to the body. -/
theorem opening_walks (hb : Builds h decl body n ins t s es outs u g) :
    ∃ y, g.Walks g.entry.id
      ((List.range decl.params.length).map fun position => ⟨.formalIn position, none⟩) y ∧
      From t.pending y := by
  obtain ⟨-, -, hedges⟩ := hb.opening.edges_eq (start_sound decl n).inRange
    (opening_extends (h := h) .done).2
  have hids : (ins.map (·.node)).map (·.id) = ins.map (·.node.id) := List.map_map
  have hsub : lineArcs (start decl n).pending ((ins.map (·.node)).map (·.id)) ⊆ g.edges := by
    rw [hids]
    refine List.Subset.trans ?_ hb.opening_part.edges
    rw [hedges]
    exact List.subset_append_right _ _
  have hnodes : ins.map (·.node) ⊆ g.nodes := by
    refine List.Subset.trans ?_ hb.opening_part.nodes.subset
    rw [hb.opening.nodes_eq]
    exact List.subset_append_right _ _
  have hpoints : (ins.map (·.node)).map Node.point =
      (List.range decl.params.length).map fun position => ⟨.formalIn position, none⟩ := by
    have hsteps := congrArg (List.map PointStep.point) hb.inSteps
    rw [List.map_map, List.map_map, ← List.range_eq_range'] at hsteps
    rw [List.map_map]
    exact hsteps
  obtain ⟨y, hw, hy⟩ := line_walks hsub hnodes ⟨_, List.mem_singleton_self _, rfl⟩
  rw [hpoints] at hw
  rw [hids, ← hb.opening.lineEnd_eq] at hy
  rw [hb.ends_eq.1]
  exact ⟨y, hw, hy⟩

/-- Control goes along the body. -/
theorem body_goes (hb : Builds h decl body n ins t s es outs u g)
    (hapart : blockEndsApart false body) (hrun : Runs h (.block body) τ o) (hx : From t.pending x) :
    Goes g (From s.pending) (fun _ => From s.returns) x τ o := by
  have hscopes : s.scopes = [] := by
    have hstart : (start decl n).scopes = [] := rfl
    have hopen := (opening_extends hb.opening).1.scopes
    rw [hstart, List.forall₂_nil_left_iff] at hopen
    have hbody : List.Forall₂ _ t.scopes s.scopes := hb.body.grown.ext.scopes
    rwa [hopen, List.forall₂_nil_left_iff] at hbody
  have hgoes := (covers_of_runs hrun hb.body (from_ne_nil hx) hb.whole.part hapart).goes
    hb.body hb.whole.part hx
  refine hgoes.imp (fun _ _ hy => hy) fun escape y hy => ?_
  rwa [Escapes, hscopes] at hy

/-- Control comes from the end of the body to the exit. -/
theorem closing_walks (hb : Builds h decl body n ins t s es outs u g)
    (hx : From (s.pending ++ s.returns) x) : g.Walks x decl.closing g.exit.id := by
  have hexit : g.exit = s.graph.exit := (FlowGraph.ends_eq hb.whole.part.nodes).2
  -- the line ends at the exit, which was placed first
  have hids : (es.map (·.node) ++ [g.exit]).map (·.id) =
      es.map (·.node.id) ++ [s.graph.exit.id] := by
    rw [List.map_append, List.map_map, hexit]
    rfl
  have hsub : lineArcs (s.pending ++ s.returns) ((es.map (·.node) ++ [g.exit]).map (·.id)) ⊆
      g.edges := by
    rw [hids, hb.whole.edges]
    exact List.subset_append_right _ _
  have hnodes : es.map (·.node) ++ [g.exit] ⊆ g.nodes := by
    refine List.append_subset.2 ⟨?_, ?_⟩
    · rw [hb.whole.nodes]
      exact List.subset_append_right _ _
    · rintro _ hmem
      rw [List.mem_singleton.1 hmem]
      exact List.mem_cons_of_mem _ List.mem_cons_self
  have hpoints : (es.map (·.node) ++ [g.exit]).map Node.point = decl.closing := by
    rw [List.map_append, List.map_map, CallableDecl.closing, ← hb.slots, List.map_map, hb.ends_eq.2]
    congr 1
    have houts := hb.outNodes
    clear * - houts
    induction houts with
    | nil => rfl
    | cons hout _ ih =>
      rw [List.map_cons, List.map_cons, ih]
      exact congrArg (· :: _) (congrArg PointStep.point hout.2)
  obtain ⟨y, hw, hy⟩ := line_walks hsub hnodes hx
  rw [hids, lineEnd_concat] at hy
  obtain ⟨p, hp, rfl⟩ := hy
  rw [hpoints, List.mem_singleton.1 hp] at hw
  rw [hexit]
  exact hw

/-- What leaves the body comes to the exit. -/
theorem leaves_walks (hb : Builds h decl body n ins t s es outs u g) (ho : o.Leaves)
    (hgoes : Goes g (From s.pending) (fun _ => From s.returns) x τ o) :
    g.Walks x (τ ++ decl.closing) g.exit.id := by
  obtain ⟨y, hw, hn, hr⟩ := hgoes
  refine hw.trans (hb.closing_walks ?_)
  have hend : From s.pending y ∨ From s.returns y := by
    cases ho with
    | normal => exact .inl (hn rfl)
    | returned => exact .inr (hr _ rfl)
    | raised exceptionType => exact .inr (hr _ rfl)
  rcases hend with ⟨p, hp, hsource⟩ | ⟨p, hp, hsource⟩
  · exact ⟨p, List.mem_append_left _ hp, hsource⟩
  · exact ⟨p, List.mem_append_right _ hp, hsource⟩

end Builds

end Lowering

namespace FlowGraph

/-- The flow graph of a callable covers its executions: whatever points one of them passes,
    there is a path from the entry whose nodes stand for these points, in order, and one
    that has come to an end leads to the exit.

    It is asked of the callable that jumps which leave a `try` with nodes in its `finally`
    block do so outside any `try` whose own `finally` block has none. -/
theorem build_covers {h : Hierarchy} {decl : CallableDecl} {n : Nat} {g : FlowGraph}
    {τ : List Point} {done : Bool} (hg : (build h decl n).1 = .ok g) (hapart : decl.endsApart)
    (hrun : decl.Executes h τ done) :
    ∃ path : List Node, path.map Node.point = τ ∧ path ⊆ g.nodes ∧ path.head? = some g.entry ∧
      path.IsChain (fun a b => g.HasEdge a.id b.id) ∧
      (done → path.getLast? = some g.exit) := by
  obtain ⟨body, hbody⟩ : ∃ body, decl.body = some body := by
    cases hrun with
    | running hbody _ => exact ⟨_, hbody⟩
    | complete hbody _ _ => exact ⟨_, hbody⟩
  rw [CallableDecl.endsApart, hbody] at hapart
  obtain ⟨ins, t, s, es, outs, u, hb⟩ := Lowering.build_eq_ok hbody hg
  obtain ⟨x, hopen, hx⟩ := hb.opening_walks
  -- the walk behind the entry
  obtain ⟨τ', y, rfl, hw, hend⟩ : ∃ τ' y, τ = ⟨.entry, none⟩ :: τ' ∧ g.Walks g.entry.id τ' y ∧
      (done → y = g.exit.id) := by
    cases hrun with
    | running hbody' hrun =>
      obtain rfl := Option.some.inj (hbody.symm.trans hbody')
      obtain ⟨y, hw, -⟩ := hb.body_goes hapart hrun hx
      exact ⟨_, y, rfl, hopen.trans hw, by simp⟩
    | complete hbody' hrun ho =>
      obtain rfl := Option.some.inj (hbody.symm.trans hbody')
      have hw := hb.leaves_walks ho (hb.body_goes hapart hrun hx)
      exact ⟨_, _, by simp [CallableDecl.opening], hopen.trans hw, fun _ => rfl⟩
  obtain ⟨path, hpoints, hsub, hchain, last, hlast, hid⟩ := hw.exists_path rfl
  have hsub : g.entry :: path ⊆ g.nodes := List.cons_subset.2 ⟨List.mem_cons_self, hsub⟩
  refine ⟨g.entry :: path, ?_, hsub, rfl, hchain, fun hdone => ?_⟩
  · rw [List.map_cons, hpoints, hb.ends_eq.1]
    rfl
  · have hmem : last ∈ g.nodes := hsub (List.mem_of_getLast? hlast)
    have hexit : g.exit ∈ g.nodes := List.mem_cons_of_mem _ List.mem_cons_self
    have hsame : last = g.exit :=
      List.inj_on_of_nodup_map hb.whole.nodup hmem hexit (hid.trans (hend hdone))
    rw [hlast, hsame]

/-- The loop is entered and broken off, and the `finally` block runs on the way out. -/
theorem breakingLoop_covered : ∃ (g : FlowGraph) (path : List Node),
    (build ⟨[], []⟩ breakingLoop 0).1 = .ok g ∧ path.map Node.point = [⟨.entry, none⟩, ⟨.predicate, some ⟨0⟩⟩, ⟨.breakJump, some ⟨2⟩⟩,
      ⟨.statement, some ⟨3⟩⟩, ⟨.exit, none⟩] ∧
    path.head? = some g.entry ∧ path.IsChain (fun a b => g.HasEdge a.id b.id) ∧
    path.getLast? = some g.exit := by
  obtain ⟨g, hg⟩ := Lowering.build_ok ⟨[], []⟩ breakingLoop 0 (by decide)
  have hjump : Runs ⟨[], []⟩ (.stmt (.breakJump ⟨⟨2⟩, "break", none⟩))
      [⟨.breakJump, some ⟨2⟩⟩] (.abrupt .breakJump) :=
    .jump (j := ⟨⟨⟨2⟩, "break", none⟩, .breakJump, .breakJump, [], .none⟩) rfl
      (Lowering.evaluates_point _ _)
  have hfinally : Runs ⟨[], []⟩ (.block [.simple ⟨⟨3⟩, "x", none⟩ .none])
      [⟨.statement, some ⟨3⟩⟩] .normal :=
    .blockNext (.simple (Lowering.evaluates_point _ _)) .blockEnd
  have htry : Runs ⟨[], []⟩ (.stmt (.tryBlock ⟨⟨1⟩, "try", none⟩ [_] [] _))
      [⟨.breakJump, some ⟨2⟩⟩, ⟨.statement, some ⟨3⟩⟩] (.abrupt .breakJump) :=
    .tryFinally (.guarded (.blockStops hjump nofun) (by simp [Ending.Raises])) nofun hfinally
  have hloop : Runs ⟨[], []⟩ (.stmt (.forLoop ⟨⟨0⟩, "for", none⟩ [] none [] [_])) _ .normal :=
    .loop rfl .blockEnd (.roundBreaks (Lowering.evaluates_point _ _) (.blockStops htry nofun))
  have hbody := Runs.blockNext hloop .blockEnd
  have hrun : breakingLoop.Executes ⟨[], []⟩ _ true := .complete rfl hbody .normal
  obtain ⟨path, hpoints, -, hhead, hchain, hlast⟩ := build_covers hg (by decide) hrun
  exact ⟨g, path, hg, hpoints, hhead, hchain, hlast rfl⟩

/-- A `return` leaves a `try` through its `finally` block, within a `try` with an empty one. -/
def lostEnd : CallableDecl where
  id := ⟨0⟩
  name := "f"
  kind := .method
  owner := ⟨0⟩
  signature := ⟨"f", []⟩
  isStatic := true
  params := []
  returnsValue := false
  body := some [
    .tryBlock ⟨⟨0⟩, "try", none⟩ [
      .tryBlock ⟨⟨1⟩, "try", none⟩
        [.branch ⟨⟨2⟩, "if", none⟩ .none [.returnJump ⟨⟨3⟩, "return", none⟩ none] []] []
        (some [.simple ⟨⟨4⟩, "y", none⟩ .none])] [] (some []),
    .simple ⟨⟨5⟩, "z", none⟩ .none]
  span := none

/-- Where ends and ways out do not stay apart, executions are lost: the last statement runs,
    and the flow graph has no node for it. -/
theorem lostEnd_uncovered : ∃ g, (build ⟨[], []⟩ lostEnd 0).1 = .ok g ∧
    lostEnd.Executes ⟨[], []⟩ [⟨.entry, none⟩, ⟨.predicate, some ⟨2⟩⟩, ⟨.statement, some ⟨4⟩⟩,
      ⟨.statement, some ⟨5⟩⟩, ⟨.exit, none⟩] true ∧
    ∀ node ∈ g.nodes, node.point ≠ ⟨.statement, some ⟨5⟩⟩ := by
  -- the graph is checked by evaluation, the run is put together from the rules
  have hlost : (match (build ⟨[], []⟩ lostEnd 0).1 with
      | .ok g => decide (∀ node ∈ g.nodes, node.point ≠ ⟨.statement, some ⟨5⟩⟩)
      | .error _ => false) = true := by decide +kernel
  obtain ⟨g, hg⟩ := Lowering.build_ok ⟨[], []⟩ lostEnd 0 (by decide)
  rw [hg] at hlost
  have htest : Runs ⟨[], []⟩ (.stmt (.branch ⟨⟨2⟩, "if", none⟩ .none
      [.returnJump ⟨⟨3⟩, "return", none⟩ none] []))
      [⟨.predicate, some ⟨2⟩⟩] .normal := .branchElse (Lowering.evaluates_point _ _) .blockEnd
  have hsimple (source : Element) : Runs ⟨[], []⟩ (.block [.simple source .none])
      [⟨.statement, some source.id⟩] .normal :=
    .blockNext (.simple (Lowering.evaluates_point _ _)) .blockEnd
  have hinner : Runs ⟨[], []⟩ (.stmt (.tryBlock ⟨⟨1⟩, "try", none⟩ _ [] _))
      [⟨.predicate, some ⟨2⟩⟩, ⟨.statement, some ⟨4⟩⟩] .normal :=
    .tryFinally (.guarded (.blockNext htest .blockEnd) (by simp [Ending.Raises])) nofun
      (hsimple ⟨⟨4⟩, "y", none⟩)
  have houter : Runs ⟨[], []⟩ (.stmt (.tryBlock ⟨⟨0⟩, "try", none⟩ _ [] (some [])))
      [⟨.predicate, some ⟨2⟩⟩, ⟨.statement, some ⟨4⟩⟩] .normal :=
    .tryFinally (.guarded (.blockNext hinner .blockEnd) (by simp [Ending.Raises])) nofun .blockEnd
  have hbody := Runs.blockNext houter (hsimple ⟨⟨5⟩, "z", none⟩)
  have hrun : lostEnd.Executes ⟨[], []⟩ _ true := .complete rfl hbody .normal
  exact ⟨g, hg, hrun, of_decide_eq_true hlost⟩

end FlowGraph

end Slicing
