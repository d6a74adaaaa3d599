import Slicing.Proofs.Dependence.Summaries

/-!
# What rounds add, edge by edge

`Slicing.Proofs.Dependence.Rounds` says which edges there are after some rounds. Here it is said
where they stand and how often (`SystemGraph.Gains`): the edges that were there stay in front, and
each new one stands behind them once. An edge is counted when it is added, so that the tally of a
computation is the number of new edges (`SystemGraph.exists_gains_runRounds`).

Only an edge between two nodes is added, but any that was not there is counted. That the two
agree rests on the proposals being edges between nodes of calls
(`SystemGraph.Grounded.joins_of_spans`).
-/

namespace Slicing.SystemGraph

open ProcedureGraph

/-- A graph has the edges of another one and behind them new summary edges, each of them once. -/
structure Gains (g g' : SystemGraph) (new : List DependenceEdge) : Prop where
  edges : g'.edges = g.edges ++ new
  nodup : new.Nodup
  fresh : ∀ e ∈ new, e ∉ g.edges
  summary : ∀ e ∈ new, e.dependence.kind = .summary

variable {g g' g'' : SystemGraph} {new new' : List DependenceEdge}

theorem Gains.refl (g : SystemGraph) : Gains g g [] := ⟨by simp, .nil, nofun, nofun⟩

/-- What is gained first and what is gained then. -/
theorem Gains.trans (h : Gains g g' new) (h' : Gains g' g'' new') : Gains g g'' (new ++ new') := by
  have hfresh {e : DependenceEdge} (he : e ∈ new') : e ∉ g.edges ∧ e ∉ new := by
    simpa [h.edges] using h'.fresh e he
  refine ⟨by rw [h'.edges, h.edges, List.append_assoc], ?_, ?_, ?_⟩
  · refine List.nodup_append.2 ⟨h.nodup, h'.nodup, fun e he e' he' heq => ?_⟩
    exact (hfresh he').2 (heq ▸ he)
  · intro e he
    obtain he | he := List.mem_append.1 he
    · exact h.fresh e he
    · exact (hfresh he).1
  · intro e he
    exact (List.mem_append.1 he).elim (h.summary e) (h'.summary e)

/-! ## From a graph without summary edges -/

/-- If there were no summary edges, those there are have been gained. -/
theorem Gains.filter_summary (h : Gains g g' new) (hnone : ∀ e ∈ g.edges, e.dependence.kind ≠ .summary) :
    g'.edges.filter (·.dependence.kind == .summary) = new := by
  have hold : g.edges.filter (·.dependence.kind == .summary) = [] := by
    simpa [List.filter_eq_nil_iff] using hnone
  have hnew : new.filter (·.dependence.kind == .summary) = new := by
    simpa [List.filter_eq_self] using h.summary
  rw [h.edges, List.filter_append, hold, hnew, List.nil_append]

/-- Nothing but summary edges is gained. -/
theorem Gains.filter_others (h : Gains g g' new) (hnone : ∀ e ∈ g.edges, e.dependence.kind ≠ .summary) :
    g'.edges.filter (·.dependence.kind != .summary) = g.edges := by
  have hold : g.edges.filter (·.dependence.kind != .summary) = g.edges := by
    simpa [List.filter_eq_self] using hnone
  have hnew : new.filter (·.dependence.kind != .summary) = [] := by
    simpa [List.filter_eq_nil_iff] using h.summary
  rw [h.edges, List.filter_append, hold, hnew, List.append_nil]

/-- No summary edge is listed twice if no edge is. -/
theorem nodup_summaryEdges (h : (g.edges.filter (·.dependence.kind == .summary)).Nodup) :
    g.summaryEdges.Nodup := by
  rw [List.Nodup, List.pairwise_filter] at h
  rw [summaryEdges, List.Nodup, List.pairwise_filterMap]
  refine h.imp fun {e e'} hne b hb b' hb' heq => ?_
  obtain ⟨source, target, d⟩ := e
  obtain ⟨source', target', d'⟩ := e'
  cases d <;> cases hb
  cases d' <;> cases hb'
  cases heq
  exact hne rfl rfl rfl

/-! ## Adding edges -/

theorem gains_addEdge {e : DependenceEdge} (hjoins : joins g.nodes e = true) (hnew : e ∉ g.edges)
    (hkind : e.dependence.kind = .summary) : Gains g (g.addEdge e) [e] := by
  refine ⟨by simp [addEdge, hjoins], List.nodup_singleton e, fun e' he' => ?_, fun e' he' => ?_⟩
  · rwa [List.mem_singleton.1 he']
  · rwa [List.mem_singleton.1 he']

/-- Summary edges between nodes are added as often as they are counted. -/
theorem exists_gains_foldl_add (γ : Growth) {qs : List Proposal}
    (hjoins : ∀ q ∈ qs, joins γ.graph.nodes q.edge = true)
    (hkind : ∀ q ∈ qs, q.edge.dependence.kind = .summary) :
    ∃ new, Gains γ.graph (qs.foldl Growth.add γ).graph new ∧
      (qs.foldl Growth.add γ).added = γ.added + new.length := by
  induction qs generalizing γ with
  | nil => exact ⟨[], .refl _, rfl⟩
  | cons q qs ih =>
    -- no node is added, so that the others join nodes as before
    have hrest : ∀ q' ∈ qs, joins (γ.add q).graph.nodes q'.edge = true := by
      intro q' hq'
      rw [(enriches_add γ q).nodes]
      exact hjoins q' (List.mem_cons_of_mem _ hq')
    obtain ⟨new, hgains, hadded⟩ := ih (γ.add q) hrest fun q' hq' => hkind q' (List.mem_cons_of_mem _ hq')
    rw [List.foldl_cons]
    by_cases hq : q.edge ∈ γ.graph.edges
    · rw [add_of_mem hq] at hgains hadded ⊢
      exact ⟨new, hgains, hadded⟩
    · have hfirst : Gains γ.graph (γ.add q).graph [q.edge] := by
        rw [add_of_not_mem hq]
        exact gains_addEdge (hjoins q List.mem_cons_self) hq (hkind q List.mem_cons_self)
      have hcount : (γ.add q).added = γ.added + 1 := by rw [add_of_not_mem hq]
      refine ⟨q.edge :: new, hfirst.trans hgains, ?_⟩
      rw [hadded, hcount, List.length_cons, Nat.add_assoc, Nat.add_comm 1]

/-- The edges of a graph join nodes of it, and the nodes of calls are nodes of it. -/
structure Grounded (g : SystemGraph) : Prop where
  joined : ∀ e ∈ g.edges, joins g.nodes e = true
  actualIns : ∀ i ∈ g.invocations, ∀ a ∈ i.actualIns, a ∈ g.nodeIds
  actualOuts : ∀ i ∈ g.invocations, ∀ o ∈ i.actualOuts, o.2 ∈ g.nodeIds

/-- Where edges are between the nodes of the callables, each new edge joins nodes. -/
theorem Local.grounded {graphs : List ProcedureGraph} (h : Local graphs g)
    (hnodes : ∀ c n, Owns graphs c n → n ∈ g.nodeIds) : Grounded g :=
  ⟨h.joined, fun i hi a ha => hnodes _ _ (h.actualIns i hi a ha),
    fun i hi o ho => hnodes _ _ (h.actualOuts i hi o ho)⟩

theorem Grounded.addAll (h : Grounded g) (qs : List Proposal) : Grounded (g.addAll qs).graph := by
  have henr := enriches_addAll g qs
  refine ⟨fun e he => ?_, ?_, ?_⟩
  · rw [henr.nodes]
    exact (mem_edges_addAll.1 he).elim (h.joined e) And.right
  · rw [henr.invocations, nodeIds, henr.nodes]
    exact h.actualIns
  · rw [henr.invocations, nodeIds, henr.nodes]
    exact h.actualOuts

/-- The nodes of a call are nodes, so that what is proposed for it is added. -/
theorem Grounded.joins_of_spans (h : Grounded g) {i : Invocation} (hi : i ∈ g.invocations)
    {q : Proposal} (hspans : Spans i q) : joins g.nodes q.edge = true := by
  obtain ⟨slot, htarget⟩ := hspans.target
  exact joins_iff.2 ⟨h.actualIns i hi _ hspans.source, h.actualOuts i hi _ htarget⟩

/-- Adding proposals gains as many edges as are counted. -/
theorem exists_gains_addAll (h : Grounded g) {qs : List Proposal}
    (hqs : ∀ q ∈ qs, ∃ i ∈ g.invocations, Spans i q) :
    ∃ new, Gains g (g.addAll qs).graph new ∧ (g.addAll qs).added = new.length := by
  have hjoins (q : Proposal) (hq : q ∈ qs) : joins g.nodes q.edge = true := by
    obtain ⟨i, hi, hspans⟩ := hqs q hq
    exact h.joins_of_spans hi hspans
  have hkind (q : Proposal) (hq : q ∈ qs) : q.edge.dependence.kind = .summary := by
    obtain ⟨i, -, hspans⟩ := hqs q hq
    rw [hspans.dependence, Dependence.kind]
  obtain ⟨new, hgains, hadded⟩ := exists_gains_foldl_add { graph := g } hjoins hkind
  exact ⟨new, hgains, hadded.trans (Nat.zero_add _)⟩

/-- Edges that are there are not added. -/
theorem addAll_of_mem {qs : List Proposal} (hqs : ∀ q ∈ qs, q.edge ∈ g.edges) :
    g.addAll qs = { graph := g } := by
  induction qs with
  | nil => rfl
  | cons q qs ih =>
    have hq : q.edge ∈ ({ graph := g } : Growth).graph.edges := hqs q List.mem_cons_self
    rw [addAll, List.foldl_cons, add_of_mem hq]
    exact ih fun q' hq' => hqs q' (List.mem_cons_of_mem _ hq')

/-! ## Rounds -/

section Rounds

variable {callables : List CallableId}

/-- A round gains as many edges as are counted. -/
theorem exists_gains_summaryRound (h : Grounded g) (callables : List CallableId) :
    ∃ new, Gains g (g.summaryRound callables).graph new ∧
      (g.summaryRound callables).added = new.length := by
  refine exists_gains_addAll h fun q hq => ?_
  obtain ⟨c, -, hq⟩ := List.mem_flatMap.1 hq
  exact exists_spans_of_mem_proposals h.joined hq

theorem Grounded.summaryRound (h : Grounded g) (callables : List CallableId) :
    Grounded (g.summaryRound callables).graph :=
  h.addAll _

/-- The tally of rounds that come to an end has the number of edges that they added. -/
theorem exists_gains_runRounds (h : Grounded g) (limit : Nat) (tally : SummaryTally) (fuel : Nat) :
    ∃ new, Gains g (runRounds limit g callables tally fuel).graph new ∧
      ∀ t, (runRounds limit g callables tally fuel).outcome = .ok t →
        t.edgesAdded = tally.edgesAdded + new.length := by
  induction fuel generalizing g callables tally with
  | zero => exact ⟨[], .refl g, nofun⟩
  | succ fuel ih =>
    obtain ⟨new, hgains, hadded⟩ := exists_gains_summaryRound h callables
    rw [runRounds]
    split
    · -- no callable is left, and the tally is final
      refine ⟨new, hgains, fun t ht => ?_⟩
      cases ht
      exact congrArg (tally.edgesAdded + ·) hadded
    · obtain ⟨new', hgains', htally⟩ := ih (h.summaryRound callables) _
      refine ⟨new ++ new', hgains.trans hgains', fun t ht => ?_⟩
      rw [htally t ht, List.length_append, hadded, Nat.add_assoc]

/-- Rounds come to an end or there are too few. -/
theorem runRounds_ok_or_nontermination (limit : Nat) (g : SystemGraph) (callables : List CallableId)
    (tally : SummaryTally) (fuel : Nat) :
    (∃ tally', (runRounds limit g callables tally fuel).outcome = .ok tally') ∨
      (runRounds limit g callables tally fuel).outcome = .error (.nontermination limit) := by
  induction fuel generalizing g callables tally with
  | zero => exact .inr rfl
  | succ fuel ih =>
    rw [runRounds]
    split
    · exact .inl ⟨_, rfl⟩
    · exact ih _ _ _

/-- If all that some callables propose is there, their round is the last one. -/
theorem computeSummaries_of_mem (hmem : ∀ c ∈ g.definedCallables, ∀ q ∈ g.proposals c, q.edge ∈ g.edges)
    (maxRounds : Nat) : g.computeSummaries (maxRounds + 1) = ⟨g, .ok { rounds := 1 }⟩ := by
  have hround : g.summaryRound g.definedCallables = { graph := g } := by
    refine addAll_of_mem fun q hq => ?_
    obtain ⟨c, hc, hq⟩ := List.mem_flatMap.1 hq
    exact hmem c hc q hq
  simp [computeSummaries, runRounds, hround]

end Rounds

/-! ## Building -/

/-- What is built are the edges that were assembled, and behind them summary edges as many as the
    tally has. -/
theorem build_gains {config : SummaryConfig} {h : Hierarchy} {calls : CallGraph}
    {graphs : List ProcedureGraph} (hsep : Separate graphs) (hg : build config h calls graphs = .ok g) :
    ∃ g₀ new, assemble h calls graphs = .ok g₀ ∧ Gains g₀ g new ∧
      g.tally.opaqueEdges + g.tally.edgesAdded = new.length := by
  simp only [build, bind_eq_ok_iff, mapError_eq_ok_iff] at hg
  obtain ⟨g₀, hg₀, hg⟩ := hg
  have hground := (isLocal_of_assemble hsep hg₀).grounded fun c n howns =>
    (assemble_eq_ok hg₀).1.mem_nodeIds_iff.2 ⟨c, howns⟩
  obtain ⟨new, hgains, hadded⟩ := exists_gains_addAll hground fun q hq => exists_spans_of_mem_opaque hq
  split at hg
  · obtain ⟨t, ht, hg⟩ := bind_eq_ok_iff.1 hg
    cases hg
    obtain ⟨new', hgains', htally⟩ := exists_gains_runRounds (hground.addAll _) _ {} _
    refine ⟨g₀, new ++ new', hg₀, { hgains.trans hgains' with }, ?_⟩
    rw [List.length_append, ← hadded, ← Nat.zero_add new'.length]
    exact congrArg (_ + ·) (htally t ht)
  · cases hg
    exact ⟨g₀, new, hg₀, { hgains with }, hadded⟩

end Slicing.SystemGraph
