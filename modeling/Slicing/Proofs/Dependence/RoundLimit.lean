import Slicing.Proofs.Dependence.Gains

/-!
# The limit on the rounds

The limit on the rounds only guards the computation of summary edges; no answer depends on it.

Each round but the last one adds an edge (`SystemGraph.runRounds_rounds_le`), and there are no more
edges to be added than pairs of what goes into a call and what comes out of it
(`SystemGraph.capacity`). So a limit that is larger than the number of these pairs is never met
(`SystemGraph.Grounded.le_capacity_of_error`). A computation that comes to an end within some limit
does the same with every limit that allows as many rounds as it took
(`SystemGraph.runRounds_eq_of_le`), and with a smaller one it is refused. That number of rounds is
therefore the one limit that matters (`SystemGraph.computeSummaries_limit`).
-/

namespace Slicing.SystemGraph

open ProcedureGraph

variable {g g' : SystemGraph} {callables : List CallableId} {limit limit' fuel fuel' : Nat}
  {tally t : SummaryTally}

/-! ## The number of rounds -/

/-- Of the rounds up to the end, each but the last one adds an edge. -/
theorem runRounds_rounds_le (ht : (runRounds limit g callables tally fuel).outcome = .ok t) :
    tally.rounds < t.rounds ∧ t.rounds ≤ tally.rounds + fuel ∧
      t.rounds + tally.edgesAdded ≤ tally.rounds + t.edgesAdded + 1 := by
  induction fuel generalizing g callables tally with
  | zero => cases ht
  | succ fuel ih =>
    rw [runRounds] at ht
    split at ht
    · cases ht
      dsimp only
      omega
    · have := ih ht
      dsimp only at this
      omega

/-- Rounds that come to an end are the same if others are allowed, as long as these are enough. -/
theorem runRounds_eq_of_le (ht : (runRounds limit g callables tally fuel).outcome = .ok t)
    (hle : t.rounds ≤ tally.rounds + fuel') :
    runRounds limit' g callables tally fuel' = runRounds limit g callables tally fuel := by
  induction fuel generalizing g callables tally fuel' with
  | zero => cases ht
  | succ fuel ih =>
    obtain ⟨hlt, -⟩ := runRounds_rounds_le ht
    -- at least one round was run
    obtain ⟨fuel', rfl⟩ : ∃ n, fuel' = n + 1 := ⟨fuel' - 1, by omega⟩
    rw [runRounds] at ht ⊢
    rw [runRounds]
    split
    · rfl
    · rename_i hadded
      rw [if_neg hadded] at ht
      refine ih ht ?_
      dsimp only
      omega

/-- Fewer rounds than it takes to come to an end are too few. -/
theorem runRounds_outcome_of_lt (ht : (runRounds limit g callables tally fuel).outcome = .ok t)
    (hlt : tally.rounds + fuel' < t.rounds) :
    (runRounds limit' g callables tally fuel').outcome = .error (.nontermination limit') := by
  obtain ⟨t', ht'⟩ | herror := runRounds_ok_or_nontermination limit' g callables tally fuel'
  · -- then both runs would end alike, after more rounds than one of them was allowed
    obtain ⟨-, hle, -⟩ := runRounds_rounds_le ht
    obtain ⟨-, hle', -⟩ := runRounds_rounds_le ht'
    have heq : runRounds limit g callables tally fuel = runRounds limit' g callables tally fuel' :=
      runRounds_eq_of_le ht' (by omega)
    rw [heq, ht'] at ht
    cases ht
    omega
  · exact herror

/-! ## The number of edges -/

/-- The pairs of what goes into a call and what comes out of it. -/
def spanning (g : SystemGraph) : List DependenceEdge :=
  (g.invocations.flatMap allThrough).map (·.edge)

/-- The number of pairs of what goes into a call and what comes out of it, over all calls. -/
def capacity (g : SystemGraph) : Nat :=
  (g.invocations.map fun i => i.actualIns.length * i.actualOuts.length).sum

theorem length_spanning (g : SystemGraph) : g.spanning.length = g.capacity := by
  have hlength (i : Invocation) :
      (allThrough i).length = i.actualIns.length * i.actualOuts.length := by
    simp [allThrough, List.length_flatMap]
  simp only [spanning, capacity, List.length_map, List.length_flatMap, hlength]

/-- A proposal at a call is among the edges that span it. -/
theorem mem_spanning_of_spans {i : Invocation} (hi : i ∈ g.invocations) {q : Proposal}
    (hspans : Spans i q) : q.edge ∈ g.spanning := by
  obtain ⟨slot, htarget⟩ := hspans.target
  refine List.mem_map_of_mem (List.mem_flatMap.2 ⟨i, hi, mem_allThrough_iff.2 ?_⟩)
  obtain ⟨caller, source, target, dependence⟩ := q
  obtain rfl : caller = i.caller := hspans.caller
  obtain rfl : dependence = .summary i.site := hspans.dependence
  exact ⟨source, hspans.source, slot, target, htarget, rfl⟩

/-- What rounds add are pairs of calls. -/
theorem Grounded.mem_spanning (h : Grounded g) {e : DependenceEdge}
    (he : e ∈ (runRounds limit g callables tally fuel).graph.edges) (hnew : e ∉ g.edges) :
    e ∈ g.spanning := by
  have hround (g' : SystemGraph) (callables' : List CallableId) :
      (Grounded g' ∧ g'.invocations = g.invocations ∧ ∀ e ∈ g'.edges, e ∈ g.edges ∨ e ∈ g.spanning) →
        Grounded (g'.summaryRound callables').graph ∧
          (g'.summaryRound callables').graph.invocations = g.invocations ∧
          ∀ e ∈ (g'.summaryRound callables').graph.edges, e ∈ g.edges ∨ e ∈ g.spanning := by
    rintro ⟨hground, hcalls, hspan⟩
    refine ⟨hground.summaryRound callables',
      (enriches_summaryRound g' callables').invocations.trans hcalls, ?_⟩
    intro e he
    obtain he | ⟨⟨q, hq, rfl⟩, -⟩ := mem_edges_addAll.1 he
    · exact hspan e he
    · obtain ⟨c, -, hq⟩ := List.mem_flatMap.1 hq
      obtain ⟨i, hi, hspans⟩ := exists_spans_of_mem_proposals hground.joined hq
      exact .inr (mem_spanning_of_spans (hcalls ▸ hi) hspans)
  obtain ⟨-, ⟨-, -, hspan⟩, -⟩ := runRounds_induction
    (P := fun g' _ => Grounded g' ∧ g'.invocations = g.invocations ∧
      ∀ e ∈ g'.edges, e ∈ g.edges ∨ e ∈ g.spanning)
    hround limit tally fuel ⟨h, rfl, fun _ he => .inl he⟩
  exact (hspan e he).resolve_left hnew

/-- No more edges are added than there are pairs. -/
theorem Grounded.length_le_capacity (h : Grounded g) {new : List DependenceEdge}
    (hgains : Gains g (runRounds limit g callables tally fuel).graph new) :
    new.length ≤ g.capacity := by
  rw [← length_spanning]
  refine (List.subperm_of_subset hgains.nodup fun e he => ?_).length_le
  refine h.mem_spanning (hgains.edges ▸ List.mem_append_right _ he) (hgains.fresh e he)

/-- Rounds that are too few add an edge each. -/
theorem Grounded.le_length_of_error (h : Grounded g) {error : Error}
    (herror : (runRounds limit g callables tally fuel).outcome = .error error) :
    g.edges.length + fuel ≤ (runRounds limit g callables tally fuel).graph.edges.length := by
  induction fuel generalizing g callables tally with
  | zero => exact Nat.le_refl _
  | succ fuel ih =>
    obtain ⟨new, hgains, hadded⟩ := exists_gains_summaryRound h callables
    rw [runRounds] at herror ⊢
    split at herror
    · cases herror
    · rename_i hsome
      rw [if_neg hsome]
      have hlength : (g.summaryRound callables).graph.edges.length = g.edges.length + new.length := by
        rw [hgains.edges, List.length_append]
      have := ih (h.summaryRound callables) herror
      omega

/-- Rounds that are too few are no more than there are pairs. -/
theorem Grounded.le_capacity_of_error (h : Grounded g) {error : Error}
    (herror : (runRounds limit g callables tally fuel).outcome = .error error) :
    fuel ≤ g.capacity := by
  obtain ⟨new, hgains, -⟩ := exists_gains_runRounds h limit tally fuel
  have hlength := h.le_length_of_error herror
  rw [hgains.edges, List.length_append] at hlength
  have := h.length_le_capacity hgains
  omega

/-! ## Building -/

section Building

variable {config : SummaryConfig} {h : Hierarchy} {calls : CallGraph} {graphs : List ProcedureGraph}

/-- What is built is grounded, if the nodes of calls are nodes of the graphs. -/
theorem build_grounded
    (hins : ∀ p ∈ graphs, ∀ s ∈ p.callSites, ∀ n ∈ s.actualIns, n ∈ p.nodeIds)
    (houts : ∀ p ∈ graphs, ∀ s ∈ p.callSites, ∀ o ∈ s.actualOuts, o.2 ∈ p.nodeIds)
    (hg : build config h calls graphs = .ok g) (hdisabled : config.enabled = false) : Grounded g := by
  simp only [build, bind_eq_ok_iff, mapError_eq_ok_iff, hdisabled] at hg
  obtain ⟨g₀, hg₀, hg⟩ := hg
  obtain ⟨links, -, hedges⟩ := assemble_edges hg₀
  have hassembles := (assemble_eq_ok hg₀).1
  have hnode {p : ProcedureGraph} (hp : p ∈ graphs) {n : NodeId} (hn : n ∈ p.nodeIds) :
      n ∈ g₀.nodeIds := by
    obtain ⟨node, hnode, rfl⟩ := List.mem_map.1 hn
    rw [nodeIds, hassembles.nodes]
    exact List.mem_map_of_mem (List.mem_flatMap.2 ⟨p, hp, hnode⟩)
  have hground : Grounded g₀ := by
    refine ⟨fun e he => ?_, fun i hi a ha => ?_, fun i hi o ho => ?_⟩
    · rw [hedges] at he
      exact (List.mem_filter.1 he).2
    · obtain ⟨p, hp, s, hs, rfl⟩ := hassembles.exists_site hi
      exact hnode hp (hins p hp s hs a ha)
    · obtain ⟨p, hp, s, hs, rfl⟩ := hassembles.exists_site hi
      exact hnode hp (houts p hp s hs o ho)
  cases hg
  have hadded := hground.addAll ((g₀.invocations.filter (·.isOpaque)).flatMap allThrough)
  exact ⟨hadded.joined, hadded.actualIns, hadded.actualOuts⟩

/-- A graph is built with the summary edges of opaque calls only, and the other ones are computed.
    They come to an end after a number of rounds that is at most by one larger than the number of
    edges found, which is at most the number of pairs of what goes into a call and what comes out.
    With a limit below this number of rounds the computation is refused, and with every other limit
    it gives the same graph and the same tally. -/
theorem computeSummaries_limit
    (hins : ∀ p ∈ graphs, ∀ s ∈ p.callSites, ∀ n ∈ s.actualIns, n ∈ p.nodeIds)
    (houts : ∀ p ∈ graphs, ∀ s ∈ p.callSites, ∀ o ∈ s.actualOuts, o.2 ∈ p.nodeIds)
    (hg : build config h calls graphs = .ok g) (hdisabled : config.enabled = false) :
    ∃ g' t, t.rounds ≤ t.edgesAdded + 1 ∧ t.edgesAdded ≤ g.capacity ∧
      g'.edges.length = g.edges.length + t.edgesAdded ∧
      (∀ maxRounds < t.rounds,
        (g.computeSummaries maxRounds).outcome = .error (.nontermination maxRounds)) ∧
      ∀ maxRounds ≥ t.rounds, g.computeSummaries maxRounds = ⟨g', .ok t⟩ := by
  have hground := build_grounded hins houts hg hdisabled
  -- a limit that is larger than the number of pairs is not met
  obtain ⟨t, ht⟩ : ∃ t, (g.computeSummaries (g.capacity + 1)).outcome = .ok t := by
    obtain ⟨t, ht⟩ | herror := runRounds_ok_or_nontermination (g.capacity + 1) g g.definedCallables {}
      (g.capacity + 1)
    · exact ⟨t, ht⟩
    · exact absurd (hground.le_capacity_of_error herror) (Nat.not_succ_le_self _)
  obtain ⟨-, -, hrounds⟩ := runRounds_rounds_le ht
  obtain ⟨new, hgains, hadded⟩ : ∃ new, Gains g (g.computeSummaries (g.capacity + 1)).graph new ∧
      ∀ t, (g.computeSummaries (g.capacity + 1)).outcome = .ok t →
        t.edgesAdded = 0 + new.length :=
    exists_gains_runRounds hground (g.capacity + 1) {} (g.capacity + 1)
  have hnew : t.edgesAdded = new.length := (hadded t ht).trans (Nat.zero_add _)
  refine ⟨(g.computeSummaries (g.capacity + 1)).graph, t, ?_, ?_, ?_, fun maxRounds hlt => ?_,
    fun maxRounds hle => ?_⟩
  · simpa using hrounds
  · exact hnew ▸ hground.length_le_capacity hgains
  · rw [hnew, ← List.length_append, ← hgains.edges]
  · exact runRounds_outcome_of_lt ht (by simpa using hlt)
  · have heq : g.computeSummaries maxRounds = g.computeSummaries (g.capacity + 1) :=
      runRounds_eq_of_le ht (by simpa using hle)
    rw [heq, ← ht]

end Building

/-- Two callables call each other. The two summary edges are found one in each round, so that three
    rounds are needed, and no more than the pairs of actual nodes allow. -/
theorem recursion_limit : ∃ g g',
    build ⟨false, 9⟩ (declarations [⟨0⟩, ⟨1⟩, ⟨2⟩, ⟨3⟩]) (callsFrom [(0, 1), (1, 0), (1, 2)]) relays =
        .ok g ∧
      g.capacity = 2 ∧
      (∀ maxRounds < 3, (g.computeSummaries maxRounds).outcome = .error (.nontermination maxRounds)) ∧
      ∀ maxRounds ≥ 3, g.computeSummaries maxRounds = ⟨g', .ok ⟨3, 2, 0⟩⟩ := by
  obtain ⟨g, hg, hcapacity, hended⟩ : ∃ g, build ⟨false, 9⟩ (declarations [⟨0⟩, ⟨1⟩, ⟨2⟩, ⟨3⟩])
      (callsFrom [(0, 1), (1, 0), (1, 2)]) relays = .ok g ∧ g.capacity = 2 ∧
        (g.computeSummaries 9).outcome = .ok ⟨3, 2, 0⟩ :=
    exists_ok_of_any (by cbv)
  obtain ⟨g', t, hrounds, hadded, -, hfewer, henough⟩ := computeSummaries_limit
    (fun p hp => (relays_separate.wellFormed p hp).actualIn_mem)
    (fun p hp => (relays_separate.wellFormed p hp).actualOut_mem) hg rfl
  obtain rfl : t = ⟨3, 2, 0⟩ := by
    rw [henough 9 (by omega)] at hended
    exact Except.ok.inj hended
  exact ⟨g, g', hg, hcapacity, hfewer, henough⟩

end Slicing.SystemGraph
