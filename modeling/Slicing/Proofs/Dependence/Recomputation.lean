import Slicing.Proofs.Dependence.Gains

/-!
# Summary edges that are computed again

The summary edges of a graph may be dropped and computed again, as often as one likes and with
any limit on the rounds. A computation that runs out of rounds leaves the edges it has found, and
the next one starts from these.

In all the graphs that come of this (`SystemGraph.Reworked`) what is not computed is as it was
built, and what is computed is part of what was built (`SystemGraph.Retains`). A drop takes all
that is computed. A computation goes on adding, and it cannot add an edge that was not built: what
passes through a procedure with fewer edges passes also with all of them, and there the building
left nothing to be added. When it comes to an end its edges are closed under what passes through
calls, so that all those are back which any closed set has (`SystemGraph.Reworked.converges`).
-/

namespace Slicing.SystemGraph

open ProcedureGraph Relation

/-- The graphs that a graph becomes when its summary edges are dropped and computed again, in any
    order, also in too few rounds. -/
inductive Reworked (g : SystemGraph) : SystemGraph → Prop where
  | built : Reworked g g
  | drop {g' : SystemGraph} : Reworked g g' → Reworked g g'.dropSummaries.2
  | compute {g' : SystemGraph} (maxRounds : Nat) :
      Reworked g g' → Reworked g (g'.computeSummaries maxRounds).graph

variable {g g' : SystemGraph}

/-! ## Dropping -/

/-- Dropping members of a list changes no more than the order of the others. -/
theorem dropFilling_perm {α : Type} (drop : α → Bool) (items : List α) :
    (dropFilling drop items).Perm (items.filter (!drop ·)) := by
  induction items with
  | nil => exact .refl _
  | cons a rest ih =>
    rw [dropFilling, List.filter_cons]
    cases drop a with
    | false => exact ih.cons a
    | true =>
      -- the last of the others, if there is one, moves to the front
      refine List.Perm.trans ?_ ih
      obtain hnil | ⟨front, last, hlast⟩ := (dropFilling drop rest).eq_nil_or_concat
      · rw [hnil]
        exact .refl _
      · rw [hlast, List.concat_eq_append]
        simpa using (List.perm_append_singleton last front).symm

/-- An edge has been computed if it is a summary edge at a site that is not opaque. -/
theorem isComputed_eq_true_iff {e : DependenceEdge} : g.isComputed e = true ↔
    ∃ site, e.dependence = .summary site ∧ g.isOpaqueAt site = false := by
  unfold isComputed
  cases e.dependence <;> simp

theorem isComputed_congr (h : g'.invocations = g.invocations) : g'.isComputed = g.isComputed := by
  funext e
  simp only [isComputed, isOpaqueAt, invocation?, h]

/-- Dropping the summaries drops the computed edges and no other. -/
theorem edges_dropSummaries_perm (g : SystemGraph) :
    g.dropSummaries.2.edges.Perm (g.edges.filter (!g.isComputed ·)) :=
  dropFilling_perm g.isComputed g.edges

/-- As many edges are reported as dropped as there were summary edges of calls that are not
    opaque. -/
theorem dropSummaries_fst (g : SystemGraph) :
    g.dropSummaries.1 = g.summaryEdges.countP fun e => !g.isOpaqueAt e.2.2 := by
  have hcomputed : (g.summaryEdges.countP fun e => !g.isOpaqueAt e.2.2) = g.edges.countP g.isComputed := by
    rw [summaryEdges, List.countP_filterMap]
    refine List.countP_congr fun e _ => ?_
    unfold isComputed
    cases e.dependence <;> simp
  have hlength : g.clearSummaries.edges.length = g.edges.countP fun e => !g.isComputed e := by
    rw [List.countP_eq_length_filter]
    exact (edges_dropSummaries_perm g).length_eq
  have htotal : g.edges.length = g.edges.countP g.isComputed + g.edges.countP fun e => !g.isComputed e := by
    simpa using List.length_eq_countP_add_countP (l := g.edges) g.isComputed
  rw [hcomputed, dropSummaries, hlength, htotal, Nat.add_sub_cancel]

/-- The summary edges of opaque sites stay when summaries are dropped. -/
theorem mem_summaryEdges_dropSummaries_iff {a o : NodeId} {site : CallSiteId} :
    (a, o, site) ∈ g.dropSummaries.2.summaryEdges ↔
      (a, o, site) ∈ g.summaryEdges ∧ g.isOpaqueAt site = true := by
  change (a, o, site) ∈ g.dropSummaries.2.summaries ↔ (a, o, site) ∈ g.summaries ∧ _
  rw [mem_summaries_iff, mem_summaries_iff, (edges_dropSummaries_perm g).mem_iff, List.mem_filter]
  simp [isComputed]

/-! ## What is retained -/

/-- A graph has what another one has, up to the order of its edges and some of the summary edges
    that are computed. It has no summary edge twice. -/
structure Retains (g g' : SystemGraph) : Prop where
  enriches : Enriches g' g
  kept : (g'.edges.filter (!g.isComputed ·)).Perm (g.edges.filter (!g.isComputed ·))
  nodup : (g'.edges.filter (·.dependence.kind == .summary)).Nodup

theorem Retains.mem_of_not_computed (h : Retains g g') {e : DependenceEdge} (he : e ∈ g.edges)
    (hcomputed : g.isComputed e = false) : e ∈ g'.edges := by
  have hmem : e ∈ g.edges.filter (!g.isComputed ·) := List.mem_filter.2 ⟨he, by simp [hcomputed]⟩
  exact (List.mem_filter.1 (h.kept.mem_iff.2 hmem)).1

/-- What is retained stays when summaries are dropped. -/
theorem Retains.dropSummaries (h : Retains g g') : Retains g g'.dropSummaries.2 := by
  have hperm := edges_dropSummaries_perm g'
  rw [isComputed_congr h.enriches.invocations.symm] at hperm
  refine ⟨⟨h.enriches.nodes, h.enriches.procedures, h.enriches.invocations, fun e he => ?_⟩, ?_, ?_⟩
  · exact h.enriches.edges e (List.mem_filter.1 (hperm.mem_iff.1 he)).1
  · refine (hperm.filter _).trans ?_
    rw [List.filter_filter]
    simpa using h.kept
  · rw [(hperm.filter _).nodup_iff, List.filter_comm]
    exact h.nodup.filter _

/-! ## Fewer edges -/

section Fewer

variable {graphs : List ProcedureGraph}

/-- Edges stay between the nodes of the callables if there are fewer of them. -/
theorem Local.of_enriches (h : Local graphs g) (henr : Enriches g' g) : Local graphs g' := by
  refine ⟨fun e he => ?_, fun u v d he => h.inside u v d (henr.edges _ he), fun u v site he => ?_, ?_, ?_,
    ?_, ?_⟩
  · exact henr.nodes ▸ h.joined e (henr.edges e he)
  · rw [← henr.invocations]
    exact h.across u v site (mem_summaries_iff.2 (henr.edges _ (mem_summaries_iff.1 he)))
  · exact henr.procedures ▸ h.formalOuts
  · exact henr.invocations ▸ h.actualIns
  · exact henr.invocations ▸ h.actualOuts
  · exact henr.invocations ▸ h.eq_of_site

/-- What passes through a callable with fewer edges passes through it. -/
theorem Enriches.mem_proposals (henr : Enriches g' g) (h : Local graphs g) {c : CallableId}
    {q : Proposal} (hq : q ∈ g'.proposals c) : q ∈ g.proposals c := by
  obtain ⟨p, hp, i, hi, htarget, position, slot, ⟨formalIn, formalOut, hin, hout, hreach⟩, hproposes⟩ :=
    (mem_proposals_iff (h.of_enriches henr).joined).1 hq
  refine (mem_proposals_iff h.joined).2 ⟨p, ?_, i, ?_, htarget, position, slot,
    ⟨formalIn, formalOut, hin, hout, ReflTransGen.mono (fun u v hstep => ?_) _ _ hreach⟩, hproposes⟩
  · rwa [procedure?, henr.procedures]
  · rwa [henr.invocations]
  · obtain ⟨d, he, hd⟩ := localStep_iff.1 hstep
    exact localStep_iff.2 ⟨d, henr.edges _ he, hd⟩

/-- Closed sets are the same with fewer computed edges. -/
theorem Retains.summaryClosed (h : Retains g g') {E : Set (NodeId × NodeId × CallSiteId)}
    (hE : g'.SummaryClosed E) : g.SummaryClosed E := by
  have hnodes : g'.nodeIds = g.nodeIds := by
    rw [nodeIds, ← h.enriches.nodes, nodeIds]
  have hprocedure (c : CallableId) : g'.procedure? c = g.procedure? c := by
    rw [procedure?, ← h.enriches.procedures]
    rfl
  obtain ⟨hacross, hthrough⟩ := hE
  rw [hnodes, ← h.enriches.invocations] at hacross hthrough
  simp only [hprocedure] at hthrough
  refine ⟨hacross, fun i hi c hc p hp hbody position slot htransmits => ?_⟩
  refine hthrough i hi c hc p hp hbody position slot ?_
  obtain ⟨formalIn, formalOut, hin, hout, hreach⟩ := htransmits
  refine ⟨formalIn, formalOut, hin, hout, ReflTransGen.mono (fun u v hstep => ?_) _ _ hreach⟩
  obtain ⟨d, he, hd⟩ | hsummary := hstep
  · refine .inl ⟨d, h.mem_of_not_computed he ?_, hd⟩
    obtain rfl | ⟨var, rfl⟩ := hd <;> rfl
  · exact .inr hsummary

end Fewer

/-! ## Computing again -/

section Building

variable {config : SummaryConfig} {h : Hierarchy} {calls : CallGraph} {graphs : List ProcedureGraph}
  {g₁ : SystemGraph}

/-- What was there before the first round is not computed. -/
theorem Builds.isComputed_eq_false (hb : Builds config h calls graphs g₁ g) {e : DependenceEdge}
    (he : e ∈ g₁.edges) : g.isComputed e = false := by
  by_contra hcomputed
  obtain ⟨site, hd, hsite⟩ := isComputed_eq_true_iff.1 (Bool.not_eq_false _ ▸ hcomputed)
  obtain ⟨source, target, d⟩ := e
  obtain rfl : d = .summary site := hd
  obtain ⟨i, hi, hsealed, rfl, -⟩ := (hb.started.mem_summaries_iff _ _ _).1 (mem_summaries_iff.2 he)
  rw [hb.assembles.isOpaqueAt_eq (hb.enriches.invocations ▸ hi), hsealed] at hsite
  cases hsite

/-- A system that was built retains what it has. -/
theorem build_retains (hsep : Separate graphs) (hg : build config h calls graphs = .ok g) :
    Retains g g := by
  obtain ⟨g₀, new, hg₀, hgains, -⟩ := build_gains hsep hg
  refine ⟨.refl g, .refl _, ?_⟩
  rw [hgains.filter_summary fun e he => kind_ne_summary_of_assemble hsep hg₀ he]
  exact hgains.nodup

section Built

variable (hsep : Separate graphs) (hb : Builds config h calls graphs g₁ g)
  (henabled : config.enabled = true)

include hsep hb henabled

/-- A computation adds no edge that was not built. -/
theorem Retains.computeSummaries_sound (h : Retains g g') (maxRounds : Nat) :
    ∀ e ∈ (g'.computeSummaries maxRounds).graph.edges, e ∈ g.edges := by
  obtain ⟨A, hA, hsettled⟩ := hb.settled hsep henabled
  have hbefore : ∀ c ∈ g'.definedCallables, c ∈ A := by
    rwa [definedCallables, ← h.enriches.procedures, hb.enriches.procedures]
  have hadds : ∀ g₂, Enriches g' g₂ → Local graphs g₂ → (∀ e ∈ g₂.edges, e ∈ g'.edges ∨ e ∈ g.edges) →
      ∀ c ∈ A, ∀ q ∈ g₂.proposals c, (joins g'.nodes q.edge = true → q.edge ∈ g.edges) ∧
        (q.edge ∉ g₂.edges → q.caller ∈ A) := by
    intro g₂ henr _ hsub c hc q hq
    have henr₂ : Enriches g₂ g := ⟨h.enriches.nodes.trans henr.nodes.symm,
      h.enriches.procedures.trans henr.procedures.symm, h.enriches.invocations.trans henr.invocations.symm,
      fun e he => (hsub e he).elim (h.enriches.edges e) id⟩
    -- the building left nothing to be added
    obtain ⟨hjoined, hcaller⟩ := hsettled.done c hc List.not_mem_nil q (henr₂.mem_proposals hb.isLocal hq)
    refine ⟨fun hjoins => hjoined (h.enriches.nodes ▸ hjoins), fun hnew => hcaller.resolve_left fun he => ?_⟩
    -- an edge of an opaque call was never dropped
    exact hnew (henr.edges _ (h.mem_of_not_computed (hb.enriches.edges _ he) (hb.isComputed_eq_false he)))
  intro e he
  have hsound := runRounds_sound (E := {e | e ∈ g.edges}) (hb.isLocal.of_enriches h.enriches) hadds hbefore
    maxRounds {} maxRounds e he
  exact hsound.elim (h.enriches.edges e) id

/-- What is retained stays when summaries are computed. -/
theorem Retains.computeSummaries (h : Retains g g') (maxRounds : Nat) :
    Retains g (g'.computeSummaries maxRounds).graph := by
  have henr : Enriches g' (g'.computeSummaries maxRounds).graph := enriches_runRounds g' _ _ _ _
  have hsound := h.computeSummaries_sound hsep hb henabled maxRounds
  have hnodes (c : CallableId) (n : NodeId) (howns : Owns graphs c n) : n ∈ g'.nodeIds := by
    rw [nodeIds, ← h.enriches.nodes]
    exact hb.assembles.mem_nodeIds_iff.2 ⟨c, howns⟩
  obtain ⟨new, hgains, -⟩ : ∃ new, Gains g' (g'.computeSummaries maxRounds).graph new ∧ _ :=
    exists_gains_runRounds ((hb.isLocal.of_enriches h.enriches).grounded hnodes) _ _ _
  -- what was built and is not computed was never gone, and is not new
  have hcomputed : new.filter (!g.isComputed ·) = [] := by
    refine List.filter_eq_nil_iff.2 fun e he hnot => hgains.fresh e he ?_
    refine h.mem_of_not_computed (hsound e ?_) (by simpa using hnot)
    exact hgains.edges ▸ List.mem_append_right _ he
  refine ⟨⟨h.enriches.nodes.trans henr.nodes.symm, h.enriches.procedures.trans henr.procedures.symm,
    h.enriches.invocations.trans henr.invocations.symm, hsound⟩, ?_, ?_⟩
  · rw [hgains.edges, List.filter_append, hcomputed, List.append_nil]
    exact h.kept
  · rw [hgains.edges, List.filter_append, List.nodup_append]
    refine ⟨h.nodup, hgains.nodup.filter _, fun e he e' he' heq => ?_⟩
    exact hgains.fresh e' (List.mem_filter.1 he').1 (heq ▸ (List.mem_filter.1 he).1)

/-- A computation that comes to an end leaves nothing for another one to add, and its summary edges
    are closed under what passes through calls. -/
theorem Retains.computeSummaries_settled (h : Retains g g') {maxRounds : Nat} {t : SummaryTally}
    (ht : (g'.computeSummaries maxRounds).outcome = .ok t) :
    (∀ again, (g'.computeSummaries maxRounds).graph.computeSummaries (again + 1) =
        ⟨(g'.computeSummaries maxRounds).graph, .ok { rounds := 1 }⟩) ∧
      g.SummaryClosed (g'.computeSummaries maxRounds).graph.summaries := by
  have h' := h.computeSummaries hsep hb henabled maxRounds
  obtain ⟨A, hA, hsettled⟩ : ∃ A, (∀ c ∈ g'.definedCallables, c ∈ A) ∧
      Settled graphs g' A (g'.computeSummaries maxRounds).graph [] :=
    runRounds_settled hsep (hb.isLocal.of_enriches h.enriches) ht
  have hdefined : (g'.computeSummaries maxRounds).graph.definedCallables = g'.definedCallables := by
    rw [definedCallables, hsettled.enriches.procedures, definedCallables]
  constructor
  · refine fun again => computeSummaries_of_mem (fun c hc q hq => ?_) again
    -- a proposal for a call joins nodes, so that it was added
    obtain ⟨i, hi, hspans⟩ := exists_spans_of_mem_proposals hsettled.isLocal.joined hq
    refine (hsettled.done c (hA c (hdefined ▸ hc)) List.not_mem_nil q hq).1 ?_
    refine (hsettled.isLocal.grounded fun c n howns => ?_).joins_of_spans hi hspans
    rw [nodeIds, ← h'.enriches.nodes]
    exact hb.assembles.mem_nodeIds_iff.2 ⟨c, howns⟩
  · refine h'.summaryClosed (hsettled.summaryClosed (fun c p hp hbody => hA c (hdefined ▸ ?_)) ?_)
    · have hmem : p ∈ (g'.computeSummaries maxRounds).graph.procedures := List.mem_of_find?_eq_some hp
      have hcallable : p.callable = c := by simpa using List.find?_some hp
      exact hcallable ▸ List.mem_map_of_mem (List.mem_filter.2 ⟨hmem, hbody⟩)
    · -- the edges of opaque calls are there from the start
      intro i hi hsealed a ha slot o ho
      rw [← h'.enriches.invocations, hb.enriches.invocations] at hi
      have hstart := mem_summaries_iff.1
        ((hb.started.mem_summaries_iff a o i.site).2 ⟨i, hi, hsealed, rfl, ha, slot, ho⟩)
      exact mem_summaries_iff.2
        (h.mem_of_not_computed (hb.enriches.edges _ hstart) (hb.isComputed_eq_false hstart))

end Built

/-- A graph has the nodes of another one, its edges of other kinds as often, and the same summary
    edges at opaque calls. It has summary edges of the other one only, and none of them twice. -/
structure Agrees (g g' : SystemGraph) : Prop where
  nodes : g'.nodes = g.nodes
  others : (g'.edges.filter (·.dependence.kind != .summary)).Perm
    (g.edges.filter (·.dependence.kind != .summary))
  across : ∀ a o site, g.isOpaqueAt site = true →
    ((a, o, site) ∈ g'.summaryEdges ↔ (a, o, site) ∈ g.summaryEdges)
  nodup : g'.summaryEdges.Nodup
  subset : ∀ e ∈ g'.summaryEdges, e ∈ g.summaryEdges

/-- Systems that retain each other have the same nodes, procedures and calls. -/
theorem Retains.agrees (h : Retains g g') : Agrees g g' := by
  have hsubset {a o : NodeId} {site : CallSiteId} (he : (a, o, site) ∈ g'.summaries) :
      (a, o, site) ∈ g.summaries :=
    mem_summaries_iff.2 (h.enriches.edges _ (mem_summaries_iff.1 he))
  refine ⟨h.enriches.nodes.symm, ?_, fun a o site hsite => ⟨fun he => hsubset he, fun he => ?_⟩,
    nodup_summaryEdges h.nodup, fun e he => hsubset he⟩
  · -- edges of other kinds are not computed
    have hother (edges : List DependenceEdge) : edges.filter (·.dependence.kind != .summary) =
        (edges.filter (!g.isComputed ·)).filter (·.dependence.kind != .summary) := by
      rw [List.filter_filter]
      refine List.filter_congr fun e _ => ?_
      unfold isComputed
      cases e.dependence <;> simp [Dependence.kind]
    rw [hother, hother g.edges]
    exact h.kept.filter _
  · have he : (a, o, site) ∈ g.summaries := he
    refine mem_summaries_iff.2 (h.mem_of_not_computed (mem_summaries_iff.1 he) ?_)
    simp [isComputed, hsite]

/-- Whatever was dropped and computed before, a graph agrees with the one that was built. A drop
    takes the summary edges of the calls that are not opaque, and reports how many. A computation
    that comes to an end leaves nothing for the next one, and has all summary edges that were built
    as long as only callables with a body make calls. -/
theorem Reworked.converges (hsep : Separate graphs) (hg : build config h calls graphs = .ok g)
    (henabled : config.enabled = true) (hr : Reworked g g') :
    Agrees g g' ∧
      (g'.dropSummaries.1 = g'.summaryEdges.countP (fun e => !g.isOpaqueAt e.2.2) ∧
        ∀ a o site, (a, o, site) ∈ g'.dropSummaries.2.summaryEdges ↔
          (a, o, site) ∈ g'.summaryEdges ∧ g.isOpaqueAt site = true) ∧
      ∀ maxRounds t, (g'.computeSummaries maxRounds).outcome = .ok t →
        (∀ again, (g'.computeSummaries maxRounds).graph.computeSummaries (again + 1) =
          ⟨(g'.computeSummaries maxRounds).graph, .ok { rounds := 1 }⟩) ∧
        ((∀ i ∈ g.invocations, ∀ p ∈ g.procedures, p.callable = i.caller → p.hasBody = true) →
          ∀ e, e ∈ (g'.computeSummaries maxRounds).graph.summaryEdges ↔ e ∈ g.summaryEdges) := by
  obtain ⟨g₁, hb⟩ := build_eq_ok hsep hg
  -- what is not a summary edge stays, and no summary edge comes in that was not built
  have hretains : Retains g g' := by
    induction hr with
    | built => exact build_retains hsep hg
    | drop _ ih => exact ih.dropSummaries
    | compute maxRounds _ ih => exact ih.computeSummaries hsep hb henabled maxRounds
  have hsame : g'.isOpaqueAt = g.isOpaqueAt := by
    funext site
    rw [isOpaqueAt, invocation?, ← hretains.enriches.invocations]
    rfl
  refine ⟨hretains.agrees, ⟨hsame ▸ dropSummaries_fst g', fun a o site => ?_⟩, fun maxRounds t ht => ?_⟩
  · rw [mem_summaryEdges_dropSummaries_iff, hsame]
  · obtain ⟨hagain, hclosed⟩ := hretains.computeSummaries_settled hsep hb henabled ht
    refine ⟨hagain, fun hcallers e => ⟨?_, fun he => hb.summaries_subset hsep hcallers hclosed he⟩⟩
    exact (hretains.computeSummaries hsep hb henabled maxRounds).agrees.subset e

/-- Two callables call each other. All summary edges are dropped, one round is too few to find them
    again, and the next computation finds the rest. -/
theorem recursion_restored : ∃ g g',
    build ⟨true, 9⟩ (declarations [⟨0⟩, ⟨1⟩, ⟨2⟩, ⟨3⟩]) (callsFrom [(0, 1), (1, 0), (1, 2)]) relays =
        .ok g ∧
      g.dropSummaries.2.computeSummaries 1 = ⟨g', .error (.nontermination 1)⟩ ∧
      g'.summaryEdges = [(⟨10⟩, ⟨12⟩, ⟨1⟩)] ∧
      ∀ e, e ∈ (g'.computeSummaries 9).graph.summaryEdges ↔ e ∈ g.summaryEdges := by
  obtain ⟨g, hg, hfirst, hedges, hended, hcallers⟩ : ∃ g, build ⟨true, 9⟩
      (declarations [⟨0⟩, ⟨1⟩, ⟨2⟩, ⟨3⟩]) (callsFrom [(0, 1), (1, 0), (1, 2)]) relays = .ok g ∧
        (g.dropSummaries.2.computeSummaries 1).outcome = .error (.nontermination 1) ∧
        (g.dropSummaries.2.computeSummaries 1).graph.summaryEdges = [(⟨10⟩, ⟨12⟩, ⟨1⟩)] ∧
        ((g.dropSummaries.2.computeSummaries 1).graph.computeSummaries 9).outcome = .ok ⟨2, 1, 0⟩ ∧
        ∀ i ∈ g.invocations, ∀ p ∈ g.procedures, p.callable = i.caller → p.hasBody = true :=
    exists_ok_of_any (by cbv)
  obtain ⟨-, -, hcompute⟩ := Reworked.converges relays_separate hg rfl (.compute 1 (.drop .built))
  exact ⟨g, _, hg, hfirst ▸ rfl, hedges, (hcompute 9 _ hended).2 hcallers⟩

/-- A callable that is declared without a body is looked at when a call in it has gained a summary
    edge, but not in a computation that finds the edge there. -/
theorem bodiless_not_restored : ∃ g g' t,
    build ⟨true, 9⟩ (declarations [⟨0⟩, ⟨2⟩, ⟨3⟩]) (callsFrom [(0, 1), (0, 3), (1, 2)]) relays = .ok g ∧
      Reworked g g' ∧ (g'.computeSummaries 9).outcome = .ok t ∧
      ¬∀ e, e ∈ (g'.computeSummaries 9).graph.summaryEdges ↔ e ∈ g.summaryEdges := by
  obtain ⟨g, hg, hedges, hended, hmissing⟩ : ∃ g, build ⟨true, 9⟩ (declarations [⟨0⟩, ⟨2⟩, ⟨3⟩])
      (callsFrom [(0, 1), (0, 3), (1, 2)]) relays = .ok g ∧
        g.summaryEdges = [(⟨10⟩, ⟨12⟩, ⟨1⟩), (⟨3⟩, ⟨5⟩, ⟨0⟩)] ∧
        ((g.dropSummaries.2.computeSummaries 1).graph.computeSummaries 9).outcome = .ok ⟨1, 0, 0⟩ ∧
        ((g.dropSummaries.2.computeSummaries 1).graph.computeSummaries 9).graph.summaryEdges =
          [(⟨10⟩, ⟨12⟩, ⟨1⟩)] :=
    exists_ok_of_any (by cbv)
  refine ⟨g, _, _, hg, .compute 1 (.drop .built), hended, fun hsame => ?_⟩
  have hmem : (⟨3⟩, ⟨5⟩, ⟨0⟩) ∈ g.summaryEdges := by simp [hedges]
  rw [← hsame, hmissing] at hmem
  simp at hmem

end Building

end Slicing.SystemGraph
