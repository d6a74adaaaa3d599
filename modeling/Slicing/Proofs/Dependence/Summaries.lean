import Mathlib
import Slicing.Proofs.Dependence.Rounds

/-!
# Summary edges are a least fixed point

The summary edges of a graph that was built with summaries are the least set that is closed
under what passes through calls (`SystemGraph.isLeast_summaryEdges`). Calls that are added to
the call graph only add to them, as long as no call ceases to be opaque
(`SystemGraph.summaryEdges_subset`).
-/

namespace Slicing.SystemGraph

open ProcedureGraph Relation

/-- A set of summaries holds what passes through opaque calls, which is everything, and what
    passes through the procedures that other calls may reach. -/
structure SummaryClosed (g : SystemGraph) (E : Set (NodeId × NodeId × CallSiteId)) : Prop where
  across : ∀ i ∈ g.invocations, i.isOpaque = true → ∀ a ∈ i.actualIns, ∀ slot o,
    (slot, o) ∈ i.actualOuts → a ∈ g.nodeIds → o ∈ g.nodeIds → (a, o, i.site) ∈ E
  through : ∀ i ∈ g.invocations, ∀ c ∈ i.targets, ∀ p, g.procedure? c = some p → p.hasBody = true →
    ∀ position slot, g.Transmits E p position slot → ∀ a o, i.actualIns[position]? = some a →
      i.actualOut? slot = some o → a ∈ g.nodeIds → o ∈ g.nodeIds → (a, o, i.site) ∈ E

variable {g g' : SystemGraph} {E : Set (NodeId × NodeId × CallSiteId)}

/-- Rounds that come to an end leave the summary edges closed under what passes through calls,
    if those of opaque calls were there and all callables with a body were looked at. -/
theorem Settled.summaryClosed {graphs : List ProcedureGraph} {g₀ : SystemGraph} {A : Set CallableId}
    (hsettled : Settled graphs g₀ A g [])
    (hA : ∀ c p, g.procedure? c = some p → p.hasBody = true → c ∈ A)
    (hacross : ∀ i ∈ g.invocations, i.isOpaque = true → ∀ a ∈ i.actualIns, ∀ slot o,
      (slot, o) ∈ i.actualOuts → (a, o, i.site) ∈ g₀.summaries) : g.SummaryClosed g.summaries := by
  constructor
  · intro i hi hsealed a ha slot o ho _ _
    have hstart := mem_summaries_iff.1 (hacross i hi hsealed a ha slot o ho)
    exact mem_summaries_iff.2 (hsettled.enriches.edges _ hstart)
  · intro i hi c hc p hp hbody position slot htransmits a o ha ho hna hno
    have hq : (⟨i.caller, a, o, .summary i.site⟩ : Proposal) ∈ g.proposals c :=
      (mem_proposals_iff hsettled.isLocal.joined).2
        ⟨p, hp, i, hi, hc, position, slot, htransmits, a, o, ha, ho, rfl⟩
    have hdone := (hsettled.done c (hA c p hp hbody) List.not_mem_nil _ hq).1
    exact mem_summaries_iff.2 (hdone (joins_iff.2 ⟨hna, hno⟩))

/-! ## Building -/

section Building

variable {config : SummaryConfig} {h : Hierarchy} {calls : CallGraph} {graphs : List ProcedureGraph}

/-- More summary edges do not change what is assembled. -/
theorem Assembles.of_enriches (hg : Assembles h calls graphs g) (henr : Enriches g g')
    (hnew : ∀ e ∈ g'.edges, e ∈ g.edges ∨ e.dependence.kind = .summary) :
    Assembles h calls graphs g' := by
  have hlinks {edge : CallEdge} {i : Invocation} {p : Procedure} (hlink : g.Links edge i p) :
      g'.Links edge i p := by
    obtain ⟨hinvocation, hcaller, hnode, hprocedure⟩ := hlink
    refine ⟨?_, hcaller, hnode, ?_⟩
    · rwa [invocation?, henr.invocations]
    · rwa [procedure?, henr.procedures]
  have hlinks' {edge : CallEdge} {i : Invocation} {p : Procedure} (hlink : g'.Links edge i p) :
      g.Links edge i p := by
    obtain ⟨hinvocation, hcaller, hnode, hprocedure⟩ := hlink
    refine ⟨?_, hcaller, hnode, ?_⟩
    · rwa [invocation?, ← henr.invocations]
    · rwa [procedure?, ← henr.procedures]
  refine ⟨henr.nodes.trans hg.nodes, henr.procedures ▸ hg.procedures, ?_, ?_, ?_⟩
  · rw [henr.invocations, henr.procedures]
    exact hg.invocations
  · intro edge hedge
    obtain ⟨i, p, hlink⟩ := hg.links edge hedge
    exact ⟨i, p, hlinks hlink⟩
  · intro e hkind
    have hold : e ∈ g'.edges ↔ e ∈ g.edges :=
      ⟨fun he => (hnew e he).resolve_right hkind, henr.edges e⟩
    rw [hold, hg.edges e hkind, henr.nodes]
    refine and_congr_right fun _ => or_congr_right ⟨?_, ?_⟩
    · rintro ⟨edge, hedge, i, p, hlink, he⟩
      exact ⟨edge, hedge, i, p, hlinks hlink, he⟩
    · rintro ⟨edge, hedge, i, p, hlink, he⟩
      exact ⟨edge, hedge, i, p, hlinks' hlink, he⟩

/-- A graph whose summary edges are those of the opaque calls. -/
structure Started (h : Hierarchy) (calls : CallGraph) (graphs : List ProcedureGraph)
    (g : SystemGraph) : Prop where
  assembles : Assembles h calls graphs g
  isLocal : Local graphs g
  mem_summaries_iff : ∀ a o site, (a, o, site) ∈ g.summaries ↔
    ∃ i ∈ g.invocations, i.isOpaque = true ∧ i.site = site ∧ a ∈ i.actualIns ∧
      ∃ slot, (slot, o) ∈ i.actualOuts

/-- Neither the graphs of callables nor interfaces have summary edges. -/
theorem kind_ne_summary_of_assemble (hsep : Separate graphs) (hg : assemble h calls graphs = .ok g)
    {e : DependenceEdge} (he : e ∈ g.edges) : e.dependence.kind ≠ .summary := by
  obtain ⟨p, hp, he⟩ | ⟨i, p, he⟩ := (assemble_eq_ok hg).2 e he
  · obtain hd | ⟨var, hd⟩ := (hsep.wellFormed p hp).dependence e he <;> simp [hd, Dependence.kind]
  · obtain rfl | ⟨_, _, _, _, _, rfl⟩ | ⟨_, _, _, _, _, rfl⟩ := mem_interfaceEdges_iff.1 he <;>
      simp [Dependence.kind]

/-- The edges of an assembled system are between the nodes of its callables. -/
theorem isLocal_of_assemble (hsep : Separate graphs) (hg : assemble h calls graphs = .ok g) :
    Local graphs g := by
  have hassembles := (assemble_eq_ok hg).1
  have hno (e : DependenceEdge) (he : e ∈ g.edges) := kind_ne_summary_of_assemble hsep hg he
  refine ⟨fun e he => ((hassembles.edges e (hno e he)).1 he).1, ?_, ?_, ?_, ?_, ?_, ?_⟩
  · intro u v d he hd
    obtain ⟨p, hp, he⟩ := (hassembles.mem_edges_iff hsep hd).1 he
    exact ⟨p.callable, owns_of_mem_edges hsep hp he⟩
  · intro u v site he
    exact absurd rfl (hno _ (mem_summaries_iff.1 he))
  · exact fun p hp o ho => hassembles.owns_formalOut hsep hp ho
  · exact fun i hi a ha => hassembles.owns_actualIn hsep hi ha
  · exact fun i hi o ho => hassembles.owns_actualOut hsep hi ho
  · exact fun i hi j hj => hassembles.eq_of_site hi hj

/-- The edges through opaque calls span them. -/
theorem exists_spans_of_mem_opaque {q : Proposal}
    (hq : q ∈ (g.invocations.filter (·.isOpaque)).flatMap allThrough) :
    ∃ i ∈ g.invocations, Spans i q := by
  obtain ⟨i, hi, hq⟩ := List.mem_flatMap.1 hq
  exact ⟨i, (List.mem_filter.1 hi).1, spans_of_mem_allThrough hq⟩

/-- An assembled system with the summaries of its opaque calls is one that rounds start from. -/
theorem assemble_started (hsep : Separate graphs) (hg : assemble h calls graphs = .ok g) :
    Started h calls graphs g.addOpaqueSummaries.graph := by
  have hassembles := (assemble_eq_ok hg).1
  have hlocal := isLocal_of_assemble hsep hg
  have henr : Enriches g g.addOpaqueSummaries.graph := enriches_addAll g _
  refine ⟨hassembles.of_enriches henr fun e he => ?_,
    hlocal.addAll fun q hq => exists_spans_of_mem_opaque hq, fun a o site => ?_⟩
  · obtain he | ⟨⟨q, hq, rfl⟩, -⟩ := mem_edges_addAll.1 he
    · exact .inl he
    · obtain ⟨i, -, hspans⟩ := exists_spans_of_mem_opaque hq
      exact .inr (by rw [hspans.dependence]; rfl)
  · rw [mem_summaries_iff, henr.invocations]
    constructor
    · intro he
      obtain he | ⟨⟨q, hq, heq⟩, -⟩ := mem_edges_addAll.1 he
      · exact absurd rfl (kind_ne_summary_of_assemble hsep hg he)
      · obtain ⟨i, hi, hq⟩ := List.mem_flatMap.1 hq
        obtain ⟨a, ha, slot, o, ho, rfl⟩ := mem_allThrough_iff.1 hq
        cases heq
        exact ⟨i, (List.mem_filter.1 hi).1, (List.mem_filter.1 hi).2, rfl, ha, slot, ho⟩
    · rintro ⟨i, hi, hsealed, rfl, ha, slot, ho⟩
      refine mem_edges_addAll.2 (.inr ⟨⟨⟨i.caller, a, o, .summary i.site⟩, ?_, rfl⟩, ?_⟩)
      · exact List.mem_flatMap.2 ⟨i, List.mem_filter.2 ⟨hi, hsealed⟩,
          mem_allThrough_iff.2 ⟨a, ha, slot, o, ho, rfl⟩⟩
      · exact joins_iff.2 ⟨hassembles.mem_nodeIds_iff.2 ⟨_, hassembles.owns_actualIn hsep hi ha⟩,
          hassembles.mem_nodeIds_iff.2 ⟨_, hassembles.owns_actualOut hsep hi ho⟩⟩

/-- A graph is built of one whose summary edges are those of the opaque calls, in rounds if
    summaries are asked for. -/
structure Builds (config : SummaryConfig) (h : Hierarchy) (calls : CallGraph)
    (graphs : List ProcedureGraph) (g₁ g : SystemGraph) : Prop where
  started : Started h calls graphs g₁
  rounds : ∃ tally, g = { (if config.enabled then (g₁.computeSummaries config.maxRounds.toNat).graph
    else g₁) with tally := tally }
  ended : config.enabled = true →
    ∃ t, (g₁.computeSummaries config.maxRounds.toNat).outcome = .ok t

/-- A system that is built was assembled and then worked on in rounds. -/
theorem build_eq_ok (hsep : Separate graphs) (hg : build config h calls graphs = .ok g) :
    ∃ g₁, Builds config h calls graphs g₁ g := by
  simp only [build, bind_eq_ok_iff, mapError_eq_ok_iff] at hg
  obtain ⟨g₀, hg₀, hg⟩ := hg
  refine ⟨_, assemble_started hsep hg₀, ?_, ?_⟩
  · split at hg
    · rename_i henabled
      obtain ⟨t, -, hg⟩ := bind_eq_ok_iff.1 hg
      cases hg
      simp only [henabled, if_true]
      exact ⟨_, rfl⟩
    · rename_i henabled
      cases hg
      simp only [henabled]
      exact ⟨_, rfl⟩
  · intro henabled
    rw [if_pos henabled] at hg
    obtain ⟨t, ht, -⟩ := bind_eq_ok_iff.1 hg
    exact ⟨t, ht⟩

section Built

variable {g₁ : SystemGraph} (hb : Builds config h calls graphs g₁ g)

include hb

/-- What is built is what was there for a start and edges of a set `E`, if what rounds propose
    is in it as long as they look at callables of `B` only. -/
theorem Builds.sound {E : Set DependenceEdge} {B : Set CallableId}
    (hE : ∀ g', Enriches g₁ g' → Local graphs g' → (∀ e ∈ g'.edges, e ∈ g₁.edges ∨ e ∈ E) →
      ∀ c ∈ B, ∀ q ∈ g'.proposals c, (joins g₁.nodes q.edge = true → q.edge ∈ E) ∧
        (q.edge ∉ g'.edges → q.caller ∈ B))
    (hB : ∀ c ∈ g₁.definedCallables, c ∈ B) : ∀ e ∈ g.edges, e ∈ g₁.edges ∨ e ∈ E := by
  obtain ⟨tally, rfl⟩ := hb.rounds
  intro e he
  change e ∈ (if config.enabled then (g₁.computeSummaries config.maxRounds.toNat).graph
    else g₁).edges at he
  split at he
  · exact runRounds_sound hb.started.isLocal hE hB _ _ _ e he
  · exact .inl he

/-- Rounds only add edges. -/
theorem Builds.enriches : Enriches g₁ g := by
  obtain ⟨tally, rfl⟩ := hb.rounds
  suffices henr : Enriches g₁ (if config.enabled then (g₁.computeSummaries config.maxRounds.toNat).graph
      else g₁) from ⟨henr.nodes, henr.procedures, henr.invocations, henr.edges⟩
  split
  · exact enriches_runRounds g₁ _ _ _ _
  · exact .refl g₁

theorem Builds.assembles : Assembles h calls graphs g := by
  refine hb.started.assembles.of_enriches hb.enriches
    (hb.sound (E := {e | e.dependence.kind = .summary}) (B := Set.univ) ?_ fun _ _ => trivial)
  intro g' _ hlocal _ c _ q hq
  obtain ⟨i, -, hspans⟩ := exists_spans_of_mem_proposals hlocal.joined hq
  have hkind : q.edge.dependence.kind = .summary := by rw [hspans.dependence, Dependence.kind]
  exact ⟨fun _ => hkind, fun _ => trivial⟩

theorem Builds.isLocal : Local graphs g := by
  obtain ⟨tally, rfl⟩ := hb.rounds
  suffices hlocal : Local graphs (if config.enabled then
      (g₁.computeSummaries config.maxRounds.toNat).graph else g₁) from { hlocal with }
  split
  · exact hb.started.isLocal.runRounds _ _ _ _
  · exact hb.started.isLocal

theorem Builds.joined : ∀ e ∈ g.edges, joins g.nodes e = true := hb.isLocal.joined

/-- With summaries, nothing is left to be added for a set of callables that has those with a
    body, and the callers of the calls that gained an edge. -/
theorem Builds.settled (hsep : Separate graphs) (henabled : config.enabled = true) :
    ∃ A, (∀ c ∈ g₁.definedCallables, c ∈ A) ∧ Settled graphs g₁ A g [] := by
  obtain ⟨tally, rfl⟩ := hb.rounds
  obtain ⟨t, ht⟩ := hb.ended henabled
  obtain ⟨A, hA, hsettled⟩ := runRounds_settled hsep hb.started.isLocal ht
  refine ⟨A, hA, ?_⟩
  rw [if_pos henabled]
  exact ⟨{ hsettled.isLocal with }, { hsettled.enriches with }, hsettled.subset, hsettled.gained,
    hsettled.done⟩

theorem Builds.mem_nodeIds_of_actual (hsep : Separate graphs) {i : Invocation} (hi : i ∈ g.invocations)
    {slot : OutputSlot} {a o : NodeId} (ha : a ∈ i.actualIns) (ho : (slot, o) ∈ i.actualOuts) :
    a ∈ g.nodeIds ∧ o ∈ g.nodeIds :=
  ⟨hb.assembles.mem_nodeIds_iff.2 ⟨_, hb.assembles.owns_actualIn hsep hi ha⟩,
    hb.assembles.mem_nodeIds_iff.2 ⟨_, hb.assembles.owns_actualOut hsep hi ho⟩⟩

/-- A call has a caller. -/
theorem Builds.exists_procedure {i : Invocation} (hi : i ∈ g.invocations) :
    ∃ p ∈ g.procedures, p.callable = i.caller := by
  obtain ⟨graph, hgraph, nodes, -, rfl⟩ := hb.assembles.exists_site hi
  have hmem : graph.callable ∈ g.procedures.map (·.callable) :=
    hb.assembles.map_callable ▸ List.mem_map_of_mem hgraph
  obtain ⟨p, hp, hcallable⟩ := List.mem_map.1 hmem
  exact ⟨p, hp, hcallable⟩

/-- The defined callables are the procedures with a body. -/
theorem Builds.mem_definedCallables_iff (hsep : Separate graphs) {c : CallableId} :
    c ∈ g₁.definedCallables ↔ ∃ p, g.procedure? c = some p ∧ p.hasBody = true := by
  simp only [hb.assembles.procedure?_eq_some_iff hsep, definedCallables, ← hb.enriches.procedures,
    List.mem_map, List.mem_filter]
  constructor
  · rintro ⟨p, ⟨hp, hbody⟩, rfl⟩
    exact ⟨p, ⟨hp, rfl⟩, hbody⟩
  · rintro ⟨p, ⟨hp, rfl⟩, hbody⟩
    exact ⟨p, ⟨hp, hbody⟩, rfl⟩

/-- The summary edges of a graph are closed under what passes through calls. -/
theorem Builds.summaryClosed (hsep : Separate graphs) (henabled : config.enabled = true) :
    g.SummaryClosed g.summaries := by
  obtain ⟨A, hA, hsettled⟩ := hb.settled hsep henabled
  refine hsettled.summaryClosed (fun c p hp hbody => ?_) fun i hi hsealed a ha slot o ho => ?_
  · exact hA c ((hb.mem_definedCallables_iff hsep).2 ⟨p, hp, hbody⟩)
  · exact (hb.started.mem_summaries_iff a o i.site).2
      ⟨i, hb.enriches.invocations ▸ hi, hsealed, rfl, ha, slot, ho⟩

end Built

/-- Summaries as edges. -/
def edgesOf (E : Set (NodeId × NodeId × CallSiteId)) : Set DependenceEdge :=
  {e | ∃ site, e.dependence = .summary site ∧ (e.source, e.target, site) ∈ E}

/-- What passes through a procedure in a graph passes also where there are its edges within
    callables and at least its summaries. -/
theorem Transmits.of_sound {g₁ g₂ : SystemGraph} {p : Procedure} {position : Nat} {slot : OutputSlot}
    (hsound : ∀ e ∈ g'.edges, e ∈ g₁.edges ∨ e ∈ edgesOf E) (hstart : g₁.summaries ⊆ E)
    (hedges : ∀ u v d, ⟨u, v, d⟩ ∈ g₁.edges → (d = .control ∨ ∃ var, d = .data var) →
      ⟨u, v, d⟩ ∈ g₂.edges)
    (htransmits : g'.Transmits g'.summaries p position slot) : g₂.Transmits E p position slot := by
  obtain ⟨formalIn, formalOut, hin, hout, hreach⟩ := htransmits
  refine ⟨formalIn, formalOut, hin, hout, ReflTransGen.mono (fun u v hstep => ?_) _ _ hreach⟩
  obtain ⟨d, he, hd⟩ | ⟨site, he⟩ := hstep
  · refine .inl ⟨d, hedges u v d ((hsound _ he).resolve_right ?_) hd, hd⟩
    rintro ⟨site, rfl, -⟩
    obtain hd | ⟨var, hd⟩ := hd <;> cases hd
  · obtain he | ⟨site', heq, he⟩ := hsound _ (mem_summaries_iff.1 he)
    · exact .inr ⟨site, hstart (mem_summaries_iff.2 he)⟩
    · exact .inr ⟨site', he⟩

/-- The summary edges are in each set that is closed under what passes through calls, if only
    callables with a body make calls. -/
theorem Builds.summaries_subset (hsep : Separate graphs) {g₁ : SystemGraph}
    (hb : Builds config h calls graphs g₁ g)
    (hcallers : ∀ i ∈ g.invocations, ∀ p ∈ g.procedures, p.callable = i.caller → p.hasBody = true)
    (hE : g.SummaryClosed E) : g.summaries ⊆ E := by
  have hstart : g₁.summaries ⊆ E := by
    rintro ⟨a, o, site⟩ he
    obtain ⟨i, hi, hsealed, rfl, ha, slot, ho⟩ := (hb.started.mem_summaries_iff a o site).1 he
    rw [← hb.enriches.invocations] at hi
    obtain ⟨hna, hno⟩ := hb.mem_nodeIds_of_actual hsep hi ha ho
    exact hE.across i hi hsealed a ha slot o ho hna hno
  have hsound := hb.sound (E := edgesOf E) (B := {c | c ∈ g₁.definedCallables}) ?_ fun _ hc => hc
  · rintro ⟨a, o, site⟩ he
    obtain he | ⟨site', heq, he⟩ := hsound _ (mem_summaries_iff.1 he)
    · exact hstart (mem_summaries_iff.2 he)
    · rwa [Dependence.summary.inj heq]
  · intro g' henr hlocal hsound c hc q hq
    obtain ⟨p, hp, hbody⟩ := (hb.mem_definedCallables_iff hsep).1 hc
    obtain ⟨p', hp', i, hi, htarget, position, slot, htransmits, a, o, ha, ho, rfl⟩ :=
      (mem_proposals_iff hlocal.joined).1 hq
    rw [procedure?, henr.procedures, ← hb.enriches.procedures] at hp'
    obtain rfl := Option.some.inj (hp'.symm.trans hp)
    rw [henr.invocations, ← hb.enriches.invocations] at hi
    constructor
    · intro hjoins
      have htransmits := htransmits.of_sound hsound hstart fun u v d he _ => hb.enriches.edges _ he
      have hnodes : g.nodes = g₁.nodes := hb.enriches.nodes
      rw [← hnodes, joins_iff] at hjoins
      exact ⟨i.site, rfl, hE.through i hi c htarget p' hp hbody position slot htransmits a o ha ho
        hjoins.1 hjoins.2⟩
    · -- a caller that gained an edge has a body, so it was to be looked at anyway
      intro _
      obtain ⟨p, hp, hcallable⟩ := hb.exists_procedure hi
      exact (hb.mem_definedCallables_iff hsep).2
        ⟨p, (hb.assembles.procedure?_eq_some_iff hsep).2 ⟨hp, hcallable⟩, hcallers i hi p hp hcallable⟩

/-- The summary edges are the least set that is closed under what passes through calls, as long
    as only callables with a body make calls. To look at all of these once more adds nothing. -/
theorem isLeast_summaryEdges (hsep : Separate graphs) (hg : build config h calls graphs = .ok g)
    (henabled : config.enabled = true)
    (hcallers : ∀ i ∈ g.invocations, ∀ p ∈ g.procedures, p.callable = i.caller → p.hasBody = true) :
    IsLeast {E | g.SummaryClosed E} {e | e ∈ g.summaryEdges} ∧
      (g.summaryRound g.definedCallables).added = 0 := by
  obtain ⟨g₁, hb⟩ := build_eq_ok hsep hg
  have hclosed := hb.summaryClosed hsep henabled
  refine ⟨⟨hclosed, fun E hE => hb.summaries_subset hsep hcallers hE⟩, ?_⟩
  obtain ⟨A, hA, hsettled⟩ := hb.settled hsep henabled
  have hgrown : (g.summaryRound g.definedCallables).grown = [] := by
    refine List.eq_nil_iff_forall_not_mem.2 fun c hc => ?_
    obtain ⟨q, hq, -, hnew⟩ := exists_of_mem_grown_addAll hc
    obtain ⟨c, hc, hq⟩ := List.mem_flatMap.1 hq
    rw [definedCallables, hb.enriches.procedures] at hc
    obtain ⟨i, hi, hspans⟩ := exists_spans_of_mem_proposals hsettled.isLocal.joined hq
    obtain ⟨slot, htarget⟩ := hspans.target
    have hjoins := joins_iff.2 (hb.mem_nodeIds_of_actual hsep hi hspans.source htarget)
    exact hnew ((hsettled.done c (hA c hc) List.not_mem_nil q hq).1 hjoins)
  have hadded : (g.summaryRound g.definedCallables).added =
      (g.summaryRound g.definedCallables).grown.length := added_foldl_add rfl
  rw [hadded, hgrown, List.length_nil]

/-! ### Callers and callees -/

/-- A callable that hands its parameter over at a call and returns the result. -/
def relay (callable : CallableId) (site : CallSiteId) (start : Nat) : ProcedureGraph where
  callable
  entry := ⟨start⟩
  exit := ⟨start + 1⟩
  nodes := [{ id := ⟨start⟩, callable, kind := .entry, text := "enter" },
    { id := ⟨start + 1⟩, callable, kind := .exit, text := "exit" },
    { id := ⟨start + 2⟩, callable, kind := .formalIn 0, text := "in x" },
    { id := ⟨start + 3⟩, callable, kind := .actualIn site 0, text := "x" },
    { id := ⟨start + 4⟩, callable, kind := .call site, text := "f(x)" },
    { id := ⟨start + 5⟩, callable, kind := .actualOut site .result, text := "f(x)" },
    { id := ⟨start + 6⟩, callable, kind := .formalOut .result, text := "out return" }]
  edges := [⟨⟨start + 2⟩, ⟨start + 3⟩, .data "x"⟩, ⟨⟨start + 5⟩, ⟨start + 6⟩, .data returnVar⟩]
  formalIns := [⟨start + 2⟩]
  formalOuts := [(.result, ⟨start + 6⟩)]
  callSites := [⟨⟨site, "f(x)", .external "f", .direct, [.ofVar "x"], true, []⟩, ⟨start + 4⟩, [⟨start + 3⟩],
    [(.result, ⟨start + 5⟩)]⟩]

/-- A callable that makes no call and returns its parameter, or something else. -/
def leaf (callable : CallableId) (start : Nat) (returns : Bool) : ProcedureGraph where
  callable
  entry := ⟨start⟩
  exit := ⟨start + 1⟩
  nodes := [{ id := ⟨start⟩, callable, kind := .entry, text := "enter" },
    { id := ⟨start + 1⟩, callable, kind := .exit, text := "exit" },
    { id := ⟨start + 2⟩, callable, kind := .formalIn 0, text := "in x" },
    { id := ⟨start + 3⟩, callable, kind := .formalOut .result, text := "out return" }]
  edges := if returns then [⟨⟨start + 2⟩, ⟨start + 3⟩, .data "x"⟩] else []
  formalIns := [⟨start + 2⟩]
  formalOuts := [(.result, ⟨start + 3⟩)]
  callSites := []

theorem relay_wellFormed (callable : CallableId) (site : CallSiteId) (start : Nat) :
    (relay callable site start).WellFormed := by
  constructor <;> simp [relay, ProcedureGraph.nodeIds]

theorem leaf_wellFormed (callable : CallableId) (start : Nat) (returns : Bool) :
    (leaf callable start returns).WellFormed := by
  constructor <;> cases returns <;> simp [leaf, ProcedureGraph.nodeIds]

/-- Four callables, of which those that are listed have a body. -/
def declarations (defined : List CallableId) : Hierarchy where
  types := []
  callables := [0, 1, 2, 3].map fun n : UInt32 =>
    { id := ⟨n⟩, name := "f", kind := .method, owner := ⟨0⟩, signature := ⟨"f", ["Object"]⟩
      isStatic := true, params := [⟨"x", .byValue⟩], returnsValue := true
      body := if ⟨n⟩ ∈ defined then some [] else none, span := none }

/-- Calls by the first two callables, whose call sites and nodes are numbered in turn. -/
def callsFrom (pairs : List (UInt32 × UInt32)) : CallGraph :=
  ⟨[], pairs.map fun (caller, callee) => ⟨⟨caller⟩, ⟨callee⟩, ⟨caller⟩, ⟨7 * caller.toNat + 4⟩⟩, []⟩

/-- Two callables that call others, and two that do not. -/
def relays : List ProcedureGraph :=
  [relay ⟨0⟩ ⟨0⟩ 0, relay ⟨1⟩ ⟨1⟩ 7, leaf ⟨2⟩ 14 true, leaf ⟨3⟩ 18 false]

theorem relays_separate : Separate relays := by
  refine ⟨?_, by decide, by decide⟩
  simp [relays, relay_wellFormed, leaf_wellFormed]

/-- A computation that is run succeeds with what is tested. -/
theorem exists_ok_of_any {α ε : Type} {x : Except ε α} {P : α → Prop} [DecidablePred P]
    (h : x.toOption.any (fun a => decide (P a)) = true) : ∃ a, x = .ok a ∧ P a := by
  cases x with
  | error e => cases h
  | ok a => exact ⟨a, rfl, of_decide_eq_true h⟩

/-- Two callables call each other, and what is passed on comes back through a third one. -/
theorem recursion_isLeast : ∃ g,
    build ⟨true, 9⟩ (declarations [⟨0⟩, ⟨1⟩, ⟨2⟩, ⟨3⟩]) (callsFrom [(0, 1), (1, 0), (1, 2)]) relays =
        .ok g ∧
      g.summaryEdges = [(⟨10⟩, ⟨12⟩, ⟨1⟩), (⟨3⟩, ⟨5⟩, ⟨0⟩)] ∧
      IsLeast {E | g.SummaryClosed E} {e | e ∈ g.summaryEdges} := by
  obtain ⟨g, hg, hedges, hcallers⟩ : ∃ g, build ⟨true, 9⟩ (declarations [⟨0⟩, ⟨1⟩, ⟨2⟩, ⟨3⟩])
      (callsFrom [(0, 1), (1, 0), (1, 2)]) relays = .ok g ∧
        g.summaryEdges = [(⟨10⟩, ⟨12⟩, ⟨1⟩), (⟨3⟩, ⟨5⟩, ⟨0⟩)] ∧
        ∀ i ∈ g.invocations, ∀ p ∈ g.procedures, p.callable = i.caller → p.hasBody = true :=
    exists_ok_of_any (by cbv)
  exact ⟨g, hg, hedges, (isLeast_summaryEdges relays_separate hg rfl hcallers).1⟩

set_option synthInstance.maxSize 512 in
/-- A callable that is declared without a body passes nothing on, but once a call in it has
    gained a summary edge it is looked at nevertheless. -/
theorem bodiless_not_isLeast : ∃ g,
    build ⟨true, 9⟩ (declarations [⟨0⟩, ⟨2⟩, ⟨3⟩]) (callsFrom [(0, 1), (0, 3), (1, 2)]) relays = .ok g ∧
      ¬IsLeast {E | g.SummaryClosed E} {e | e ∈ g.summaryEdges} := by
  obtain ⟨g, hg, hedges, hsealed, hcalls, hsource⟩ : ∃ g,
      build ⟨true, 9⟩ (declarations [⟨0⟩, ⟨2⟩, ⟨3⟩]) (callsFrom [(0, 1), (0, 3), (1, 2)]) relays = .ok g ∧
        g.summaryEdges = [(⟨10⟩, ⟨12⟩, ⟨1⟩), (⟨3⟩, ⟨5⟩, ⟨0⟩)] ∧
        (∀ i ∈ g.invocations, i.isOpaque = false) ∧
        (∀ i ∈ g.invocations, i.actualIns = [⟨10⟩] ∧ i.actualOuts = [(.result, ⟨12⟩)] ∧ i.site = ⟨1⟩ ∨
          ∀ p ∈ g.procedures, p.callable ∈ i.targets → p.hasBody = true →
            p.formalIns = [⟨20⟩] ∧ p.formalOuts = [(.result, ⟨21⟩)]) ∧
        ∀ e ∈ g.edges, e.source ≠ ⟨20⟩ :=
    exists_ok_of_any (by cbv)
  have hclosed : g.SummaryClosed {(⟨10⟩, ⟨12⟩, ⟨1⟩)} := by
    constructor
    · intro i hi h
      simp [hsealed i hi] at h
    · rintro i hi c hc p hp hbody position slot ⟨formalIn, formalOut, hin, hout, hreach⟩ a o ha ho _ _
      obtain ⟨hins, houts, hsite⟩ | hleaf := hcalls i hi
      · have ha : a = ⟨10⟩ := by simpa [hins] using List.mem_of_getElem? ha
        obtain ⟨_, _, hlookup, -⟩ := List.lookup_eq_some_iff.1 ho
        have ho : (slot, o) ∈ i.actualOuts := hlookup ▸ by simp
        have ho : o = ⟨12⟩ := by simpa using congrArg Prod.snd (List.mem_singleton.1 (houts ▸ ho))
        simp [ha, ho, hsite]
      · obtain ⟨hins, houts⟩ := hleaf p (List.mem_of_find?_eq_some hp)
          ((by simpa using List.find?_some hp : p.callable = c) ▸ hc) hbody
        have hin : formalIn = ⟨20⟩ := by simpa [hins] using List.mem_of_getElem? hin
        have hout : formalOut = ⟨21⟩ := by simpa [houts] using congrArg Prod.snd (List.mem_singleton.1 (houts ▸ hout))
        -- nothing depends on the parameter
        obtain heq | ⟨v, ⟨d, he, -⟩ | ⟨site, he⟩, -⟩ := hreach.cases_head
        · simp [hin, hout] at heq
        · exact absurd hin (hsource _ he)
        · simp [hin] at he
  refine ⟨g, hg, fun hleast => ?_⟩
  have hmem : (⟨3⟩, ⟨5⟩, ⟨0⟩) ∈ ({(⟨10⟩, ⟨12⟩, ⟨1⟩)} : Set (NodeId × NodeId × CallSiteId)) :=
    hleast.2 hclosed (by simp [hedges])
  simp at hmem

/-! ## More calls -/

variable {calls' : CallGraph}

/-- With more edges in the call graph a site has more targets. -/
theorem targetsOf_subset (hedges : ∀ e ∈ calls.edges, e ∈ calls'.edges) (site : CallSiteId) :
    ∀ c ∈ calls.targetsOf site, c ∈ calls'.targetsOf site := by
  intro c hc
  obtain ⟨e, he, rfl⟩ := List.mem_map.1 hc
  rw [List.mem_filter] at he
  exact List.mem_map_of_mem (List.mem_filter.2 ⟨hedges e he.1, he.2⟩)

/-- A call that is opaque although it may reach more is opaque. -/
theorem isOpaque_of_targets_subset {procedures : List Procedure} {caller : CallableId}
    {nodes : CallSiteNodes} (hedges : ∀ e ∈ calls.edges, e ∈ calls'.edges)
    (hexcluded : ∀ site c, c ∈ calls.excludedTargetsOf site ↔ c ∈ calls'.excludedTargetsOf site)
    (h : (Invocation.ofNodes calls' procedures caller nodes).isOpaque = true) :
    (Invocation.ofNodes calls procedures caller nodes).isOpaque = true := by
  simp only [Invocation.ofNodes, Bool.or_eq_true, Bool.not_eq_true', List.isEmpty_eq_false_iff_exists_mem,
    List.any_eq_false] at h ⊢
  refine h.imp (fun ⟨c, hc⟩ => ⟨c, (hexcluded _ c).2 hc⟩) fun h c hc => ?_
  exact h c (targetsOf_subset hedges _ c hc)

/-- The procedures do not depend on the calls. -/
theorem Assembles.procedures_eq (hg : Assembles h calls graphs g) (hg' : Assembles h calls' graphs g') :
    g.procedures = g'.procedures := by
  refine List.right_unique_forall₂' (fun graph p p' hp hp' => ?_) hg.procedures hg'.procedures
  exact Except.ok.inj (hp.symm.trans hp')

/-- With more calls a call site has at least the targets that it had. -/
theorem Assembles.exists_invocation (hg : Assembles h calls graphs g)
    (hg' : Assembles h calls' graphs g') (hedges : ∀ e ∈ calls.edges, e ∈ calls'.edges)
    (hexcluded : ∀ site c, c ∈ calls.excludedTargetsOf site ↔ c ∈ calls'.excludedTargetsOf site)
    {i : Invocation} (hi : i ∈ g.invocations) :
    ∃ j ∈ g'.invocations, j.site = i.site ∧ j.caller = i.caller ∧ j.actualIns = i.actualIns ∧
      j.actualOuts = i.actualOuts ∧ (∀ c ∈ i.targets, c ∈ j.targets) ∧
      (j.isOpaque = true → i.isOpaque = true) := by
  obtain ⟨s, hs, rfl⟩ := hg.mem_invocations_iff.1 hi
  refine ⟨_, hg'.mem_invocations_iff.2 ⟨s, hs, rfl⟩, rfl, rfl, rfl, rfl,
    targetsOf_subset hedges _, fun hsealed => ?_⟩
  rw [← hg.procedures_eq hg'] at hsealed
  exact isOpaque_of_targets_subset hedges hexcluded hsealed

section MoreCalls

variable {config' : SummaryConfig} {g₁ g₁' : SystemGraph} (hsep : Separate graphs)
  (hb : Builds config h calls graphs g₁ g) (hb' : Builds config' h calls' graphs g₁' g')
  (hedges : ∀ e ∈ calls.edges, e ∈ calls'.edges)
  (hexcluded : ∀ site c, c ∈ calls.excludedTargetsOf site ↔ c ∈ calls'.excludedTargetsOf site)

include hsep hb hb' hedges hexcluded

/-- The edges that a graph starts with are there with more calls, unless the calls cease to be
    opaque and lose them. -/
theorem Builds.started_subset (henabled' : config'.enabled = true)
    (hkept : ∀ a o site, (a, o, site) ∈ g.summaryEdges → g.isOpaqueAt site = true →
      g'.isOpaqueAt site = false → (a, o, site) ∈ g'.summaryEdges) :
    g₁.summaries ⊆ g'.summaries := by
  rintro ⟨a, o, site⟩ he
  obtain ⟨i, hi, hsealed, rfl, ha, slot, ho⟩ := (hb.started.mem_summaries_iff a o site).1 he
  obtain ⟨j, hj, hsite, -, hins, houts, -, -⟩ :=
    hb.started.assembles.exists_invocation hb'.assembles hedges hexcluded hi
  cases hj' : j.isOpaque with
  | true =>
    obtain ⟨hna, hno⟩ := hb'.mem_nodeIds_of_actual hsep hj (hins ▸ ha) (houts ▸ ho)
    exact hsite ▸ (hb'.summaryClosed hsep henabled').across j hj hj' a (hins ▸ ha) slot o (houts ▸ ho)
      hna hno
  | false =>
    refine hkept a o i.site (mem_summaries_iff.2 (hb.enriches.edges _ (mem_summaries_iff.1 he))) ?_ ?_
    · rw [hb.assembles.isOpaqueAt_eq (hb.enriches.invocations ▸ hi), hsealed]
    · rw [← hsite, hb'.assembles.isOpaqueAt_eq hj, hj']

/-- What is proposed between the start and the end is proposed at the end with more calls. If it
    is there from the start with more calls, it is with less. -/
theorem Builds.proposed {g₂ : SystemGraph} {c : CallableId} {q : Proposal}
    (hstart : g₁.summaries ⊆ g'.summaries) (henr : Enriches g₁ g₂) (hlocal : Local graphs g₂)
    (hlocal' : Local graphs g')
    (hsound : ∀ e ∈ g₂.edges, e ∈ g₁.edges ∨ e ∈ edgesOf g'.summaries) (hq : q ∈ g₂.proposals c) :
    q ∈ g'.proposals c ∧ (∃ site, q.edge.dependence = .summary site) ∧
      (q.edge ∈ g₁'.edges → q.edge ∈ g₁.edges) := by
  have hprocedures : g₁.procedures = g'.procedures := hb.started.assembles.procedures_eq hb'.assembles
  obtain ⟨p, hp, i, hi, htarget, position, slot, htransmits, a, o, ha, ho, rfl⟩ :=
    (mem_proposals_iff hlocal.joined).1 hq
  rw [henr.invocations] at hi
  obtain ⟨j, hj, hsite, hcaller, hins, houts, htargets, hsealed⟩ :=
    hb.started.assembles.exists_invocation hb'.assembles hedges hexcluded hi
  have htransmits := htransmits.of_sound hsound hstart fun u v d he hd =>
    (hb'.assembles.mem_edges_iff hsep hd).2 ((hb.started.assembles.mem_edges_iff hsep hd).1 he)
  refine ⟨(mem_proposals_iff hlocal'.joined).2 ⟨p, ?_, j, hj, htargets c htarget, position, slot,
    htransmits, a, o, hins ▸ ha, ?_, by rw [hcaller, hsite]⟩, ⟨i.site, rfl⟩, fun he => ?_⟩
  · rwa [procedure?, ← hprocedures, ← henr.procedures]
  · rwa [Invocation.actualOut?, houts]
  · -- an edge that is there from the start is one of an opaque call, and so it was before
    obtain ⟨j', hj', hsealed', hsite', ha', slot', ho'⟩ :=
      (hb'.started.mem_summaries_iff a o i.site).1 (mem_summaries_iff.2 he)
    rw [← hb'.enriches.invocations] at hj'
    obtain rfl := hb'.assembles.eq_of_site hj' hj (hsite'.trans hsite.symm)
    exact mem_summaries_iff.1 ((hb.started.mem_summaries_iff a o i.site).2
      ⟨i, hi, hsealed hsealed', rfl, hins ▸ ha', slot', houts ▸ ho'⟩)

end MoreCalls

/-- More calls do not take away a summary edge, unless a call ceases to be opaque and loses
    one. -/
theorem summaryEdges_subset {config' : SummaryConfig} (hsep : Separate graphs)
    (hg : build config h calls graphs = .ok g) (hg' : build config' h calls' graphs = .ok g')
    (henabled' : config'.enabled = true) (hedges : ∀ e ∈ calls.edges, e ∈ calls'.edges)
    (hexcluded : ∀ site c, c ∈ calls.excludedTargetsOf site ↔ c ∈ calls'.excludedTargetsOf site)
    (hkept : ∀ a o site, (a, o, site) ∈ g.summaryEdges → g.isOpaqueAt site = true →
      g'.isOpaqueAt site = false → (a, o, site) ∈ g'.summaryEdges) :
    ∀ e ∈ g.summaryEdges, e ∈ g'.summaryEdges := by
  obtain ⟨g₁, hb⟩ := build_eq_ok hsep hg
  obtain ⟨g₁', hb'⟩ := build_eq_ok hsep hg'
  obtain ⟨A, hA, hsettled⟩ := hb'.settled hsep henabled'
  have hprocedures : g₁.procedures = g'.procedures := hb.started.assembles.procedures_eq hb'.assembles
  have hnodes : g₁.nodes = g'.nodes := by rw [hb.started.assembles.nodes, hb'.assembles.nodes]
  have hstart : g₁.summaries ⊆ g'.summaries :=
    hb.started_subset hsep hb' hedges hexcluded henabled' hkept
  -- what the rounds of the first graph add, the rounds of the second one come to as well
  have hsound := hb.sound (E := edgesOf g'.summaries) (B := A) ?_ ?_
  · rintro ⟨a, o, site⟩ he
    obtain he | ⟨site', heq, he⟩ := hsound _ (mem_summaries_iff.1 he)
    · exact hstart (mem_summaries_iff.2 he)
    · rw [Dependence.summary.inj heq]
      exact he
  · intro g₂ henr hlocal hsound c hc q hq
    obtain ⟨hq', ⟨site, hsite⟩, hback⟩ := hb.proposed hsep hb' hedges hexcluded hstart henr hlocal
      hsettled.isLocal hsound hq
    obtain ⟨hjoined, hdone⟩ := hsettled.done c hc List.not_mem_nil _ hq'
    refine ⟨fun hjoins => ⟨site, hsite, mem_summaries_iff.2 (hsite ▸ hjoined (hnodes ▸ hjoins))⟩,
      fun hnew => hdone.resolve_left fun he => hnew (henr.edges _ (hback he))⟩
  · intro c hc
    refine hA c ?_
    rwa [definedCallables, ← hb'.enriches.procedures, ← hprocedures]

/-- A call with one more target keeps its summary edge, and so does one that stays opaque. -/
theorem newTarget_keeps : ∃ g g',
    build ⟨true, 9⟩ (declarations [⟨0⟩, ⟨1⟩, ⟨2⟩, ⟨3⟩]) (callsFrom [(0, 1)]) relays = .ok g ∧
      build ⟨true, 9⟩ (declarations [⟨0⟩, ⟨1⟩, ⟨2⟩, ⟨3⟩]) (callsFrom [(0, 1), (0, 3)]) relays = .ok g' ∧
      g.summaryEdges = [(⟨10⟩, ⟨12⟩, ⟨1⟩), (⟨3⟩, ⟨5⟩, ⟨0⟩)] ∧
      ∀ e ∈ g.summaryEdges, e ∈ g'.summaryEdges := by
  obtain ⟨g, hg, hedges, hsealed⟩ : ∃ g,
      build ⟨true, 9⟩ (declarations [⟨0⟩, ⟨1⟩, ⟨2⟩, ⟨3⟩]) (callsFrom [(0, 1)]) relays = .ok g ∧
        g.summaryEdges = [(⟨10⟩, ⟨12⟩, ⟨1⟩), (⟨3⟩, ⟨5⟩, ⟨0⟩)] ∧ g.isOpaqueAt ⟨0⟩ = false :=
    exists_ok_of_any (by cbv)
  obtain ⟨g', hg', hsealed'⟩ : ∃ g',
      build ⟨true, 9⟩ (declarations [⟨0⟩, ⟨1⟩, ⟨2⟩, ⟨3⟩]) (callsFrom [(0, 1), (0, 3)]) relays = .ok g' ∧
        g'.isOpaqueAt ⟨1⟩ = true :=
    exists_ok_of_any (by cbv)
  refine ⟨g, g', hg, hg', hedges, summaryEdges_subset relays_separate hg hg' rfl (by decide)
    (fun _ _ => Iff.rfl) fun a o site he hsite hsite' => ?_⟩
  simp only [hedges, List.mem_cons, List.not_mem_nil, or_false, Prod.mk.injEq] at he
  obtain ⟨-, -, rfl⟩ | ⟨-, -, rfl⟩ := he
  · simp [hsealed'] at hsite'
  · simp [hsealed] at hsite

/-- A call of what is not known loses its summary edge to a target that is known and returns
    something else. -/
theorem newTarget_loses : ∃ g g',
    build ⟨true, 9⟩ (declarations [⟨0⟩, ⟨1⟩, ⟨2⟩, ⟨3⟩]) (callsFrom []) relays = .ok g ∧
      build ⟨true, 9⟩ (declarations [⟨0⟩, ⟨1⟩, ⟨2⟩, ⟨3⟩]) (callsFrom [(0, 3)]) relays = .ok g' ∧
      (∀ e ∈ (callsFrom []).edges, e ∈ (callsFrom [(0, 3)]).edges) ∧
      (⟨3⟩, ⟨5⟩, ⟨0⟩) ∈ g.summaryEdges ∧ (⟨3⟩, ⟨5⟩, ⟨0⟩) ∉ g'.summaryEdges := by
  obtain ⟨g, hg, hmem⟩ : ∃ g,
      build ⟨true, 9⟩ (declarations [⟨0⟩, ⟨1⟩, ⟨2⟩, ⟨3⟩]) (callsFrom []) relays = .ok g ∧
        ((⟨3⟩, ⟨5⟩, ⟨0⟩) : NodeId × NodeId × CallSiteId) ∈ g.summaryEdges :=
    exists_ok_of_any (by cbv)
  obtain ⟨g', hg', hnot⟩ : ∃ g',
      build ⟨true, 9⟩ (declarations [⟨0⟩, ⟨1⟩, ⟨2⟩, ⟨3⟩]) (callsFrom [(0, 3)]) relays = .ok g' ∧
        ((⟨3⟩, ⟨5⟩, ⟨0⟩) : NodeId × NodeId × CallSiteId) ∉ g'.summaryEdges :=
    exists_ok_of_any (by cbv)
  exact ⟨g, g', hg, hg', fun e he => absurd he List.not_mem_nil, hmem, hnot⟩

end Building

end Slicing.SystemGraph
