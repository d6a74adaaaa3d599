import Mathlib.Data.Set.Basic
import Mathlib.Logic.Relation
import Slicing.Dependence.Summary
import Slicing.Proofs.Dependence.Assembly

/-!
# Rounds

What the rounds add that compute summary edges.

What passes through a procedure is said with a set of summaries (`SystemGraph.Transmits`), and
the proposals of a round are what passes through procedures with the summaries that the round
found (`SystemGraph.mem_proposals_iff`). Two rules carry a property from round to round:

* What is added is in a set, if all that is proposed is (`runRounds_sound`).
* When the rounds come to an end, all is there that the callables which were looked at propose
  (`runRounds_settled`). A round looks only at callables that gained an edge; those that did
  not propose what they proposed before, as the edges within a callable stay inside its graph
  (`Local.mem_proposals_of_not_grown`).
-/

namespace Slicing.SystemGraph

open ProcedureGraph Relation

/-! ## Summaries as sets -/

section Specification

variable (g : SystemGraph) (E : Set (NodeId × NodeId × CallSiteId))

/-- A node depends on another one of its callable directly, where `E` holds the summaries of
    calls. -/
def LocalStep (u v : NodeId) : Prop :=
  (∃ d, ⟨u, v, d⟩ ∈ g.edges ∧ (d = .control ∨ ∃ var, d = .data var)) ∨ ∃ site, (u, v, site) ∈ E

/-- What goes into a procedure at a position may influence what comes out in a slot. -/
def Transmits (p : Procedure) (position : Nat) (slot : OutputSlot) : Prop :=
  ∃ formalIn formalOut, p.formalIns[position]? = some formalIn ∧ (slot, formalOut) ∈ p.formalOuts ∧
    ReflTransGen (g.LocalStep E) formalIn formalOut

/-- The summaries of a graph. -/
def summaries : Set (NodeId × NodeId × CallSiteId) := {e | e ∈ g.summaryEdges}

end Specification

variable {g g' : SystemGraph} {u v : NodeId}

/-- The summaries are the summary edges. -/
theorem mem_summaries_iff {site : CallSiteId} :
    (u, v, site) ∈ g.summaries ↔ ⟨u, v, .summary site⟩ ∈ g.edges := by
  change (u, v, site) ∈ g.summaryEdges ↔ _
  rw [summaryEdges, List.mem_filterMap]
  constructor
  · rintro ⟨⟨source, target, d⟩, he, hd⟩
    cases d with
    | summary site =>
      cases hd
      exact he
    | _ => cases hd
  · intro he
    exact ⟨_, he, rfl⟩

/-- The steps within a callable are the edges within it. -/
theorem localStep_iff : g.LocalStep g.summaries u v ↔
    ∃ d : Dependence, ⟨u, v, d⟩ ∈ g.edges ∧ d.isIntraprocedural = true := by
  simp only [LocalStep, mem_summaries_iff]
  constructor
  · rintro (⟨d, he, rfl | ⟨var, rfl⟩⟩ | ⟨site, he⟩)
    · exact ⟨_, he, rfl⟩
    · exact ⟨_, he, rfl⟩
    · exact ⟨_, he, rfl⟩
  · rintro ⟨d, he, hd⟩
    cases d with
    | control => exact .inl ⟨_, he, .inl rfl⟩
    | data var => exact .inl ⟨_, he, .inr ⟨var, rfl⟩⟩
    | summary site => exact .inr ⟨site, he⟩
    | _ => cases hd

/-- The local closure of a node holds what leads to it inside of its callable. -/
theorem mem_localClosure_iff (hjoined : ∀ e ∈ g.edges, joins g.nodes e = true) :
    u ∈ g.localClosure v ↔ ReflTransGen (g.LocalStep g.summaries) u v := by
  have hnext {x y : NodeId} : y ∈ g.localSources x ↔ g.LocalStep g.summaries y x := by
    simp only [localSources, localStep_iff, List.mem_map, List.mem_filter, Bool.and_eq_true,
      beq_iff_eq]
    constructor
    · rintro ⟨e, ⟨he, rfl, hd⟩, rfl⟩
      exact ⟨_, he, hd⟩
    · rintro ⟨d, he, hd⟩
      exact ⟨_, ⟨he, rfl, hd⟩, rfl⟩
  rw [localClosure, Digraph.mem_reach_iff]
  constructor
  · intro h
    induction h with
    | refl => exact .refl
    | step _ hmem _ ih => exact .head (hnext.1 hmem) ih
  · intro h
    induction h using ReflTransGen.head_induction_on with
    | refl => exact .refl v
    | head hstep _ ih =>
      obtain ⟨d, he, -⟩ := localStep_iff.1 hstep
      exact ih.step (hnext.2 hstep) (joins_iff.1 (hjoined _ he)).1

/-! ## Adding edges -/

/-- A graph has the nodes, procedures and invocations of another one, and more edges. -/
structure Enriches (g g' : SystemGraph) : Prop where
  nodes : g'.nodes = g.nodes
  procedures : g'.procedures = g.procedures
  invocations : g'.invocations = g.invocations
  edges : ∀ e ∈ g.edges, e ∈ g'.edges

theorem Enriches.refl (g : SystemGraph) : Enriches g g := ⟨rfl, rfl, rfl, fun _ h => h⟩

theorem Enriches.trans {g'' : SystemGraph} (h : Enriches g g') (h' : Enriches g' g'') :
    Enriches g g'' :=
  ⟨h'.nodes.trans h.nodes, h'.procedures.trans h.procedures, h'.invocations.trans h.invocations,
    fun e he => h'.edges e (h.edges e he)⟩

theorem enriches_addEdge (g : SystemGraph) (e : DependenceEdge) : Enriches g (g.addEdge e) := by
  unfold addEdge
  split
  · exact ⟨rfl, rfl, rfl, fun _ h => List.mem_append_left _ h⟩
  · exact .refl g

/-- An edge is added if it joins nodes. -/
theorem mem_edges_addEdge {e e' : DependenceEdge} :
    e' ∈ (g.addEdge e).edges ↔ e' ∈ g.edges ∨ e' = e ∧ joins g.nodes e = true := by
  unfold addEdge
  split <;> simp [*]

section Adding

variable {γ : Growth} {qs : List Proposal} {q : Proposal} {e : DependenceEdge} {c : CallableId}

theorem add_of_mem (h : q.edge ∈ γ.graph.edges) : γ.add q = γ := by
  simp [Growth.add, h]

/-- A proposal that is new adds an edge, and its caller has grown. -/
theorem add_of_not_mem (h : q.edge ∉ γ.graph.edges) :
    γ.add q = ⟨γ.graph.addEdge q.edge, γ.added + 1, q.caller :: γ.grown⟩ := by
  simp [Growth.add, h]

theorem enriches_add (γ : Growth) (q : Proposal) : Enriches γ.graph (γ.add q).graph := by
  by_cases h : q.edge ∈ γ.graph.edges
  · rw [add_of_mem h]
    exact .refl _
  · rw [add_of_not_mem h]
    exact enriches_addEdge _ _

theorem enriches_foldl_add (γ : Growth) (qs : List Proposal) :
    Enriches γ.graph (qs.foldl Growth.add γ).graph := by
  induction qs generalizing γ with
  | nil => exact .refl _
  | cons q qs ih => exact (enriches_add γ q).trans (ih (γ.add q))

/-- The edges after a proposal: those before, and its own if it joins nodes. -/
theorem mem_edges_add : e ∈ (γ.add q).graph.edges ↔
    e ∈ γ.graph.edges ∨ q.edge = e ∧ joins γ.graph.nodes e = true := by
  by_cases h : q.edge ∈ γ.graph.edges
  · rw [add_of_mem h]
    refine ⟨.inl, ?_⟩
    rintro (he | ⟨rfl, -⟩)
    · exact he
    · exact h
  · rw [add_of_not_mem h, mem_edges_addEdge]
    refine or_congr_right ⟨?_, ?_⟩
    · rintro ⟨rfl, hjoins⟩
      exact ⟨rfl, hjoins⟩
    · rintro ⟨rfl, hjoins⟩
      exact ⟨rfl, hjoins⟩

/-- The edges after some proposals: those before, and those proposed that join nodes. -/
theorem mem_edges_foldl_add : e ∈ (qs.foldl Growth.add γ).graph.edges ↔
    e ∈ γ.graph.edges ∨ (∃ q ∈ qs, q.edge = e) ∧ joins γ.graph.nodes e = true := by
  induction qs generalizing γ with
  | nil => simp
  | cons q qs ih =>
    rw [List.foldl_cons, ih, mem_edges_add, (enriches_add γ q).nodes]
    rw [or_assoc, ← or_and_right]
    simp only [List.mem_cons, exists_eq_or_imp]

/-- What has grown stays noted. -/
theorem grown_subset_foldl_add (h : c ∈ γ.grown) : c ∈ (qs.foldl Growth.add γ).grown := by
  induction qs generalizing γ with
  | nil => exact h
  | cons q qs ih =>
    refine ih ?_
    by_cases hq : q.edge ∈ γ.graph.edges
    · rwa [add_of_mem hq]
    · rw [add_of_not_mem hq]
      exact List.mem_cons_of_mem _ h

/-- A callable has grown by a proposal that was new. -/
theorem exists_of_mem_grown (h : c ∈ (qs.foldl Growth.add γ).grown) :
    c ∈ γ.grown ∨ ∃ q ∈ qs, q.caller = c ∧ q.edge ∉ γ.graph.edges := by
  induction qs generalizing γ with
  | nil => exact .inl h
  | cons q qs ih =>
    rcases ih h with hc | ⟨q', hq', hcaller, hedge⟩
    · by_cases hq : q.edge ∈ γ.graph.edges
      · rw [add_of_mem hq] at hc
        exact .inl hc
      · rw [add_of_not_mem hq] at hc
        rcases List.mem_cons.1 hc with rfl | hc
        · exact .inr ⟨q, List.mem_cons_self, rfl, hq⟩
        · exact .inl hc
    · exact .inr ⟨q', List.mem_cons_of_mem _ hq', hcaller,
        fun he => hedge ((enriches_add γ q).edges _ he)⟩

/-- A proposal that was new lets a callable grow that proposed the edge. -/
theorem exists_mem_grown (hq : q ∈ qs) (hedge : q.edge ∉ γ.graph.edges) :
    ∃ q' ∈ qs, q'.edge = q.edge ∧ q'.caller ∈ (qs.foldl Growth.add γ).grown := by
  induction qs generalizing γ with
  | nil => cases hq
  | cons p qs ih =>
    by_cases hp : p.edge = q.edge
    · -- the first proposal of the edge counts
      have hgrown : p.caller ∈ (γ.add p).grown := by
        rw [add_of_not_mem (hp ▸ hedge)]
        exact List.mem_cons_self
      have hgrown : p.caller ∈ (qs.foldl Growth.add (γ.add p)).grown := grown_subset_foldl_add hgrown
      exact ⟨p, List.mem_cons_self, hp, hgrown⟩
    · rcases List.mem_cons.1 hq with rfl | hq
      · exact absurd rfl hp
      · have hedge' : q.edge ∉ (γ.add p).graph.edges := by
          rw [mem_edges_add]
          exact fun h => h.elim hedge fun h => hp h.1
        obtain ⟨q', hq', heq, hcaller⟩ := ih hq hedge'
        exact ⟨q', List.mem_cons_of_mem _ hq', heq, hcaller⟩

/-- As many edges were added as callables are noted, one for each. -/
theorem added_foldl_add (h : γ.added = γ.grown.length) :
    (qs.foldl Growth.add γ).added = (qs.foldl Growth.add γ).grown.length := by
  induction qs generalizing γ with
  | nil => exact h
  | cons q qs ih =>
    refine ih ?_
    by_cases hq : q.edge ∈ γ.graph.edges
    · rw [add_of_mem hq]
      exact h
    · rw [add_of_not_mem hq, List.length_cons, h]

theorem enriches_addAll (g : SystemGraph) (qs : List Proposal) : Enriches g (g.addAll qs).graph :=
  enriches_foldl_add { graph := g } qs

/-- The edges after all proposals: those before, and those proposed that join nodes. -/
theorem mem_edges_addAll : e ∈ (g.addAll qs).graph.edges ↔
    e ∈ g.edges ∨ (∃ q ∈ qs, q.edge = e) ∧ joins g.nodes e = true :=
  mem_edges_foldl_add

/-- A callable has grown if an edge was proposed for it that was not there. -/
theorem exists_of_mem_grown_addAll (h : c ∈ (g.addAll qs).grown) :
    ∃ q ∈ qs, q.caller = c ∧ q.edge ∉ g.edges :=
  (exists_of_mem_grown h).resolve_left List.not_mem_nil

/-- Some caller that proposed a new edge has grown. -/
theorem exists_mem_grown_addAll (hq : q ∈ qs) (hedge : q.edge ∉ g.edges) :
    ∃ q' ∈ qs, q'.edge = q.edge ∧ q'.caller ∈ (g.addAll qs).grown :=
  exists_mem_grown hq hedge

end Adding

/-! ## Proposals -/

section Proposals

variable {i : Invocation} {p : Procedure} {q : Proposal} {c : CallableId}

/-- What a procedure is found to transmit is what it transmits. -/
theorem mem_transmission_iff (hjoined : ∀ e ∈ g.edges, joins g.nodes e = true) {position : Nat}
    {slot : OutputSlot} :
    (position, slot) ∈ g.transmission p ↔ g.Transmits g.summaries p position slot := by
  simp only [transmission, Transmits, List.mem_flatMap, List.mem_map, List.mem_filter, Prod.exists,
    List.mem_zipIdx_iff_getElem?, List.contains_iff_mem, Prod.mk.injEq, mem_localClosure_iff hjoined]
  constructor
  · rintro ⟨_, formalOut, hout, formalIn, _, ⟨hin, hreach⟩, rfl, rfl⟩
    exact ⟨formalIn, formalOut, hin, hout, hreach⟩
  · rintro ⟨formalIn, formalOut, hin, hout, hreach⟩
    exact ⟨slot, formalOut, hout, formalIn, position, ⟨hin, hreach⟩, rfl, rfl⟩

/-- A proposal is the edge between two actual nodes of a call. -/
def Proposes (i : Invocation) (position : Nat) (slot : OutputSlot) (q : Proposal) : Prop :=
  ∃ a o, i.actualIns[position]? = some a ∧ i.actualOut? slot = some o ∧
    q = ⟨i.caller, a, o, .summary i.site⟩

/-- The edges proposed at a call are those of the pairs that its callee transmits. -/
theorem mem_edgesAt_iff {pairs : List (Nat × OutputSlot)} : q ∈ edgesAt i pairs ↔
    ∃ position slot, (position, slot) ∈ pairs ∧ Proposes i position slot q := by
  simp only [edgesAt, List.mem_filterMap, Prod.exists, Proposes, Option.bind_eq_bind,
    Option.bind_eq_some_iff, Option.pure_def, Option.some.injEq]
  constructor
  · rintro ⟨position, slot, hpair, a, ha, o, ho, rfl⟩
    exact ⟨position, slot, hpair, a, o, ha, ho, rfl⟩
  · rintro ⟨position, slot, hpair, a, o, ha, ho, rfl⟩
    exact ⟨position, slot, hpair, a, ha, o, ho, rfl⟩

/-- A callable proposes, at each call of it, an edge for each pair that it transmits. -/
theorem mem_proposals_iff (hjoined : ∀ e ∈ g.edges, joins g.nodes e = true) : q ∈ g.proposals c ↔
    ∃ p, g.procedure? c = some p ∧ ∃ i ∈ g.invocations, c ∈ i.targets ∧ ∃ position slot,
      g.Transmits g.summaries p position slot ∧ Proposes i position slot q := by
  -- to ask first whether anything is transmitted makes no difference
  have hcalls (p : Procedure) : q ∈ g.proposals c ∧ g.procedure? c = some p ↔
      g.procedure? c = some p ∧ q ∈ (g.invocations.filter (·.targets.contains c)).flatMap
        (edgesAt · (g.transmission p)) := by
    unfold proposals
    constructor
    · rintro ⟨hq, hp⟩
      rw [hp] at hq
      dsimp only at hq
      split at hq
      · cases hq
      · exact ⟨hp, hq⟩
    · rintro ⟨hp, hq⟩
      rw [hp]
      dsimp only
      split
      · rename_i hnone
        rw [hnone] at hq
        cases hq
      · exact ⟨hq, rfl⟩
  constructor
  · intro hq
    cases hp : g.procedure? c with
    | none =>
      rw [proposals, hp] at hq
      cases hq
    | some p =>
      obtain ⟨-, hq⟩ := (hcalls p).1 ⟨hq, hp⟩
      obtain ⟨i, hi, hq⟩ := List.mem_flatMap.1 hq
      obtain ⟨position, slot, hpair, hq⟩ := mem_edgesAt_iff.1 hq
      obtain ⟨hi, hc⟩ := List.mem_filter.1 hi
      exact ⟨p, rfl, i, hi, by simpa using hc, position, slot, (mem_transmission_iff hjoined).1 hpair, hq⟩
  · rintro ⟨p, hp, i, hi, hc, position, slot, htransmits, hq⟩
    refine ((hcalls p).2 ⟨hp, List.mem_flatMap.2 ⟨i, ?_, ?_⟩⟩).1
    · exact List.mem_filter.2 ⟨hi, by simpa using hc⟩
    · exact mem_edgesAt_iff.2 ⟨position, slot, (mem_transmission_iff hjoined).2 htransmits, hq⟩

end Proposals

/-! ## Edges of calls -/

/-- A proposal joins two actual nodes of a call. -/
structure Spans (i : Invocation) (q : Proposal) : Prop where
  caller : q.caller = i.caller
  dependence : q.edge.dependence = .summary i.site
  source : q.edge.source ∈ i.actualIns
  target : ∃ slot, (slot, q.edge.target) ∈ i.actualOuts

/-- What is proposed spans a call. -/
theorem Proposes.spans {i : Invocation} {position : Nat} {slot : OutputSlot} {q : Proposal}
    (h : Proposes i position slot q) : Spans i q := by
  obtain ⟨a, o, ha, ho, rfl⟩ := h
  obtain ⟨before, after, hslot, -⟩ := List.lookup_eq_some_iff.1 ho
  exact ⟨rfl, rfl, List.mem_of_getElem? ha, slot, hslot ▸ by simp⟩

/-- Everything passed to an opaque call may come back from it. -/
theorem mem_allThrough_iff {i : Invocation} {q : Proposal} : q ∈ allThrough i ↔
    ∃ a ∈ i.actualIns, ∃ slot o, (slot, o) ∈ i.actualOuts ∧ q = ⟨i.caller, a, o, .summary i.site⟩ := by
  simp only [allThrough, List.mem_flatMap, List.mem_map, Prod.exists, eq_comm (b := q)]

theorem spans_of_mem_allThrough {i : Invocation} {q : Proposal} (h : q ∈ allThrough i) :
    Spans i q := by
  obtain ⟨a, ha, slot, o, ho, rfl⟩ := mem_allThrough_iff.1 h
  exact ⟨rfl, rfl, ha, slot, ho⟩

/-- The edges within callables stay inside their graphs, and summary edges join actual nodes of
    calls. -/
structure Local (graphs : List ProcedureGraph) (g : SystemGraph) : Prop where
  joined : ∀ e ∈ g.edges, joins g.nodes e = true
  inside : ∀ u v d, ⟨u, v, d⟩ ∈ g.edges → (d = .control ∨ ∃ var, d = .data var) →
    ∃ c, Owns graphs c u ∧ Owns graphs c v
  across : ∀ u v site, (u, v, site) ∈ g.summaries →
    ∃ i ∈ g.invocations, i.site = site ∧ u ∈ i.actualIns ∧ ∃ slot, (slot, v) ∈ i.actualOuts
  formalOuts : ∀ p ∈ g.procedures, ∀ o ∈ p.formalOuts, Owns graphs p.callable o.2
  actualIns : ∀ i ∈ g.invocations, ∀ a ∈ i.actualIns, Owns graphs i.caller a
  actualOuts : ∀ i ∈ g.invocations, ∀ o ∈ i.actualOuts, Owns graphs i.caller o.2
  eq_of_site : ∀ i ∈ g.invocations, ∀ j ∈ g.invocations, i.site = j.site → i = j

section Locality

variable {graphs : List ProcedureGraph} {c : CallableId}

/-- Edges stay between the nodes of the callables as proposals are added. -/
theorem Local.addAll {qs : List Proposal} (h : Local graphs g)
    (hqs : ∀ q ∈ qs, ∃ i ∈ g.invocations, Spans i q) : Local graphs (g.addAll qs).graph := by
  have henr := enriches_addAll g qs
  constructor
  · intro e he
    rw [henr.nodes]
    rcases mem_edges_addAll.1 he with he | ⟨-, hjoins⟩
    · exact h.joined e he
    · exact hjoins
  · -- what is added are summary edges, which are not within a callable
    intro u v d he hd
    rcases mem_edges_addAll.1 he with he | ⟨⟨q, hq, heq⟩, -⟩
    · exact h.inside u v d he hd
    · obtain ⟨i, -, hspans⟩ := hqs q hq
      have hdep := hspans.dependence
      rw [heq] at hdep
      obtain rfl | ⟨var, rfl⟩ := hd <;> cases hdep
  · intro u v site he
    rw [henr.invocations]
    rcases mem_edges_addAll.1 (mem_summaries_iff.1 he) with he | ⟨⟨q, hq, heq⟩, -⟩
    · exact h.across u v site (mem_summaries_iff.2 he)
    · obtain ⟨i, hi, hspans⟩ := hqs q hq
      have hdep := hspans.dependence
      have hsource := hspans.source
      have htarget := hspans.target
      rw [heq] at hdep hsource htarget
      exact ⟨i, hi, (Dependence.summary.inj hdep).symm, hsource, htarget⟩
  · rw [henr.procedures]
    exact h.formalOuts
  · rw [henr.invocations]
    exact h.actualIns
  · rw [henr.invocations]
    exact h.actualOuts
  · rw [henr.invocations]
    exact h.eq_of_site

/-- A local step stays in one callable. -/
theorem Local.owns_of_step (h : Local graphs g) (hstep : g.LocalStep g.summaries u v) :
    ∃ c, Owns graphs c u ∧ Owns graphs c v := by
  obtain ⟨d, he, hd⟩ | ⟨site, he⟩ := hstep
  · exact h.inside u v d he hd
  · obtain ⟨i, hi, -, hu, slot, hv⟩ := h.across u v site he
    exact ⟨i.caller, h.actualIns i hi u hu, h.actualOuts i hi _ hv⟩

/-- What reaches a node of a callable in a graph reaches it also in another graph that has all
    the edges within this callable. -/
theorem Local.reach_of_reach (hsep : Separate graphs) (h' : Local graphs g')
    (hedges : ∀ u v, g'.LocalStep g'.summaries u v → Owns graphs c v → g.LocalStep g.summaries u v)
    (hv : Owns graphs c v) (hreach : ReflTransGen (g'.LocalStep g'.summaries) u v) :
    ReflTransGen (g.LocalStep g.summaries) u v := by
  suffices ReflTransGen (g.LocalStep g.summaries) u v ∧ Owns graphs c u from this.1
  induction hreach using ReflTransGen.head_induction_on with
  | refl => exact ⟨.refl, hv⟩
  | head hstep _ ih =>
    obtain ⟨ih, howns⟩ := ih
    obtain ⟨c', hu, hw⟩ := h'.owns_of_step hstep
    obtain rfl := hw.unique hsep howns
    exact ⟨.head (hedges _ _ hstep howns) ih, hu⟩

end Locality

/-! ## Rounds -/

section Rounds

variable {graphs : List ProcedureGraph} {callables : List CallableId}

/-- What holds of a graph and the callables to look at, and is kept by a round, holds after all
    rounds. If they came to an end then no callable is left to look at. -/
theorem runRounds_induction {P : SystemGraph → List CallableId → Prop}
    (hround : ∀ g callables, P g callables →
      P (g.summaryRound callables).graph (ascending Ident.rank (g.summaryRound callables).grown))
    (limit : Nat) (tally : SummaryTally) (fuel : Nat) (h : P g callables) :
    ∃ rest, P (runRounds limit g callables tally fuel).graph rest ∧
      ∀ t, (runRounds limit g callables tally fuel).outcome = .ok t → rest = [] := by
  induction fuel generalizing g callables tally with
  | zero => exact ⟨callables, h, nofun⟩
  | succ fuel ih =>
    rw [runRounds]
    split
    · -- the last round, which added nothing, so that no callable has grown
      rename_i hadded
      refine ⟨_, hround g callables h, fun _ _ => ?_⟩
      have hlength : (g.summaryRound callables).added = (g.summaryRound callables).grown.length :=
        added_foldl_add rfl
      have hgrown : (g.summaryRound callables).grown = [] := by
        rw [← List.length_eq_zero_iff, ← hlength]
        exact hadded
      simp [hgrown, ascending]
    · exact ih _ (hround g callables h)

/-- A round only adds edges. -/
theorem enriches_summaryRound (g : SystemGraph) (callables : List CallableId) :
    Enriches g (g.summaryRound callables).graph :=
  enriches_addAll g _

/-- A proposal joins the actual nodes of a call that may reach the callable. -/
theorem exists_spans_of_mem_proposals {c : CallableId} {q : Proposal}
    (hjoined : ∀ e ∈ g.edges, joins g.nodes e = true) (hq : q ∈ g.proposals c) :
    ∃ i ∈ g.invocations, Spans i q := by
  obtain ⟨p, -, i, hi, -, position, slot, -, hq⟩ := (mem_proposals_iff hjoined).1 hq
  exact ⟨i, hi, hq.spans⟩

/-- Edges stay between the nodes of the callables in a round. -/
theorem Local.summaryRound (h : Local graphs g) (callables : List CallableId) :
    Local graphs (g.summaryRound callables).graph := by
  refine h.addAll fun q hq => ?_
  obtain ⟨c, -, hq⟩ := List.mem_flatMap.1 hq
  exact exists_spans_of_mem_proposals h.joined hq

theorem enriches_runRounds (g : SystemGraph) (callables : List CallableId) (limit : Nat)
    (tally : SummaryTally) (fuel : Nat) : Enriches g (runRounds limit g callables tally fuel).graph := by
  obtain ⟨_, henr, -⟩ := runRounds_induction (P := fun g' _ => Enriches g g')
    (fun g' callables henr => henr.trans (enriches_summaryRound g' callables)) limit tally fuel (.refl g)
  exact henr

/-- Edges stay between the nodes of the callables in all rounds. -/
theorem Local.runRounds (h : Local graphs g) (callables : List CallableId) (limit : Nat)
    (tally : SummaryTally) (fuel : Nat) :
    Local graphs (SystemGraph.runRounds limit g callables tally fuel).graph := by
  obtain ⟨_, hlocal, -⟩ := runRounds_induction (P := fun g' _ => Local graphs g')
    (fun g' callables hlocal => hlocal.summaryRound callables) limit tally fuel h
  exact hlocal

/-- A new edge belongs to a call of a callable that has grown. -/
theorem Local.exists_of_new (h : Local graphs g) {e : DependenceEdge}
    (he : e ∈ (g.summaryRound callables).graph.edges) (hnew : e ∉ g.edges) :
    ∃ i ∈ g.invocations, e.dependence = .summary i.site ∧ Owns graphs i.caller e.target ∧
      i.caller ∈ (g.summaryRound callables).grown := by
  obtain he | ⟨⟨q, hq, rfl⟩, -⟩ := mem_edges_addAll.1 he
  · exact absurd he hnew
  · obtain ⟨q', hq', heq, hgrown⟩ := exists_mem_grown_addAll hq hnew
    obtain ⟨c, -, hq'⟩ := List.mem_flatMap.1 hq'
    obtain ⟨i, hi, hspans⟩ := exists_spans_of_mem_proposals h.joined hq'
    obtain ⟨slot, htarget⟩ := hspans.target
    rw [← heq, hspans.dependence]
    exact ⟨i, hi, rfl, h.actualOuts i hi _ htarget, hspans.caller ▸ hgrown⟩

/-- A callable that gained no edge is passed through as before. -/
theorem Local.mem_proposals_of_not_grown (hsep : Separate graphs) (h : Local graphs g)
    {c : CallableId} {q : Proposal} (hc : c ∉ (g.summaryRound callables).grown)
    (hq : q ∈ (g.summaryRound callables).graph.proposals c) : q ∈ g.proposals c := by
  have henr := enriches_summaryRound g callables
  have h' := h.summaryRound callables
  obtain ⟨p, hp, i, hi, htarget, position, slot, ⟨formalIn, formalOut, hin, hout, hreach⟩, hproposes⟩ :=
    (mem_proposals_iff h'.joined).1 hq
  have hp : g.procedure? c = some p := by rwa [procedure?, ← henr.procedures]
  obtain rfl : p.callable = c := by simpa using List.find?_some hp
  -- what reaches a formal-out does so inside the callable, where no edge is new
  have hold {u v : NodeId} {d : Dependence} (he : ⟨u, v, d⟩ ∈ (g.summaryRound callables).graph.edges)
      (hv : Owns graphs p.callable v) : ⟨u, v, d⟩ ∈ g.edges := by
    by_contra hnew
    obtain ⟨j, -, -, howns, hgrown⟩ := h.exists_of_new he hnew
    exact hc (howns.unique hsep hv ▸ hgrown)
  refine (mem_proposals_iff h.joined).2 ⟨p, hp, i, henr.invocations ▸ hi, htarget, position, slot,
    ⟨formalIn, formalOut, hin, hout, ?_⟩, hproposes⟩
  have howns := h.formalOuts p (List.mem_of_find?_eq_some hp) _ hout
  refine h'.reach_of_reach hsep (fun u v hstep hv => ?_) howns hreach
  obtain ⟨d, he, hd⟩ | ⟨site, he⟩ := hstep
  · exact .inl ⟨d, hold he hv, hd⟩
  · exact .inr ⟨site, mem_summaries_iff.2 (hold (mem_summaries_iff.1 he) hv)⟩

/-- The state of a computation that started from a graph `g₀`. The callables of `A` were looked
    at, or are to be in the next round; what passes through the others of them is there, and
    each caller that gained an edge is one of them. -/
structure Settled (graphs : List ProcedureGraph) (g₀ : SystemGraph) (A : Set CallableId)
    (g : SystemGraph) (callables : List CallableId) : Prop where
  isLocal : Local graphs g
  enriches : Enriches g₀ g
  subset : ∀ c ∈ callables, c ∈ A
  gained : ∀ e ∈ g.edges, e ∉ g₀.edges →
    ∃ i ∈ g.invocations, e.dependence = .summary i.site ∧ i.caller ∈ A
  done : ∀ c ∈ A, c ∉ callables → ∀ q ∈ g.proposals c,
    (joins g.nodes q.edge = true → q.edge ∈ g.edges) ∧ (q.edge ∈ g₀.edges ∨ q.caller ∈ A)

/-- A round keeps what is settled, with the callables that have grown in it. -/
theorem Settled.summaryRound (hsep : Separate graphs) {g₀ : SystemGraph} {A : Set CallableId}
    (h : Settled graphs g₀ A g callables) :
    Settled graphs g₀ (A ∪ {c | c ∈ (g.summaryRound callables).grown})
      (g.summaryRound callables).graph
      (ascending Ident.rank (g.summaryRound callables).grown) := by
  have henr := enriches_summaryRound g callables
  constructor
  · exact h.isLocal.summaryRound callables
  · exact h.enriches.trans henr
  · intro c hc
    exact .inr (mem_ascending.1 hc)
  · intro e he hnew
    rw [henr.invocations]
    by_cases hold : e ∈ g.edges
    · obtain ⟨i, hi, hdep, hcaller⟩ := h.gained e hold hnew
      exact ⟨i, hi, hdep, .inl hcaller⟩
    · obtain ⟨i, hi, hdep, -, hgrown⟩ := h.isLocal.exists_of_new he hold
      exact ⟨i, hi, hdep, .inr hgrown⟩
  · intro c hc hnot q hq
    rw [mem_ascending] at hnot
    have hq := h.isLocal.mem_proposals_of_not_grown hsep hnot hq
    have hcA : c ∈ A := hc.resolve_right hnot
    rw [henr.nodes]
    by_cases hlooked : c ∈ callables
    · -- the round looked at the callable
      have hmem : q ∈ callables.flatMap g.proposals := List.mem_flatMap.2 ⟨c, hlooked, hq⟩
      refine ⟨fun hjoins => mem_edges_addAll.2 (.inr ⟨⟨q, hmem, rfl⟩, hjoins⟩), ?_⟩
      obtain ⟨i, hi, hspans⟩ := exists_spans_of_mem_proposals h.isLocal.joined hq
      have hcaller {j : Invocation} (hj : j ∈ g.invocations) (hdep : q.edge.dependence = .summary j.site) :
          q.caller = j.caller := by
        have hsite : i.site = j.site := Dependence.summary.inj (hspans.dependence.symm.trans hdep)
        rw [hspans.caller, h.isLocal.eq_of_site i hi j hj hsite]
      by_cases hstart : q.edge ∈ g₀.edges
      · exact .inl hstart
      · right
        -- the edge was gained in an earlier round or in this one, for the same caller
        by_cases hold : q.edge ∈ g.edges
        · obtain ⟨j, hj, hdep, hA⟩ := h.gained _ hold hstart
          exact .inl (hcaller hj hdep ▸ hA)
        · obtain ⟨q', hq', heq, hgrown⟩ := exists_mem_grown_addAll hmem hold
          obtain ⟨c', -, hq'⟩ := List.mem_flatMap.1 hq'
          obtain ⟨j, hj, hspans'⟩ := exists_spans_of_mem_proposals h.isLocal.joined hq'
          rw [hcaller hj (heq ▸ hspans'.dependence), ← hspans'.caller]
          exact .inr hgrown
    · -- it was looked at before, and the round leaves what was there
      obtain ⟨hjoined, hcaller⟩ := h.done c hcA hlooked q hq
      exact ⟨fun hjoins => henr.edges _ (hjoined hjoins), hcaller.imp_right .inl⟩

/-- Rounds that come to an end leave nothing to be added for the callables that they looked
    at. -/
theorem runRounds_settled (hsep : Separate graphs) (h : Local graphs g) {limit : Nat}
    {tally t : SummaryTally} {fuel : Nat}
    (hrun : (runRounds limit g callables tally fuel).outcome = .ok t) :
    ∃ A, (∀ c ∈ callables, c ∈ A) ∧
      Settled graphs g A (runRounds limit g callables tally fuel).graph [] := by
  have hstart : Settled graphs g {c | c ∈ callables} g callables :=
    ⟨h, .refl g, fun _ hc => hc, fun e he hnew => absurd he hnew, fun c hc hnot => absurd hc hnot⟩
  have hround : ∀ g' callables',
      (∃ A, (∀ c ∈ callables, c ∈ A) ∧ Settled graphs g A g' callables') →
        ∃ A, (∀ c ∈ callables, c ∈ A) ∧ Settled graphs g A (g'.summaryRound callables').graph
          (ascending Ident.rank (g'.summaryRound callables').grown) := by
    rintro g' callables' ⟨A, hA, hsettled⟩
    exact ⟨_, fun c hc => Set.mem_union_left _ (hA c hc), hsettled.summaryRound hsep⟩
  obtain ⟨rest, ⟨A, hA, hsettled⟩, hrest⟩ :=
    runRounds_induction hround limit tally fuel ⟨_, fun _ hc => hc, hstart⟩
  obtain rfl := hrest t hrun
  exact ⟨A, hA, hsettled⟩

/-- What rounds add is in a set `E`, if what they propose is in it as long as they look at
    callables of `B` only. -/
theorem runRounds_sound {E : Set DependenceEdge} {B : Set CallableId} (h : Local graphs g)
    (hE : ∀ g', Enriches g g' → Local graphs g' → (∀ e ∈ g'.edges, e ∈ g.edges ∨ e ∈ E) →
      ∀ c ∈ B, ∀ q ∈ g'.proposals c, (joins g.nodes q.edge = true → q.edge ∈ E) ∧
        (q.edge ∉ g'.edges → q.caller ∈ B))
    (hB : ∀ c ∈ callables, c ∈ B) (limit : Nat) (tally : SummaryTally) (fuel : Nat) :
    ∀ e ∈ (runRounds limit g callables tally fuel).graph.edges, e ∈ g.edges ∨ e ∈ E := by
  have hround : ∀ g' callables', (Enriches g g' ∧ Local graphs g' ∧
        (∀ e ∈ g'.edges, e ∈ g.edges ∨ e ∈ E) ∧ ∀ c ∈ callables', c ∈ B) →
      Enriches g (g'.summaryRound callables').graph ∧ Local graphs (g'.summaryRound callables').graph ∧
        (∀ e ∈ (g'.summaryRound callables').graph.edges, e ∈ g.edges ∨ e ∈ E) ∧
          ∀ c ∈ ascending Ident.rank (g'.summaryRound callables').grown, c ∈ B := by
    rintro g' callables' ⟨henr, hlocal, hsound, hB⟩
    refine ⟨henr.trans (enriches_summaryRound g' callables'), hlocal.summaryRound callables', ?_, ?_⟩
    · intro e he
      obtain he | ⟨⟨q, hq, rfl⟩, hjoins⟩ := mem_edges_addAll.1 he
      · exact hsound e he
      · obtain ⟨c, hc, hq⟩ := List.mem_flatMap.1 hq
        exact .inr ((hE g' henr hlocal hsound c (hB c hc) q hq).1 (henr.nodes ▸ hjoins))
    · intro c hc
      obtain ⟨q, hq, rfl, hnew⟩ := exists_of_mem_grown_addAll (mem_ascending.1 hc)
      obtain ⟨c, hc, hq⟩ := List.mem_flatMap.1 hq
      exact (hE g' henr hlocal hsound c (hB c hc) q hq).2 hnew
  obtain ⟨rest, ⟨-, -, hsound, -⟩, -⟩ :=
    runRounds_induction hround limit tally fuel ⟨.refl g, h, fun e he => .inl he, hB⟩
  exact hsound

end Rounds

end Slicing.SystemGraph
