import Slicing.Proofs.Dependence.Summaries
import Slicing.Proofs.Slice.Closure

/-!
# Summary edges as shortcuts

A summary edge of a call that is not opaque stands for a walk: by a parameter-in edge into a
callee, through the callee by edges and by the summary edges of its own calls, and back by a
parameter-out edge to the same call (`SystemGraph.Builds.walk_of_edge`). Plain reachability
finds the same nodes whether or not it takes the shortcut, so that all slices and chops are the
same (`Slicer.Serves.ask_shortcut`).
-/

namespace Slicing

open ProcedureGraph Relation

/-- A node is one of a call: the call itself, or one where a value is handed over. -/
def Invocation.HasNode (i : Invocation) (n : NodeId) : Prop :=
  n = i.callNode ∨ n ∈ i.actualIns ∨ ∃ slot, (slot, n) ∈ i.actualOuts

/-! ## Walks -/

namespace SystemGraph

/-- A node belongs to a call site. -/
def AtSite (g : SystemGraph) (site : CallSiteId) (n : NodeId) : Prop :=
  ∃ i ∈ g.invocations, i.site = site ∧ i.HasNode n

/-- A call site is entered along an edge into a callee. -/
def Enters (g : SystemGraph) (site : CallSiteId) (u v : NodeId) : Prop :=
  g.AtSite site u ∧ ∃ d, ⟨u, v, d⟩ ∈ g.edges ∧ (d.kind = .call ∨ d.kind = .parameterIn)

/-- A call site is returned to along an edge out of a callee. -/
def Returns (g : SystemGraph) (site : CallSiteId) (u v : NodeId) : Prop :=
  g.AtSite site v ∧ ∃ slot, ⟨u, v, .parameterOut slot⟩ ∈ g.edges

/-- A step along an edge that is not just a shortcut, with a stack of the call sites that were
    entered. A callee is left to the call site that was entered last. If there is none then it
    is left to any of its calls. -/
inductive Walk (g : SystemGraph) : NodeId × List CallSiteId → NodeId × List CallSiteId → Prop
  | stay {u v : NodeId} {d : Dependence} {stack : List CallSiteId} : ⟨u, v, d⟩ ∈ g.edges →
      d.isIntraprocedural = true → (∀ site, d = .summary site → g.isOpaqueAt site = true) →
      Walk g (u, stack) (v, stack)
  | enter {u v : NodeId} {site : CallSiteId} {stack : List CallSiteId} : g.Enters site u v →
      Walk g (u, stack) (v, site :: stack)
  | resume {u v : NodeId} {site : CallSiteId} {stack : List CallSiteId} : g.Returns site u v →
      Walk g (u, site :: stack) (v, stack)
  | leave {u v : NodeId} {site : CallSiteId} : g.Returns site u v → Walk g (u, []) (v, [])

/-- An edge leads from a node to another that is not just a shortcut. -/
def PlainStep (g : SystemGraph) (u v : NodeId) : Prop :=
  ∃ d, ⟨u, v, d⟩ ∈ g.edges ∧ ∀ site, d = .summary site → g.isOpaqueAt site = true

variable {config : SummaryConfig} {h : Hierarchy} {calls : CallGraph} {graphs : List ProcedureGraph}
  {g g₁ : SystemGraph}

/-- A walk goes along edges that are not just shortcuts. -/
theorem Walk.plainStep {x y : NodeId × List CallSiteId} (hwalk : g.Walk x y) :
    g.PlainStep x.1 y.1 := by
  cases hwalk with
  | stay he _ hsealed => exact ⟨_, he, hsealed⟩
  | enter hmove =>
    obtain ⟨-, d, he, hkind⟩ := hmove
    refine ⟨d, he, ?_⟩
    rintro site rfl
    obtain hkind | hkind := hkind <;> cases hkind
  | resume hmove | leave hmove =>
    obtain ⟨-, slot, he⟩ := hmove
    exact ⟨_, he, nofun⟩

/-- What goes in at a call and passes through a callee comes out at the call. -/
theorem Builds.walk_of_passes (hsep : Separate graphs) (hb : Builds config h calls graphs g₁ g)
    {i : Invocation} {p : Procedure} (hcall : g.MayCall i p) {position : Nat} {slot : OutputSlot}
    {a o formalIn formalOut : NodeId} (ha : i.actualIns[position]? = some a)
    (hin : p.formalIns[position]? = some formalIn) (hout : (slot, formalOut) ∈ p.formalOuts)
    (ho : i.actualOut? slot = some o)
    (hreach : ∀ stack, ReflTransGen g.Walk (formalIn, stack) (formalOut, stack))
    (stack : List CallSiteId) : ReflTransGen g.Walk (a, stack) (o, stack) := by
  obtain ⟨before, after, hactuals, -⟩ := List.lookup_eq_some_iff.1 ho
  have hactual : (slot, o) ∈ i.actualOuts := hactuals ▸ by simp
  have henter : g.Enters i.site a formalIn :=
    ⟨⟨i, hcall.1, rfl, .inr (.inl (List.mem_of_getElem? ha))⟩, .parameterIn position,
      hb.assembles.parameterIn_mem hsep hcall ha hin, .inr rfl⟩
  have hreturn : g.Returns i.site formalOut o :=
    ⟨⟨i, hcall.1, rfl, .inr (.inr ⟨slot, hactual⟩)⟩, slot,
      hb.assembles.parameterOut_mem hsep hcall hactual hout⟩
  exact .head (.enter henter) ((hreach (i.site :: stack)).tail (.resume hreturn))

/-- Every edge within a callable stands for a walk that leaves all calls which it enters. -/
theorem Builds.walk_of_edge (hsep : Separate graphs) (hb : Builds config h calls graphs g₁ g)
    {e : DependenceEdge} (he : e ∈ g.edges) (hlocal : e.dependence.isIntraprocedural = true)
    (stack : List CallSiteId) : ReflTransGen g.Walk (e.source, stack) (e.target, stack) := by
  have hstart (e : DependenceEdge) (he : e ∈ g₁.edges) (hlocal : e.dependence.isIntraprocedural = true)
      (stack : List CallSiteId) : ReflTransGen g.Walk (e.source, stack) (e.target, stack) := by
    refine .single (.stay (hb.enriches.edges e he) hlocal fun site hd => ?_)
    have hmem : (e.source, e.target, site) ∈ g₁.summaries := mem_summaries_iff.2 (hd ▸ he)
    obtain ⟨i, hi, hsealed, rfl, -⟩ := (hb.started.mem_summaries_iff _ _ site).1 hmem
    rw [hb.assembles.isOpaqueAt_eq (hb.enriches.invocations ▸ hi), hsealed]
  have hsound := hb.sound
    (E := {e | ∀ stack, ReflTransGen g.Walk (e.source, stack) (e.target, stack)}) (B := Set.univ) ?_
    fun _ _ => trivial
  · exact (hsound e he).elim (fun he => hstart e he hlocal stack) fun hwalk => hwalk stack
  · -- what is proposed passes through a callee along edges that stand for walks, whatever was
    -- entered before
    intro g' henr hg' hsound c _ q hq
    refine ⟨fun _ => ?_, fun _ => trivial⟩
    obtain ⟨p, hp, i, hi, htarget, position, slot, ⟨formalIn, formalOut, hin, hout, hreach⟩, a, o, ha, ho,
      rfl⟩ := (mem_proposals_iff hg'.joined).1 hq
    rw [procedure?, henr.procedures, ← hb.enriches.procedures] at hp
    rw [henr.invocations, ← hb.enriches.invocations] at hi
    obtain ⟨hmem, rfl⟩ := (hb.assembles.procedure?_eq_some_iff hsep).1 hp
    refine hb.walk_of_passes hsep ⟨hi, hmem, htarget⟩ ha hin hout ho fun stack => ?_
    refine ReflTransGen.lift' (·, stack) (fun u v hstep => ?_) _ _ hreach
    obtain ⟨d, he, hd⟩ := localStep_iff.1 hstep
    exact (hsound _ he).elim (fun he => hstart _ he hd stack) fun hwalk => hwalk stack

/-- Every edge stands for a path without shortcuts. -/
theorem Builds.reach_of_edge (hsep : Separate graphs) (hb : Builds config h calls graphs g₁ g)
    {e : DependenceEdge} (he : e ∈ g.edges) : ReflTransGen g.PlainStep e.source e.target := by
  cases hlocal : e.dependence.isIntraprocedural with
  | true =>
    exact ReflTransGen.lift (p := g.PlainStep) Prod.fst (fun _ _ => Walk.plainStep) _ _
      (hb.walk_of_edge hsep he hlocal [])
  | false =>
    refine .single ⟨e.dependence, he, fun site hd => ?_⟩
    rw [hd] at hlocal
    cases hlocal

end SystemGraph

/-! ## Slices and chops -/

/-- A slice is determined by which nodes are found. -/
theorem Slice.ofNodes_congr (g : SystemGraph) (c : Criterion) (n : NodeId) (direction : Direction)
    {found found' : List NodeId} (h : ∀ m, m ∈ found ↔ m ∈ found') :
    Slice.ofNodes g c n direction found = Slice.ofNodes g c n direction found' := by
  have hcontains (m : NodeId) : found.contains m = found'.contains m := by
    rw [Bool.eq_iff_iff, List.contains_iff_mem, List.contains_iff_mem, h]
  have hnodes : ascending NodeId.rank found = ascending NodeId.rank found' :=
    ascending_congr (fun a b => by cases a; cases b; simp [NodeId.rank]) h
  simp only [Slice.ofNodes, hnodes, hcontains]

namespace Traversal

variable {g : SystemGraph} {t : Traversal} {n u v : NodeId}

/-- Without a variable, what is admissible is followed. -/
theorem step_iff {location : Location} {phase : Phase} :
    t.Step g ⟨location, none⟩ n phase u v ↔ v ∈ g.nodeIds ∧ ∃ d, t.Admissible g phase d ∧
      match t.direction with
      | .backward => ⟨v, u, d⟩ ∈ g.edges
      | .forward => ⟨u, v, d⟩ ∈ g.edges := by
  refine and_congr_right fun _ => exists_congr fun d => and_congr_right fun _ => ?_
  exact ⟨fun hedge => hedge.1,
    fun hedge => ⟨hedge, fun _ _ hvar => absurd hvar SystemGraph.not_restricts_none⟩⟩

/-- All edges are followed in a closure but the shortcuts, which are if they are to be used. -/
theorem step_iff_of_control (hcontrol : t.includeControl = true) {location : Location} :
    t.Step g ⟨location, none⟩ n .full u v ↔ v ∈ g.nodeIds ∧ ∃ d,
      (∀ site, d = .summary site → t.useSummaries = true ∨ g.isOpaqueAt site = true) ∧
      match t.direction with
      | .backward => ⟨v, u, d⟩ ∈ g.edges
      | .forward => ⟨u, v, d⟩ ∈ g.edges := by
  rw [step_iff]
  refine and_congr_right fun _ => exists_congr fun d => and_congr_left fun _ => ?_
  exact ⟨fun hadmissible => hadmissible.summary, fun hsummary => ⟨fun _ => hcontrol, hsummary, nofun, nofun⟩⟩

/-- What a traversal of all edges finds. -/
theorem mem_found_iff (hstrategy : t.strategy = .closure) (location : Location) {m : NodeId} :
    m ∈ t.found g ⟨n, none⟩ ↔ ReflTransGen (t.Step g ⟨location, none⟩ n .full) n m := by
  rw [found, hstrategy, Digraph.mem_reach_iff, reaches_iff rfl fun _ => SystemGraph.none_eq_some_iff]

/-- What a traversal finds in two phases. -/
theorem mem_found_iff_of_twoPhase (hstrategy : t.strategy = .twoPhase) (location : Location) {m : NodeId} :
    m ∈ t.found g ⟨n, none⟩ ↔ ∃ k, ReflTransGen (t.Step g ⟨location, none⟩ n .ascend) n k ∧
      ReflTransGen (t.Step g ⟨location, none⟩ n .descend) k m := by
  have hreaches (phase : Phase) (u v : NodeId) : (t.steps g ⟨n, none⟩ phase).Reaches u v ↔
      ReflTransGen (t.Step g ⟨location, none⟩ n phase) u v :=
    reaches_iff rfl fun _ => SystemGraph.none_eq_some_iff
  simp only [found, hstrategy, Digraph.mem_reachAll_iff, Digraph.mem_reach_iff, hreaches]

variable {config : SummaryConfig} {h : Hierarchy} {calls : CallGraph} {graphs : List ProcedureGraph}

/-- A traversal with shortcuts finds what one without them finds. -/
theorem mem_found_shortcut (hsep : Separate graphs) (hg : SystemGraph.build config h calls graphs = .ok g)
    (direction : Direction) {m : NodeId} :
    m ∈ (Traversal.mk direction .closure true true).found g ⟨n, none⟩ ↔
      m ∈ (Traversal.mk direction .closure true false).found g ⟨n, none⟩ := by
  obtain ⟨g₁, hb⟩ := SystemGraph.build_eq_ok hsep hg
  have hjoined {u v : NodeId} {d : Dependence} (he : ⟨u, v, d⟩ ∈ g.edges) :=
    SystemGraph.joins_iff.1 (hb.joined _ he)
  rw [mem_found_iff rfl (.node n), mem_found_iff rfl (.node n)]
  constructor
  · refine ReflTransGen.lift' id (fun u v hstep => ?_) n m
    rw [step_iff_of_control rfl] at hstep
    obtain ⟨-, d, -, hedge⟩ := hstep
    cases direction with
    | backward =>
      refine reflTransGen_swap.1 (ReflTransGen.mono (fun x y hplain => ?_) _ _ (hb.reach_of_edge hsep hedge))
      obtain ⟨d, he, hsealed⟩ := hplain
      exact (step_iff_of_control rfl).2 ⟨(hjoined he).1, d, fun site hd => .inr (hsealed site hd), he⟩
    | forward =>
      refine ReflTransGen.mono (fun x y hplain => ?_) _ _ (hb.reach_of_edge hsep hedge)
      obtain ⟨d, he, hsealed⟩ := hplain
      exact (step_iff_of_control rfl).2 ⟨(hjoined he).2, d, fun site hd => .inr (hsealed site hd), he⟩
  · refine ReflTransGen.mono (fun u v hstep => ?_) n m
    rw [step_iff_of_control rfl] at hstep ⊢
    obtain ⟨hv, d, -, hedge⟩ := hstep
    exact ⟨hv, d, fun _ _ => .inl rfl, hedge⟩

end Traversal

/-! ## Answers -/

/-- A traversal from a node of the graph finds what it reaches. -/
theorem Traversal.reach_node {g : SystemGraph} {n : NodeId} (hn : n ∈ g.nodeIds) (t : Traversal)
    (location : Location) : t.reach g ⟨location, none⟩ n = .ok (t.found g ⟨n, none⟩) := by
  obtain ⟨node, hnode⟩ := SystemGraph.exists_node?_of_mem hn
  rw [reach, origin, hnode]
  rfl

namespace Query

variable {g : SystemGraph} {config : SliceConfig} {n m : NodeId}

/-- A number is located if it is that of a node. -/
theorem locate_node : g.locate ⟨.node n, none⟩ = if n ∈ g.nodeIds then .ok n else .error (.noNode n) := by
  simp [SystemGraph.locate, SystemGraph.contains]

/-- The slice of what a location means is that of what is found from there. -/
theorem answer_slice_location (location : Location) (direction : Direction) (includeControl : Bool) :
    (Query.slice ⟨location, none⟩ direction includeControl).answer g config =
      (g.locate ⟨location, none⟩).map fun n => .ofNodes g ⟨location, none⟩ n direction
        ((config.traversal direction includeControl).found g ⟨n, none⟩) := by
  rw [answer, answerSlice]
  cases hlocate : g.locate ⟨location, none⟩ with
  | error e => rfl
  | ok n =>
    change (config.traversal direction includeControl).reach g ⟨location, none⟩ n >>= _ = _
    rw [Traversal.reach_node (SystemGraph.locate_eq_ok_iff.1 hlocate).mem_nodeIds]
    rfl

/-- The slice of a node is that of what is found from it. -/
theorem answer_slice_node (direction : Direction) (includeControl : Bool) :
    (Query.slice ⟨.node n, none⟩ direction includeControl).answer g config =
      if n ∈ g.nodeIds then .ok (.ofNodes g ⟨.node n, none⟩ n direction
        ((config.traversal direction includeControl).found g ⟨n, none⟩)) else .error (.noNode n) := by
  rw [answer_slice_location, locate_node]
  split <;> rfl

/-- The chop of two nodes is that of what is found from both of them. -/
theorem answer_chop_node :
    (Query.chop ⟨.node n, none⟩ ⟨.node m, none⟩).answer g config =
      if n ∈ g.nodeIds then
        if m ∈ g.nodeIds then .ok (.ofNodes g ⟨.node m, none⟩ m .backward
          (((config.traversal .backward config.includeControl).found g ⟨m, none⟩).filter
            (((config.traversal .forward config.includeControl).found g ⟨n, none⟩).contains ·)))
        else .error (.noNode m)
      else .error (.noNode n) := by
  rw [answer, answerChop, locate_node, locate_node]
  split
  · rename_i hn
    split
    · rename_i hm
      change ((config.traversal .backward config.includeControl).reach g ⟨.node m, none⟩ m >>= fun _ =>
        (config.traversal .forward config.includeControl).reach g ⟨.node n, none⟩ n >>= _) = _
      rw [Traversal.reach_node hm, Traversal.reach_node hn]
      rfl
    · rfl
  · rfl

end Query

namespace Slicer

variable {config : SummaryConfig} {h : Hierarchy} {calls : CallGraph} {graphs : List ProcedureGraph}
  {g : SystemGraph}

/-- Summary edges make no difference to what plain reachability finds for nodes: the slices in
    both directions and the chops are the same if they are followed and if they are not. -/
theorem Serves.ask_shortcut (hsep : Separate graphs)
    (hg : SystemGraph.build config h calls graphs = .ok g) (sc : SliceConfig)
    (hstrategy : sc.strategy = .closure) (hcontrol : sc.includeControl = true) {s s' : Slicer}
    (hs : Serves g { sc with useSummaries := true } s)
    (hs' : Serves g { sc with useSummaries := false } s') (n m : NodeId) (direction : Direction) :
    (s.ask (.slice ⟨.node n, none⟩ direction true)).1 =
        (s'.ask (.slice ⟨.node n, none⟩ direction true)).1 ∧
      (s.ask (.chop ⟨.node n, none⟩ ⟨.node m, none⟩)).1 =
        (s'.ask (.chop ⟨.node n, none⟩ ⟨.node m, none⟩)).1 := by
  -- both traversals find the same, and the answers are made of what is found
  have hfound (direction : Direction) (n m : NodeId) :
      m ∈ (Traversal.mk direction sc.strategy true true).found g ⟨n, none⟩ ↔
        m ∈ (Traversal.mk direction sc.strategy true false).found g ⟨n, none⟩ := by
    rw [hstrategy]
    exact Traversal.mem_found_shortcut hsep hg direction
  rw [hs.ask_eq, hs.ask_eq, hs'.ask_eq, hs'.ask_eq]
  constructor
  · have hslice := Slice.ofNodes_congr g ⟨.node n, none⟩ n direction (hfound direction n)
    rw [Query.answer_slice_node, Query.answer_slice_node]
    simp only [SliceConfig.traversal, hslice]
  · have hchop (k : NodeId) :
        k ∈ ((Traversal.mk .backward sc.strategy true true).found g ⟨m, none⟩).filter
            (((Traversal.mk .forward sc.strategy true true).found g ⟨n, none⟩).contains ·) ↔
          k ∈ ((Traversal.mk .backward sc.strategy true false).found g ⟨m, none⟩).filter
            (((Traversal.mk .forward sc.strategy true false).found g ⟨n, none⟩).contains ·) := by
      rw [List.mem_filter, List.mem_filter, List.contains_iff_mem, List.contains_iff_mem, hfound, hfound]
    have hslice := Slice.ofNodes_congr g ⟨.node m, none⟩ m .backward hchop
    rw [Query.answer_chop_node, Query.answer_chop_node]
    simp only [SliceConfig.traversal, hcontrol, hslice]

/-- A slice that passes by the calls of two callables which call each other. -/
theorem recursion_shortcut : ∃ g,
    SystemGraph.build ⟨true, 9⟩ (SystemGraph.declarations [⟨0⟩, ⟨1⟩, ⟨2⟩, ⟨3⟩])
        (SystemGraph.callsFrom [(0, 1), (1, 0), (1, 2)]) SystemGraph.relays = .ok g ∧
      (⟨3⟩, ⟨5⟩, ⟨0⟩) ∈ g.summaryEdges ∧
      (({ graph := g, config := ⟨.backward, .closure, true, true, 0⟩ } : Slicer).ask
          (.slice ⟨.node ⟨6⟩, none⟩ .backward true)).1 =
        (({ graph := g, config := ⟨.backward, .closure, true, false, 0⟩ } : Slicer).ask
          (.slice ⟨.node ⟨6⟩, none⟩ .backward true)).1 := by
  obtain ⟨g, hg, hmem⟩ : ∃ g, SystemGraph.build ⟨true, 9⟩
      (SystemGraph.declarations [⟨0⟩, ⟨1⟩, ⟨2⟩, ⟨3⟩])
      (SystemGraph.callsFrom [(0, 1), (1, 0), (1, 2)]) SystemGraph.relays = .ok g ∧
        ((⟨3⟩, ⟨5⟩, ⟨0⟩) : NodeId × NodeId × CallSiteId) ∈ g.summaryEdges :=
    SystemGraph.exists_ok_of_any (by cbv)
  refine ⟨g, hg, hmem, ?_⟩
  have hnew (useSummaries : Bool) : Serves g ⟨.backward, .closure, true, useSummaries, 0⟩
      { graph := g, config := ⟨.backward, .closure, true, useSummaries, 0⟩ } := .new rfl
  exact (Serves.ask_shortcut SystemGraph.relays_separate hg ⟨.backward, .closure, true, true, 0⟩
    rfl rfl (hnew true) (hnew false) ⟨6⟩ ⟨6⟩ .backward).1

end Slicer

end Slicing
