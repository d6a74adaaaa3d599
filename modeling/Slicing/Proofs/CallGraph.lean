import Slicing.CallGraph.Construction
import Slicing.Proofs.Resolution

/-!
# Call graphs of flow graphs

What a call graph holds that is made of flow graphs (`CallGraph.ofFlowGraphs`). A call site makes
one call of each callable that it may reach (`Hierarchy.Calls`). Where no two call sites have one
number, no call is lost as a repetition of another one (`CallGraph.foldl_addCall`), and so the
calls of a site are its edges and its marks (`CallGraph.Represents.targetsOf_eq`): edges to the
callables that take part, and marks for those that are left out.
-/

namespace Slicing

/-! ## Resolution -/

namespace Hierarchy

variable {h : Hierarchy} {caller : CallableDecl} {site : CallSite} {targets : List CallableId}
  {c : CallableId}

/-- A call reaches nothing, the one callable that it names, or what is found by dispatch. -/
theorem resolve_cases (hr : h.resolve caller site = .ok targets) :
    targets = [] ∨ (∃ target decl, h.callable? target = some decl ∧ targets = [target]) ∨
      ∃ root signature, targets = h.dispatchTargets root signature := by
  unfold resolve at hr
  split at hr
  · exact .inl (Except.ok.inj hr).symm
  · split at hr
    · cases hr
    · rename_i callee hcallee
      split at hr
      · dsimp only at hr
        split at hr
        · cases hr
        · split at hr
          · cases hr
          · exact .inr (.inr ⟨_, _, (Except.ok.inj hr).symm⟩)
      · exact .inr (.inl ⟨_, callee, hcallee, (Except.ok.inj hr).symm⟩)

/-- A call has no target twice. -/
theorem nodup_resolve (hr : h.resolve caller site = .ok targets) : targets.Nodup := by
  obtain rfl | ⟨target, -, -, rfl⟩ | ⟨root, signature, rfl⟩ := resolve_cases hr
  · exact List.nodup_nil
  · exact List.nodup_singleton target
  · exact nodup_ascending _ _

theorem mem_callableIds_iff : c ∈ h.callableIds ↔ ∃ decl, h.callable? c = some decl := by
  rw [callableIds, mem_ascending, ← Option.isSome_iff_exists, callable?, List.find?_isSome]
  simp

/-- A callable that is found for a signature is declared. -/
theorem mem_callableIds_of_findMethod? {t : TypeId} {signature : Signature}
    (hc : h.findMethod? t signature = some c) : c ∈ h.callableIds := by
  obtain ⟨s, -, hdeclared⟩ := List.exists_of_findSome?_eq_some hc
  have hmethod := List.find?_some hdeclared
  unfold isMethodWith at hmethod
  split at hmethod
  · rename_i decl hdecl
    exact mem_callableIds_iff.2 ⟨decl, hdecl⟩
  · cases hmethod

/-- A call reaches declared callables. -/
theorem mem_callableIds_of_resolve (hr : h.resolve caller site = .ok targets) (hc : c ∈ targets) :
    c ∈ h.callableIds := by
  obtain rfl | ⟨target, decl, hdecl, rfl⟩ | ⟨root, signature, rfl⟩ := resolve_cases hr
  · cases hc
  · rw [List.mem_singleton.1 hc]
    exact mem_callableIds_iff.2 ⟨decl, hdecl⟩
  · obtain ⟨t, -, hfind⟩ := List.mem_filterMap.1 (mem_ascending.1 hc)
    exact mem_callableIds_of_findMethod? hfind

end Hierarchy

/-! ## Calls -/

/-- The call sites of some flow graphs with their callers. -/
def FlowGraph.sites (graphs : List FlowGraph) : List (CallableId × CallSiteNodes) :=
  graphs.flatMap fun g => g.callSites.map (g.callable, ·)

/-- A call site of a caller makes some calls: one of each callable that it may reach. -/
def Hierarchy.Calls (h : Hierarchy) (s : CallableId × CallSiteNodes) (calls : List CallEdge) : Prop :=
  ∃ caller targets, h.callable? s.1 = some caller ∧ h.resolve caller s.2.site = .ok targets ∧
    calls = targets.map (⟨s.1, ·, s.2.site.id, s.2.callNode⟩)

namespace Hierarchy

variable {h : Hierarchy} {s : CallableId × CallSiteNodes} {calls : List CallEdge} {e : CallEdge}

/-- The calls of a site are made by its callable, at its node, and reach declared callables. -/
theorem Calls.mem (hc : h.Calls s calls) (he : e ∈ calls) :
    e.caller = s.1 ∧ e.site = s.2.site.id ∧ e.node = s.2.callNode ∧ e.callee ∈ h.callableIds := by
  obtain ⟨caller, targets, -, hr, rfl⟩ := hc
  obtain ⟨c, hc, rfl⟩ := List.mem_map.1 he
  exact ⟨rfl, rfl, rfl, mem_callableIds_of_resolve hr hc⟩

theorem Calls.nodup (hc : h.Calls s calls) : (calls.map (·.callee)).Nodup := by
  obtain ⟨caller, targets, -, hr, rfl⟩ := hc
  rw [List.map_map]
  exact (List.map_id targets).symm ▸ nodup_resolve hr

/-- The calls of a flow graph are those of its sites, one site after the other. -/
theorem callEdges_eq_ok {g : FlowGraph} (hok : g.callEdges h = .ok calls) :
    ∃ parts, List.Forall₂ h.Calls (g.callSites.map (g.callable, ·)) parts ∧ calls = parts.flatten := by
  rw [FlowGraph.callEdges] at hok
  split at hok
  · cases hok
  · rename_i caller hcaller
    have hid : caller.id = g.callable := by simpa using List.find?_some hcaller
    simp only [bind_eq_ok_iff, mapM_eq_ok_iff] at hok
    obtain ⟨parts, hparts, hcalls⟩ := hok
    refine ⟨parts, List.forall₂_map_left_iff.2 (hparts.imp fun nodes part hpart => ?_), ?_⟩
    · obtain ⟨targets, hr, hpart⟩ := hpart
      refine ⟨caller, targets, hcaller, hr, ?_⟩
      rw [← hid]
      exact (Except.ok.inj hpart).symm
    · exact (Except.ok.inj hcalls).symm

end Hierarchy

/-! ## Adding calls -/

namespace CallGraph

variable {g : CallGraph} {excluded : List CallableId} {calls : List CallEdge} {e : CallEdge}

/-- Callables that are no vertices yet become vertices. -/
theorem foldl_addVertex {vertices : List CallableId} (hnodup : (g.vertices ++ vertices).Nodup) :
    vertices.foldl addVertex g = { g with vertices := g.vertices ++ vertices } := by
  induction vertices generalizing g with
  | nil => simp
  | cons c vertices ih =>
    have hfresh : c ∉ g.vertices := by
      intro hc
      exact (List.nodup_append.1 hnodup).2.2 c hc c List.mem_cons_self rfl
    have hadd : g.addVertex c = { g with vertices := g.vertices ++ [c] } := by
      simp [addVertex, containsVertex, hfresh]
    rw [List.foldl_cons, hadd, ih (by simpa using hnodup)]
    simp

/-- Before any call is added there are the callables that are not excluded. -/
theorem ofHierarchy_eq (h : Hierarchy) (excluded : List CallableId) :
    ofHierarchy h excluded = ⟨h.callableIds.filter fun c => !excluded.contains c, [], []⟩ :=
  foldl_addVertex (g := .empty) ((nodup_ascending _ _).filter _)

theorem addVertex_of_mem {c : CallableId} (hc : c ∈ g.vertices) : g.addVertex c = g := by
  simp [addVertex, containsVertex, hc]

/-- A call of a site and callee that are not joined yet, between vertices. -/
structure Fresh (excluded : List CallableId) (g : CallGraph) (e : CallEdge) : Prop where
  caller : e.caller ∈ g.vertices
  callee : e.callee ∉ excluded → e.callee ∈ g.vertices
  edge : ∀ e' ∈ g.edges, (e'.site, e'.callee) ≠ (e.site, e.callee)
  mark : (e.site, e.callee) ∉ g.excluded

/-- A call that is new is added, or its callee is noted as excluded. -/
theorem Fresh.addCall (hf : Fresh excluded g e) : addCall excluded g e =
    ⟨g.vertices, g.edges ++ [e].filter (fun e => !excluded.contains e.callee),
      g.excluded ++ ([e].filter (fun e => excluded.contains e.callee)).map fun e => (e.site, e.callee)⟩ := by
  rw [CallGraph.addCall]
  by_cases he : e.callee ∈ excluded
  · simp [he, markExcluded, hf.mark]
  · have hnone : g.containsEdge e.caller e.callee e.site = false := by
      simp only [containsEdge, List.any_eq_false, Bool.and_eq_true, beq_iff_eq, not_and]
      intro e' he' ⟨_, hcallee⟩ hsite
      exact hf.edge e' he' (by rw [hcallee, hsite])
    simp [he, addEdge, hnone, addVertex_of_mem hf.caller, addVertex_of_mem (hf.callee he)]

/-- Calls that differ in their sites or callees are all added or marked, in their order. -/
theorem foldl_addCall (hcalls : ∀ e ∈ calls, Fresh excluded g e)
    (hnodup : (calls.map fun e => (e.site, e.callee)).Nodup) : calls.foldl (addCall excluded) g =
      ⟨g.vertices, g.edges ++ calls.filter fun e => !excluded.contains e.callee,
        g.excluded ++ (calls.filter fun e => excluded.contains e.callee).map fun e => (e.site, e.callee)⟩ := by
  induction calls generalizing g with
  | nil => simp
  | cons e calls ih =>
    rw [List.map_cons, List.nodup_cons] at hnodup
    have hne (e' : CallEdge) (he' : e' ∈ calls) : (e.site, e.callee) ≠ (e'.site, e'.callee) :=
      fun heq => hnodup.1 (heq ▸ List.mem_map_of_mem he')
    have hstep := (hcalls e List.mem_cons_self).addCall
    rw [List.foldl_cons, ih (fun e' he' => ?_) hnodup.2, hstep]
    · simp only [List.append_assoc, ← List.filter_append, ← List.map_append, List.singleton_append]
    · -- the later calls are still new once the first one is added, as they differ from it
      have hf := hcalls e' (List.mem_cons_of_mem _ he')
      rw [hstep]
      refine ⟨hf.caller, hf.callee, fun e'' he'' => ?_, fun hmark => ?_⟩
      · obtain he'' | he'' := List.mem_append.1 he''
        · exact hf.edge e'' he''
        · rw [List.mem_singleton.1 (List.mem_filter.1 he'').1]
          exact hne e' he'
      · obtain hmark | hmark := List.mem_append.1 hmark
        · exact hf.mark hmark
        · obtain ⟨e'', he'', heq⟩ := List.mem_map.1 hmark
          rw [List.mem_singleton.1 (List.mem_filter.1 he'').1] at heq
          exact hne e' he' heq

/-! ## Calls of flow graphs -/

variable {h : Hierarchy} {graphs : List FlowGraph} {sites : List (CallableId × CallSiteNodes)}
  {parts : List (List CallEdge)}

/-- The calls of all flow graphs are those of their sites, one site after the other. -/
theorem exists_parts {calls : List (List CallEdge)} (hok : graphs.mapM (FlowGraph.callEdges h) = .ok calls) :
    ∃ parts, List.Forall₂ h.Calls (FlowGraph.sites graphs) parts ∧ parts.flatten = calls.flatten := by
  have hcalls := mapM_eq_ok_iff.1 hok
  clear hok
  induction hcalls with
  | nil => exact ⟨[], .nil, rfl⟩
  | cons hfirst _ ih =>
    obtain ⟨first, hsites, rfl⟩ := Hierarchy.callEdges_eq_ok hfirst
    obtain ⟨rest, hrest, hflatten⟩ := ih
    refine ⟨first ++ rest, List.rel_append hsites hrest, ?_⟩
    rw [List.flatten_append, List.flatten_cons, hflatten]

/-- Every call is one of a site. -/
theorem exists_site_of_mem_parts (hparts : List.Forall₂ h.Calls sites parts) (he : e ∈ parts.flatten) :
    ∃ s ∈ sites, ∃ part, h.Calls s part ∧ e ∈ part := by
  obtain ⟨part, hpart, he⟩ := List.mem_flatten.1 he
  obtain ⟨s, hs, hcalls⟩ := forall₂_mem_right hparts hpart
  exact ⟨s, hs, part, hcalls, he⟩

/-- The calls of sites with different numbers are all different. -/
theorem nodup_calls (hparts : List.Forall₂ h.Calls sites parts)
    (hsites : (sites.map (·.2.site.id)).Nodup) :
    (parts.flatten.map fun e => (e.site, e.callee)).Nodup := by
  induction hparts with
  | nil => exact List.nodup_nil
  | @cons s part sites parts hpart hparts ih =>
    rw [List.map_cons, List.nodup_cons] at hsites
    rw [List.flatten_cons, List.map_append, List.nodup_append]
    refine ⟨.of_map (·.2) (by simpa [Function.comp_def] using hpart.nodup), ih hsites.2, ?_⟩
    -- a later call is one of a later site, which has another number
    intro p hp q hq heq
    obtain ⟨e, he, rfl⟩ := List.mem_map.1 hp
    obtain ⟨e', he', rfl⟩ := List.mem_map.1 hq
    obtain ⟨s', hs', part', hpart', he'⟩ := exists_site_of_mem_parts hparts he'
    have hsite : s'.2.site.id = s.2.site.id := by
      rw [← (hpart'.mem he').2.1, ← (hpart.mem he).2.1]
      exact (Prod.mk.inj heq).1.symm
    exact hsites.1 (List.mem_map.2 ⟨s', hs', hsite⟩)

/-- The calls of a site are those with its number. -/
theorem filter_calls (hparts : List.Forall₂ h.Calls sites parts)
    (hsites : (sites.map (·.2.site.id)).Nodup) {s : CallableId × CallSiteNodes} (hs : s ∈ sites) :
    h.Calls s (parts.flatten.filter (·.site == s.2.site.id)) := by
  induction hparts with
  | nil => cases hs
  | @cons s' part sites parts hpart hparts ih =>
    rw [List.map_cons, List.nodup_cons] at hsites
    rw [List.flatten_cons, List.filter_append]
    rcases List.mem_cons.1 hs with rfl | hs
    · -- all calls of the first site, and none behind them
      have hfirst : part.filter (·.site == s.2.site.id) = part :=
        List.filter_eq_self.2 fun e he => beq_iff_eq.2 (hpart.mem he).2.1
      have hrest : parts.flatten.filter (·.site == s.2.site.id) = [] := by
        refine List.filter_eq_nil_iff.2 fun e he heq => ?_
        obtain ⟨s', hs', part', hpart', he⟩ := exists_site_of_mem_parts hparts he
        exact hsites.1 (List.mem_map.2 ⟨s', hs', (hpart'.mem he).2.1.symm.trans (beq_iff_eq.1 heq)⟩)
      rw [hfirst, hrest, List.append_nil]
      exact hpart
    · -- a later site, which the calls of the first one do not have
      have hfirst : part.filter (·.site == s.2.site.id) = [] := by
        refine List.filter_eq_nil_iff.2 fun e he heq => ?_
        exact hsites.1 (List.mem_map.2 ⟨s, hs, (beq_iff_eq.1 heq).symm.trans (hpart.mem he).2.1⟩)
      rw [hfirst, List.nil_append]
      exact ih hsites.2 hs

/-- A call graph holds the calls that some call sites make: edges to the callables that take
    part, and marks for those that are left out. -/
structure Represents (h : Hierarchy) (excluded : List CallableId)
    (sites : List (CallableId × CallSiteNodes)) (g : CallGraph) : Prop where
  nodup : (sites.map (·.2.site.id)).Nodup
  vertices : g.vertices = h.callableIds.filter fun c => !excluded.contains c
  calls : ∃ parts, List.Forall₂ h.Calls sites parts ∧
    g.edges = (parts.flatten.filter fun e => !excluded.contains e.callee) ∧
    g.excluded =
      (parts.flatten.filter fun e => excluded.contains e.callee).map fun e => (e.site, e.callee)

/-- The call graph of flow graphs whose sites have different numbers. -/
theorem ofFlowGraphs_represents (hok : ofFlowGraphs h excluded graphs = .ok g)
    (hsites : ((FlowGraph.sites graphs).map (·.2.site.id)).Nodup)
    (hcallers : ∀ s ∈ FlowGraph.sites graphs, s.1 ∉ excluded) :
    Represents h excluded (FlowGraph.sites graphs) g := by
  obtain ⟨calls, hcalls, hg⟩ := bind_eq_ok_iff.1 hok
  obtain ⟨parts, hparts, hflatten⟩ := exists_parts hcalls
  -- the graph of the declarations has no calls, and all callables that take part
  have hfresh (e : CallEdge) (he : e ∈ parts.flatten) : Fresh excluded (ofHierarchy h excluded) e := by
    obtain ⟨s, hs, part, hpart, he⟩ := exists_site_of_mem_parts hparts he
    obtain ⟨hcaller, -, -, hcallee⟩ := hpart.mem he
    obtain ⟨decl, -, hdecl, -⟩ := hpart
    rw [ofHierarchy_eq]
    refine ⟨List.mem_filter.2 ⟨?_, ?_⟩, fun hne => List.mem_filter.2 ⟨hcallee, by simpa using hne⟩,
      nofun, nofun⟩
    · exact hcaller ▸ Hierarchy.mem_callableIds_iff.2 ⟨decl, hdecl⟩
    · simpa [hcaller] using hcallers s hs
  have hg : calls.flatten.foldl (addCall excluded) (ofHierarchy h excluded) = g := Except.ok.inj hg
  rw [← hflatten, foldl_addCall hfresh (nodup_calls hparts hsites), ofHierarchy_eq] at hg
  exact ⟨hsites, hg ▸ rfl, parts, hparts, hg ▸ rfl, hg ▸ rfl⟩

namespace Represents

variable {s : CallableId × CallSiteNodes}

/-- An edge leads from a site to a callable that takes part. -/
theorem exists_site (hg : Represents h excluded sites g) (he : e ∈ g.edges) :
    ∃ s ∈ sites, e.caller = s.1 ∧ e.site = s.2.site.id ∧ e.node = s.2.callNode ∧
      e.callee ∈ h.callableIds ∧ e.callee ∉ excluded := by
  obtain ⟨parts, hparts, hedges, -⟩ := hg.calls
  rw [hedges, List.mem_filter] at he
  obtain ⟨s, hs, part, hpart, hmem⟩ := exists_site_of_mem_parts hparts he.1
  obtain ⟨hcaller, hsite, hnode, hcallee⟩ := hpart.mem hmem
  exact ⟨s, hs, hcaller, hsite, hnode, hcallee, by simpa using he.2⟩

/-- What a site may reach is what its edges and its marks lead to. -/
theorem targetsOf_eq (hg : Represents h excluded sites g) (hs : s ∈ sites) :
    ∃ caller targets, h.callable? s.1 = some caller ∧ h.resolve caller s.2.site = .ok targets ∧
      g.targetsOf s.2.site.id = targets.filter (fun c => !excluded.contains c) ∧
      g.excludedTargetsOf s.2.site.id = targets.filter (fun c => excluded.contains c) := by
  obtain ⟨parts, hparts, hedges, hmarks⟩ := hg.calls
  obtain ⟨caller, targets, hcaller, hr, hcalls⟩ := filter_calls hparts hg.nodup hs
  refine ⟨caller, targets, hcaller, hr, ?_, ?_⟩
  · rw [targetsOf, hedges, List.filter_comm, hcalls, List.filter_map, List.map_map]
    exact List.map_id _
  · rw [excludedTargetsOf, hmarks, List.filter_map, List.map_map, List.filter_comm]
    change ((parts.flatten.filter (·.site == s.2.site.id)).filter _).map _ = _
    rw [hcalls, List.filter_map, List.map_map]
    exact List.map_id _

end Represents

end CallGraph

end Slicing
