import Slicing.Proofs.Analysis.Outcomes
import Slicing.Proofs.Dependence.Exactness

/-!
# Callables that fail

A callable that fails takes no part in what follows. The later stages agree on the others: each
edge of the call graph starts at a call site that was lowered and leads to a callable that has a
graph, so that the dependence graph can be put together (`Analysis.assemble_ok`) and only the
summaries may take too many rounds (`Analysis.build_ok_or_nontermination`).

What a call site may reach is split into callables that were analysed and callables that failed. A
site with a target that failed is opaque, and all that goes in there may influence all that comes
out (`Analysis.failures_isolated`).
-/

namespace Slicing

namespace SystemGraph

open ProcedureGraph

variable {h : Hierarchy} {calls : CallGraph} {graphs : List ProcedureGraph} {g : SystemGraph}

/-- What is built of an assembled graph. -/
theorem build_of_assemble (config : SummaryConfig) (hg : assemble h calls graphs = .ok g) :
    build config h calls graphs =
      if config.enabled then
        (g.addOpaqueSummaries.graph.computeSummaries config.maxRounds.toNat).outcome.map fun tally =>
          { (g.addOpaqueSummaries.graph.computeSummaries config.maxRounds.toNat).graph with
            tally := { tally with opaqueEdges := g.addOpaqueSummaries.added } }
      else
        .ok { g.addOpaqueSummaries.graph with tally := { opaqueEdges := g.addOpaqueSummaries.added } } := by
  rw [build, hg]
  change (if config.enabled then _ else _) = _
  split
  · cases (g.addOpaqueSummaries.graph.computeSummaries config.maxRounds.toNat).outcome <;> rfl
  · rfl

/-- What can be assembled can be built, unless the summaries are asked for and take too many
    rounds. -/
theorem build_ok_of_assemble (config : SummaryConfig) (hg : assemble h calls graphs = .ok g) :
    (∃ g', build config h calls graphs = .ok g') ∨ config.enabled = true ∧
      build config h calls graphs = .error (.nontermination config.maxRounds.toNat) := by
  rw [build_of_assemble config hg]
  split
  · rename_i henabled
    obtain ⟨tally, hrun⟩ | hrun := runRounds_ok_or_nontermination config.maxRounds.toNat
      g.addOpaqueSummaries.graph g.addOpaqueSummaries.graph.definedCallables {} config.maxRounds.toNat
    · exact .inl ⟨_, by rw [computeSummaries, hrun]; rfl⟩
    · exact .inr ⟨henabled, by rw [computeSummaries, hrun]; rfl⟩
  · exact .inl ⟨_, rfl⟩

/-- The invocation of a call site, where the numbers of call sites differ. -/
theorem find?_invocation (calls : CallGraph) (procedures : List Procedure)
    (hsites : ((graphs.flatMap fun p => p.callSites.map (p.callable, ·)).map (·.2.site.id)).Nodup)
    {p : ProcedureGraph} (hp : p ∈ graphs) {s : CallSiteNodes} (hs : s ∈ p.callSites) :
    (latest (·.site.rank) (graphs.flatMap fun p =>
        p.callSites.map (Invocation.ofNodes calls procedures p.callable))).find? (·.site == s.site.id) =
      some (Invocation.ofNodes calls procedures p.callable s) := by
  have hranks : ((graphs.flatMap fun p => p.callSites.map
      (Invocation.ofNodes calls procedures p.callable)).map (·.site.rank)).Nodup := by
    have hnodup := hsites.map fun (c d : CallSiteId) => Ident.rank_injective
    simp only [List.map_map, List.map_flatMap] at hnodup ⊢
    exact hnodup
  rw [find?_eq_some_iff_of_unique fun i hi j hj heq =>
    eq_of_mem_latest hi hj (congrArg Ident.rank heq)]
  exact ⟨(latest_perm hranks).mem_iff.2 (List.mem_flatMap.2 ⟨p, hp, List.mem_map_of_mem hs⟩), rfl⟩

/-- Graphs of declared callables can be put together along calls between them. -/
theorem assemble_ok (hdeclared : ∀ p ∈ graphs, p.callable ∈ h.callableIds)
    (hsites : ((graphs.flatMap fun p => p.callSites.map (p.callable, ·)).map (·.2.site.id)).Nodup)
    (hcaller : ∀ e ∈ calls.edges, ∃ p ∈ graphs, p.callable = e.caller ∧
      ∃ s ∈ p.callSites, s.site.id = e.site ∧ s.callNode = e.node)
    (hcallee : ∀ e ∈ calls.edges, ∃ p ∈ graphs, p.callable = e.callee) :
    ∃ g, assemble h calls graphs = .ok g := by
  have hof (p : ProcedureGraph) (hp : p ∈ graphs) :
      ∃ procedure, Procedure.ofGraph h p = .ok procedure ∧ procedure.callable = p.callable := by
    obtain ⟨decl, hdecl⟩ := Hierarchy.mem_callableIds_iff.1 (hdeclared p hp)
    exact ⟨⟨p.callable, p.entry, p.exit, decl.hasBody, p.formalIns, p.formalOuts⟩, by
      rw [Procedure.ofGraph, hdecl], rfl⟩
  obtain ⟨procedures, hprocedures⟩ := exists_mapM_eq_ok fun p hp => (hof p hp).imp fun _ => And.left
  -- each edge of the call graph finds its call site and its callee
  obtain ⟨links, hlinks⟩ : ∃ links, calls.edges.mapM (linkEdges procedures (latest (·.site.rank) <|
      graphs.flatMap fun p => p.callSites.map (Invocation.ofNodes calls procedures p.callable))) =
        .ok links := by
    refine exists_mapM_eq_ok fun e he => ?_
    obtain ⟨p, hp, hcaller, s, hs, hsite, hnode⟩ := hcaller e he
    obtain ⟨callee, hcallee, heq⟩ := hcallee e he
    have hi := find?_invocation calls procedures hsites hp hs
    obtain ⟨q, hq⟩ : ∃ q, procedures.find? (·.callable == e.callee) = some q := by
      obtain ⟨procedure, hmem, hprocedure⟩ := forall₂_mem_right (mapM_eq_ok_iff.1 hprocedures).flip hcallee
      obtain ⟨procedure', hprocedure', hcallable⟩ := hof callee hcallee
      cases hprocedure.symm.trans hprocedure'
      refine Option.isSome_iff_exists.1 (List.find?_isSome.2 ⟨procedure, hmem, ?_⟩)
      exact beq_iff_eq.2 (hcallable.trans heq)
    refine ⟨interfaceEdges (Invocation.ofNodes calls procedures p.callable s) q, ?_⟩
    rw [hsite] at hi
    simp [linkEdges, hi, hq, Invocation.ofNodes, hcaller, hnode]
  exact ⟨_, bind_eq_ok_iff.2 ⟨procedures, hprocedures, bind_eq_ok_iff.2 ⟨links, hlinks, rfl⟩⟩⟩

/-- A call site that may reach a callable that was left out is opaque, and all that goes in there
    may influence all that comes out. -/
theorem Builds.opaque_of_excluded {config : SummaryConfig} {g₁ : SystemGraph}
    (hb : Builds config h calls graphs g₁ g)
    (hsites : ((graphs.flatMap fun p => p.callSites.map (p.callable, ·)).map (·.2.site.id)).Nodup)
    {p : ProcedureGraph} (hp : p ∈ graphs) {s : CallSiteNodes} (hs : s ∈ p.callSites) {c : CallableId}
    (hc : c ∈ calls.excludedTargetsOf s.site.id) : g.isOpaqueAt s.site.id = true ∧
      ∀ x ∈ s.actualIns, ∀ o ∈ s.actualOuts, (x, o.2, s.site.id) ∈ g.summaryEdges := by
  have hfind := find?_invocation calls g.procedures hsites hp hs
  rw [← hb.assembles.invocations] at hfind
  obtain ⟨hi, -⟩ := hb.assembles.invocation?_eq_some_iff.1 hfind
  have hsealed : (Invocation.ofNodes calls g.procedures p.callable s).isOpaque = true := by
    have hne : (calls.excludedTargetsOf s.site.id).isEmpty = false :=
      List.isEmpty_eq_false_iff_exists_mem.2 ⟨c, hc⟩
    simp [Invocation.ofNodes, hne]
  refine ⟨(hb.assembles.isOpaqueAt_eq hi).trans hsealed, fun x hx o ho => ?_⟩
  -- the edges are there before any summary is computed, and stay
  rw [hb.enriches.invocations] at hi
  have hstart := (hb.started.mem_summaries_iff x o.2 s.site.id).2 ⟨_, hi, hsealed, rfl, hx, o.1, ho⟩
  exact mem_summaries_iff.2 (hb.enriches.edges _ (mem_summaries_iff.1 hstart))

end SystemGraph

namespace Analysis

variable {types : List TypeDecl} {decls : List CallableDecl} {program : Program} {calls : CallGraph}

/-- The call sites of the graphs that are put together are those of the flow graphs. -/
theorem sites_procedureGraphs (h : Hierarchy) (decls : List CallableDecl) :
    ((procedureGraphs h decls).flatMap fun p => p.callSites.map (p.callable, ·)) =
      FlowGraph.sites (flowGraphs h decls) := by
  rw [procedureGraphs, flowGraphs, FlowGraph.sites, List.flatMap_map, List.flatMap_map]
  rfl

/-- The graphs of the callables of a program can be put together along its calls. -/
theorem assemble_ok (hids : (decls.map (·.id)).Nodup)
    (hcalls : ((decls.flatMap (·.calls)).map (·.id)).Nodup)
    (hok : CallGraph.ofFlowGraphs ⟨types, decls⟩ (failed ⟨types, decls⟩ decls)
      (flowGraphs ⟨types, decls⟩ decls) = .ok calls) :
    ∃ g, SystemGraph.assemble ⟨types, decls⟩ calls (procedureGraphs ⟨types, decls⟩ decls) = .ok g := by
  have hrep := represents hids hcalls hok
  have hmem {c : CallableId} : c ∈ (procedureGraphs ⟨types, decls⟩ decls).map (·.callable) ↔
      c ∈ Hierarchy.callableIds ⟨types, decls⟩ ∧ c ∉ failed ⟨types, decls⟩ decls := by
    rw [procedureGraphs, List.map_map, Hierarchy.callableIds, mem_ascending]
    exact mem_callables_iff hids
  -- callers have graphs as their sites were lowered, and callees as the others were left out
  refine SystemGraph.assemble_ok (fun p hp => (hmem.1 (List.mem_map_of_mem hp)).1) ?_
    (fun e he => ?_) (fun e he => ?_)
  · rw [sites_procedureGraphs]
    exact nodup_sites hids hcalls
  · obtain ⟨s, hs, hcaller, hsite, hnode, -⟩ := hrep.exists_site he
    rw [← sites_procedureGraphs] at hs
    obtain ⟨p, hp, hs⟩ := List.mem_flatMap.1 hs
    obtain ⟨nodes, hnodes, rfl⟩ := List.mem_map.1 hs
    exact ⟨p, hp, hcaller.symm, nodes, hnodes, hsite.symm, hnode.symm⟩
  · obtain ⟨-, -, -, -, -, hcallee⟩ := hrep.exists_site he
    exact List.mem_map.1 (hmem.2 hcallee)

/-- A method that returns `0`, an override that cannot be lowered, and a call that may reach both. -/
def brokenOverride : Program where
  types := [⟨⟨0⟩, "Base", []⟩, ⟨⟨1⟩, "Derived", [⟨0⟩]⟩]
  callables :=
    [{ id := ⟨0⟩, name := "step", kind := .method, owner := ⟨0⟩, signature := ⟨"step", ["int"]⟩
       isStatic := false, params := [⟨"p", .byValue⟩], returnsValue := true
       body := some [.returnJump ⟨⟨0⟩, "return 0", none⟩ (some .none)], span := none },
     { id := ⟨1⟩, name := "step", kind := .method, owner := ⟨1⟩, signature := ⟨"step", ["int"]⟩
       isStatic := false, params := [⟨"p", .byValue⟩], returnsValue := true
       body := some [.breakJump ⟨⟨1⟩, "break", none⟩], span := none },
     { id := ⟨2⟩, name := "main", kind := .method, owner := ⟨0⟩, signature := ⟨"main", []⟩
       isStatic := true, params := [], returnsValue := false
       body := some
        [.simple ⟨⟨2⟩, "r = s.step(x)", none⟩ ⟨["r"], [],
          [⟨⟨0⟩, "s.step(x)", .declared ⟨0⟩, .virtual (.expr ⟨0⟩), [.ofVar "x"], true, []⟩], []⟩]
       span := none }]

/-- Once the calls of a program are resolved, its dependence graph can only fail to be built
    because the summaries take too many rounds, and only if they are asked for. -/
theorem build_ok_or_nontermination (config : Config) {h : Hierarchy}
    (hids : (program.callables.map (·.id)).Nodup) (hcalls : (program.calls.map (·.id)).Nodup)
    (hh : Hierarchy.ofProgram program = .ok h)
    (hok : CallGraph.ofFlowGraphs h
      ((failuresOf (h.analyseCallables program.callables)).map (·.callable))
      ((successes (h.analyseCallables program.callables)).map (·.graph)) = .ok calls) :
    (∃ g, SystemGraph.build config.summaries h calls
        ((successes (h.analyseCallables program.callables)).map (·.toProcedureGraph)) = .ok g) ∨
      config.summaries.enabled = true ∧ SystemGraph.build config.summaries h calls
        ((successes (h.analyseCallables program.callables)).map (·.toProcedureGraph)) =
          .error (.nontermination config.summaries.maxRounds.toNat) := by
  obtain rfl := hierarchy_eq hh
  obtain ⟨g, hg⟩ := assemble_ok hids hcalls hok
  exact SystemGraph.build_ok_of_assemble config.summaries hg

/-- The override is left out, and what is left can be put together. -/
theorem brokenOverride_builds : ∃ h calls, Hierarchy.ofProgram brokenOverride = .ok h ∧
    failed h brokenOverride.callables = [⟨1⟩] ∧
    CallGraph.ofFlowGraphs h (failed h brokenOverride.callables)
      (flowGraphs h brokenOverride.callables) = .ok calls ∧ calls.targetsOf ⟨0⟩ = [⟨0⟩] ∧
    ∃ g, SystemGraph.build (Config.ofPreset .fast).summaries h calls
      (procedureGraphs h brokenOverride.callables) = .ok g := by
  obtain ⟨h, hh, hfailed⟩ : ∃ h, Hierarchy.ofProgram brokenOverride = .ok h ∧
      failed h brokenOverride.callables = [⟨1⟩] := SystemGraph.exists_ok_of_any (by cbv)
  obtain rfl := hierarchy_eq hh
  obtain ⟨calls, hcalls, htargets⟩ : ∃ calls, CallGraph.ofFlowGraphs
      ⟨brokenOverride.types, brokenOverride.callables⟩
      (failed ⟨brokenOverride.types, brokenOverride.callables⟩ brokenOverride.callables)
      (flowGraphs ⟨brokenOverride.types, brokenOverride.callables⟩ brokenOverride.callables) = .ok calls ∧
      calls.targetsOf ⟨0⟩ = [⟨0⟩] := SystemGraph.exists_ok_of_any (by cbv)
  refine ⟨_, calls, hh, hfailed, hcalls, htargets, ?_⟩
  exact (build_ok_or_nontermination (.ofPreset .fast) (by decide) (by decide) hh hcalls).resolve_right
    fun hlimit => absurd hlimit.1 (by decide)

/-- The callables that failed take no part in an analysis, and each call that may reach one of
    them is opaque. -/
theorem failures_isolated {config : Config} {a : Analysis}
    (hids : (program.callables.map (·.id)).Nodup) (hcalls : (program.calls.map (·.id)).Nodup)
    (ha : run config program = .ok a) :
    let failed := a.failures.map (·.callable)
    let analysed := (ascending Ident.rank (program.callables.map (·.id))).filter (!failed.contains ·)
    a.callables.map (·.graph.callable) = analysed ∧
      a.callables.map (·.toProcedureGraph.callable) = analysed ∧
      a.system.procedures.map (·.callable) = analysed ∧ a.callGraph.vertices = analysed ∧
      ∀ l ∈ a.callables, ∀ s ∈ l.graph.callSites, ∃ caller targets,
        a.hierarchy.callable? l.graph.callable = some caller ∧
        a.hierarchy.resolve caller s.site = .ok targets ∧
        a.callGraph.targetsOf s.site.id = targets.filter (!failed.contains ·) ∧
        a.callGraph.excludedTargetsOf s.site.id = targets.filter (failed.contains ·) ∧
        ((∃ c ∈ targets, c ∈ failed) → a.system.isOpaqueAt s.site.id = true ∧
          ∀ i ∈ s.actualIns, ∀ o ∈ s.actualOuts, (i, o.2, s.site.id) ∈ a.system.summaryEdges) := by
  intro failed analysed
  obtain ⟨-, h, calls, system, hh, -, hok, hsystem, rfl⟩ := run_eq_ok_iff.1 ha
  obtain rfl := hierarchy_eq hh
  have hsep := separate ⟨program.types, program.callables⟩ program.callables
  have hrep := represents hids hcalls hok
  obtain ⟨g₁, hb⟩ := SystemGraph.build_eq_ok hsep hsystem
  have hcallables := callables_eq (h := ⟨program.types, program.callables⟩) hids
  refine ⟨hcallables, hcallables, ?_, hrep.vertices, fun l hl s hs => ?_⟩
  · rw [hb.assembles.map_callable, procedureGraphs, List.map_map]
    exact hcallables
  · have hsite : (l.graph.callable, s) ∈ FlowGraph.sites (flowGraphs ⟨program.types, program.callables⟩
        program.callables) := List.mem_flatMap.2 ⟨l.graph, List.mem_map_of_mem hl, List.mem_map_of_mem hs⟩
    obtain ⟨caller, targets, hcaller, hr, htargets, hexcluded⟩ := hrep.targetsOf_eq hsite
    refine ⟨caller, targets, hcaller, hr, htargets, hexcluded, ?_⟩
    rintro ⟨c, hc, hfailed⟩
    refine hb.opaque_of_excluded ?_ (List.mem_map_of_mem hl) hs (c := c) ?_
    · rw [sites_procedureGraphs]
      exact nodup_sites hids hcalls
    · rw [hexcluded]
      exact List.mem_filter.2 ⟨hc, List.contains_iff_mem.2 hfailed⟩

/-- The override is left out, and what goes into the call influences what comes out, although the
    other target hands nothing on. -/
theorem brokenOverride_isolated : ∃ a,
    run { Config.ofPreset .thorough with failFast := false } brokenOverride = .ok a ∧
      a.failures.map (·.callable) = [⟨1⟩] ∧ a.callGraph.vertices = [⟨0⟩, ⟨2⟩] ∧
      a.system.isOpaqueAt ⟨0⟩ = true ∧ (⟨12⟩, ⟨14⟩, ⟨0⟩) ∈ a.system.summaryEdges := by
  obtain ⟨a, ha, hfailed, hexcluded, l, hl, s, hs, hsite, hin, hout⟩ : ∃ a,
      run { Config.ofPreset .thorough with failFast := false } brokenOverride = .ok a ∧
        a.failures.map (·.callable) = [⟨1⟩] ∧ a.callGraph.excludedTargetsOf ⟨0⟩ = [⟨1⟩] ∧
        ∃ l ∈ a.callables, ∃ s ∈ l.graph.callSites, s.site.id = ⟨0⟩ ∧ ⟨12⟩ ∈ s.actualIns ∧
          (.result, ⟨14⟩) ∈ s.actualOuts := SystemGraph.exists_ok_of_any (by cbv)
  obtain ⟨-, -, -, hvertices, hsites⟩ := failures_isolated (by decide) (by decide) ha
  obtain ⟨caller, targets, -, -, -, htargets, hsealed⟩ := hsites l hl s hs
  rw [hsite, hexcluded] at htargets
  obtain ⟨hc, hcfailed⟩ := List.mem_filter.1 (htargets ▸ List.mem_singleton_self _)
  rw [hsite] at hsealed
  obtain ⟨hsealed, hthrough⟩ := hsealed ⟨⟨1⟩, hc, List.contains_iff_mem.1 hcfailed⟩
  refine ⟨a, ha, hfailed, ?_, hsealed, hthrough _ hin _ hout⟩
  rw [hvertices, hfailed]
  cbv

end Analysis

end Slicing
