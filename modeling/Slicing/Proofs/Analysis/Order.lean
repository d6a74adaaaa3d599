import Mathlib.Logic.Equiv.Fintype
import Slicing.Proofs.Analysis.FailFast
import Slicing.Proofs.Renumbering.Lowering
import Slicing.Proofs.Renumbering.Slice
import Slicing.Proofs.Resolution

/-!
# The order of declaration

The callables of a program are analysed, and their nodes are numbered, in the order in which they
are declared. If numbers and signatures tell the declarations apart, calls are resolved in the same
way in any order (`Program.Reordered.resolve_eq`). A callable starts with another number in another
order, and its graph is the same up to that. As no two callables share a node, one renumbering takes
all graphs of a program to those of the other order (`Analysis.exists_renumbering`), and along with
them the call graph and the dependence graph.

So the order of declaration cannot be seen from outside (`Analysis.run_reordered`).
-/

namespace Slicing

open Function

/-! ## Declarations in another order -/

/-- Programs with the same types, and the same callables in another order. The numbers of types and
    of callables differ, and no type declares two methods with one signature. -/
structure Program.Reordered (program program' : Program) : Prop where
  types : program'.types = program.types
  callables : program.callables.Perm program'.callables
  types_nodup : (program.types.map (·.id)).Nodup
  callables_nodup : (program.callables.map (·.id)).Nodup
  methods_nodup : ((program.callables.filter (·.kind == .method)).map fun decl =>
    (decl.owner, decl.signature)).Nodup

namespace Program.Reordered

variable {program program' : Program} (hr : program.Reordered program')

include hr

theorem symm : program'.Reordered program where
  types := hr.types.symm
  callables := hr.callables.symm
  types_nodup := hr.types ▸ hr.types_nodup
  callables_nodup := (hr.callables.map _).nodup_iff.1 hr.callables_nodup
  methods_nodup := ((hr.callables.filter _).map _).nodup_iff.1 hr.methods_nodup

/-- The types that are named are declared in both. -/
theorem ofProgram_ok {h : Hierarchy} (hh : Hierarchy.ofProgram program = .ok h) :
    ∃ h', Hierarchy.ofProgram program' = .ok h' := by
  have hnone : Hierarchy.undeclared? program = none := by
    rw [Hierarchy.ofProgram] at hh
    split at hh
    · cases hh
    · assumption
  -- that nothing is undeclared does not depend on where it is looked for first
  have hnone' : Hierarchy.undeclared? program' = none := by
    rw [Hierarchy.undeclared?, List.find?_eq_none] at hnone ⊢
    intro t ht
    rw [hr.types] at ht ⊢
    refine hnone t ?_
    rw [List.mem_append] at ht ⊢
    exact ht.imp_right (hr.callables.map _).mem_iff.2
  exact ⟨_, by rw [Hierarchy.ofProgram, hnone']⟩

/-- A method that a type declares is the only one with its signature. -/
theorem firstMethod_iff {t : TypeId} {signature : Signature} {decl : CallableDecl} :
    program.FirstMethod t signature decl ↔ program.DeclaresMethod t signature decl := by
  constructor
  · rintro ⟨before, after, hcallables, ⟨howner, hkind, hsignature⟩, -⟩
    exact ⟨hcallables ▸ by simp, howner, hkind, hsignature⟩
  · rintro ⟨hmem, rfl, hkind, rfl⟩
    obtain ⟨before, after, hcallables⟩ := List.append_of_mem hmem
    refine ⟨before, after, hcallables, ⟨rfl, hkind, rfl⟩, ?_⟩
    rintro earlier hearlier ⟨howner, hkind', hsignature⟩
    -- an earlier one would be declared twice
    have hmem' : earlier ∈ program.callables := hcallables ▸ List.mem_append_left _ hearlier
    obtain rfl : earlier = decl := List.inj_on_of_nodup_map hr.methods_nodup
      (List.mem_filter.2 ⟨hmem', beq_iff_eq.2 hkind'⟩) (List.mem_filter.2 ⟨hmem, beq_iff_eq.2 hkind⟩)
      (Prod.ext howner hsignature)
    have hnodup := List.Nodup.of_map _ hr.callables_nodup
    rw [hcallables, List.nodup_append] at hnodup
    exact hnodup.2.2 earlier hearlier earlier List.mem_cons_self rfl

variable {h h' : Hierarchy} (hd : h.Describes program) (hd' : h'.Describes program')

include hd hd'

/-- In another order the same callable has a number. -/
theorem callable?_eq : h'.callable? = h.callable? := by
  funext c
  refine Option.ext fun decl => ?_
  rw [hd'.callable?_eq_some_iff, hd.callable?_eq_some_iff, hr.callables.mem_iff]

/-- In another order a type declares the same methods. -/
theorem declaredMethod?_eq : h'.declaredMethod? = h.declaredMethod? := by
  have hdeclares (t : TypeId) (signature : Signature) (decl : CallableDecl) :
      program'.DeclaresMethod t signature decl ↔ program.DeclaresMethod t signature decl :=
    ⟨fun ⟨hmem, howner, hkind, hsignature⟩ => ⟨hr.callables.mem_iff.2 hmem, howner, hkind, hsignature⟩,
      fun ⟨hmem, howner, hkind, hsignature⟩ => ⟨hr.callables.mem_iff.1 hmem, howner, hkind, hsignature⟩⟩
  funext t signature
  refine Option.ext fun c => ?_
  simp only [hd'.declaredMethod?_eq_some_iff, hd.declaredMethod?_eq_some_iff, hr.symm.firstMethod_iff,
    hr.firstMethod_iff, hdeclares]

theorem callableIds_eq : h'.callableIds = h.callableIds := by
  refine ascending_congr (fun _ _ => Ident.rank_injective) fun c => ?_
  rw [hd'.callables, hd.callables, (hr.callables.map _).mem_iff]

/-- Calls are resolved in the same way in any order. -/
theorem resolve_eq : h'.resolve = h.resolve := by
  have hcallable := hr.callable?_eq hd hd'
  have hdeclared := hr.declaredMethod?_eq hd hd'
  obtain ⟨types, callables⟩ := h
  obtain ⟨types', callables'⟩ := h'
  obtain rfl : types' = types := hd'.types.trans (hr.types.trans hd.types.symm)
  -- the types around a type are those of both, so only the methods they declare have to agree
  have hdispatch (root : TypeId) (signature : Signature) :
      Hierarchy.dispatchTargets ⟨types', callables'⟩ root signature =
        Hierarchy.dispatchTargets ⟨types', callables⟩ root signature := by
    simp only [Hierarchy.dispatchTargets, Hierarchy.findMethod?, hdeclared]
    rfl
  funext caller site
  simp only [Hierarchy.resolve, hcallable, hdispatch]
  rfl

theorem agrees : h.Agrees h' := by
  refine ⟨?_, hr.callable?_eq hd hd'⟩
  obtain ⟨types, callables⟩ := h
  obtain ⟨types', callables'⟩ := h'
  obtain rfl : types' = types := hd'.types.trans (hr.types.trans hd.types.symm)
  rfl

end Program.Reordered

/-! ## Call graphs -/

namespace CallGraph

variable {h h' : Hierarchy} {excluded excluded' : List CallableId} {f : NodeId → NodeId}

/-- The call graph of some callables, from their dependence graphs. -/
def ofProcedureGraphs (h : Hierarchy) (excluded : List CallableId) (graphs : List ProcedureGraph) :
    Except ResolutionError CallGraph := do
  let calls ← graphs.mapM (ProcedureGraph.callEdges h)
  return calls.flatten.foldl (addCall excluded) (ofHierarchy h excluded)

theorem ofFlowGraphs_map_graph (analyses : List LocalAnalysis) :
    ofFlowGraphs h excluded (analyses.map (·.graph)) =
      ofProcedureGraphs h excluded (analyses.map (·.toProcedureGraph)) := by
  rw [ofFlowGraphs, ofProcedureGraphs, List.mapM_map, List.mapM_map]
  rfl

/-- The call graph goes along with the numbers of the nodes, and depends on the declarations only by
    how calls are resolved. -/
theorem ofProcedureGraphs_renumber (hcallable : h'.callable? = h.callable?)
    (hcallables : h'.callableIds = h.callableIds) (hresolve : h'.resolve = h.resolve)
    (hexcluded : ∀ c, c ∈ excluded' ↔ c ∈ excluded) (graphs : List ProcedureGraph) :
    ofProcedureGraphs h' excluded' (graphs.map (·.renumber f)) =
      (ofProcedureGraphs h excluded graphs).map (·.renumber f) := by
  have hcontains (c : CallableId) : excluded'.contains c = excluded.contains c := by
    rw [Bool.eq_iff_iff, List.contains_iff_mem, List.contains_iff_mem, hexcluded]
  have hadd : addCall excluded' = addCall excluded := by
    funext g e
    rw [addCall, hcontains, addCall]
  have hedges : ProcedureGraph.callEdges h' = ProcedureGraph.callEdges h := by
    have hcalls : h'.callsAt = h.callsAt := by
      funext caller nodes
      rw [Hierarchy.callsAt, hresolve, Hierarchy.callsAt]
    funext p
    simp only [ProcedureGraph.callEdges, hcallable, hcalls]
  have hvertices : ofHierarchy h' excluded' = (ofHierarchy h excluded).renumber f := by
    simp only [ofHierarchy, hcallables, hcontains]
    change List.foldl addVertex (empty.renumber f) _ = _
    exact List.foldl_hom (·.renumber f) fun g c => addVertex_renumber g c
  rw [ofProcedureGraphs, ofProcedureGraphs, hadd, hedges, hvertices,
    mapM_map fun p => p.callEdges_renumber h]
  refine Except.map_bind fun calls => congrArg Except.ok ?_
  rw [← List.map_flatten, foldl_addCall_renumber]

end CallGraph

/-! ## Graphs of callables -/

/-- Lists of one length without repetitions differ by names only. -/
theorem exists_perm_map_eq {α : Type} {as bs : List α} (has : as.Nodup) (hbs : bs.Nodup)
    (hlength : as.length = bs.length) : ∃ ρ : Equiv.Perm α, as.map ρ = bs := by
  obtain ⟨ρ, hρ⟩ := Equiv.Perm.exists_extending_pair as.get (fun i => bs.get (i.cast hlength))
    (List.nodup_iff_injective_get.1 has)
    ((List.nodup_iff_injective_get.1 hbs).comp (Fin.cast_injective hlength))
  refine ⟨ρ, List.ext_get (by rw [List.length_map, hlength]) fun i hi hi' => ?_⟩
  simpa using hρ ⟨i, by simpa using hi⟩

namespace ProcedureGraph

/-- Graphs of a callable that differ by the number it starts with. -/
def Restarted (p p' : ProcedureGraph) : Prop :=
  ∃ p₀ n n', WellFormed p₀ ∧ p₀.exit ∈ p₀.nodeIds ∧ p = p₀.renumber (shift n) ∧ p' = p₀.renumber (shift n')

/-- What takes the numbers of one graph to those of the other takes the graph there. -/
theorem Restarted.eq_renumber {p p' : ProcedureGraph} (hp : p.Restarted p') {f : NodeId → NodeId}
    (hf : p.nodeIds.map f = p'.nodeIds) : p' = p.renumber f := by
  obtain ⟨p₀, n, n', hformed, hexit, rfl, rfl⟩ := hp
  rw [nodeIds_renumber, nodeIds_renumber, List.map_map, List.map_inj_left] at hf
  rw [renumber_renumber]
  exact hformed.renumber_congr hexit fun id hid => (hf id hid).symm

/-- Numbers that start elsewhere are as many. -/
theorem Restarted.length_eq {p p' : ProcedureGraph} (hp : p.Restarted p') :
    p.nodeIds.length = p'.nodeIds.length := by
  obtain ⟨p₀, n, n', -, -, rfl, rfl⟩ := hp
  rw [nodeIds_renumber, nodeIds_renumber, List.length_map, List.length_map]

/-- Graphs that share no node can all be renumbered together. -/
theorem exists_renumbering {graphs graphs' : List ProcedureGraph}
    (hnodup : (graphs.flatMap (·.nodeIds)).Nodup) (hnodup' : (graphs'.flatMap (·.nodeIds)).Nodup)
    (h : List.Forall₂ Restarted graphs graphs') :
    ∃ ρ : Equiv.Perm NodeId, graphs' = graphs.map (·.renumber ρ) := by
  have hlength : (graphs.flatMap (·.nodeIds)).length = (graphs'.flatMap (·.nodeIds)).length := by
    clear hnodup hnodup'
    induction h with
    | nil => rfl
    | cons hp _ ih =>
      rw [List.flatMap_cons, List.flatMap_cons, List.length_append, List.length_append, hp.length_eq, ih]
  obtain ⟨ρ, hmap⟩ := exists_perm_map_eq hnodup hnodup' hlength
  refine ⟨ρ, ?_⟩
  clear hnodup hnodup' hlength
  -- the lists of all numbers are cut where the graphs end, which is at the same lengths
  induction h with
  | nil => rfl
  | cons hp _ ih =>
    rw [List.flatMap_cons, List.flatMap_cons, List.map_append] at hmap
    obtain ⟨hfirst, hrest⟩ := List.append_inj hmap (by rw [List.length_map, hp.length_eq])
    rw [List.map_cons, ← hp.eq_renumber hfirst, ← ih hrest]

end ProcedureGraph

namespace Analysis

variable {h h' : Hierarchy} {decls : List CallableDecl}

/-- The outcome of a callable is the same up to the number that it starts with. -/
theorem build_bind_ofGraph (hagrees : h.Agrees h') (decl : CallableDecl) (n : Nat) :
    (FlowGraph.build h' decl n).1 >>= LocalAnalysis.ofGraph =
      renumbered (shift n) (·.renumber (shift n)) (outcomeAfter h [] decl) := by
  have hbuild := FlowGraph.build_shift hagrees decl 0 n
  rw [Nat.zero_add] at hbuild
  rw [hbuild]
  exact renumbered_bind fun g => LocalAnalysis.ofGraph_renumber (shift_injective n) g

/-- A callable fails or not whatever number it starts with. -/
theorem failed_eq (hagrees : h.Agrees h') (decls : List CallableDecl) : failed h' decls =
    (decls.filter fun decl => !(outcomeAfter h [] decl).isOk).map (·.id) := by
  rw [failed, Hierarchy.analyseCallables]
  -- each callable starts behind the ones before it, wherever that is
  generalize 0 = n
  induction decls generalizing n with
  | nil => rfl
  | cons decl decls ih =>
    rw [FlowGraph.buildAll, List.map_cons, List.filter_cons]
    dsimp only
    rw [build_bind_ofGraph hagrees]
    cases outcomeAfter h [] decl with
    | ok a => exact ih _
    | error e => exact congrArg (decl.id :: ·) (ih _)

/-- The graph of a callable is the one that starts with the number zero, with larger numbers. -/
theorem exists_outcome (hagrees : h.Agrees h') {p : ProcedureGraph} (hp : p ∈ procedureGraphs h' decls) :
    ∃ decl ∈ decls, decl.id = p.callable ∧ ∃ n a, outcomeAfter h [] decl = .ok a ∧
      p = a.toProcedureGraph.renumber (shift n) := by
  obtain ⟨decl, g, b, hbuilt, hof, rfl⟩ := exists_build_of_graph hp
  obtain ⟨hdecl, n, -, hg⟩ := FlowGraph.mem_buildAll hbuilt
  have houtcome := build_bind_ofGraph hagrees decl n
  rw [← hg, show (Except.ok g >>= LocalAnalysis.ofGraph) = .ok b from hof] at houtcome
  obtain ⟨rfl, -⟩ := LocalAnalysis.ofGraph_eq_ok hof
  refine ⟨decl, hdecl, (FlowGraph.build_callable hg.symm).symm, n, ?_⟩
  cases ha : outcomeAfter h [] decl with
  | error e =>
    rw [ha] at houtcome
    cases houtcome
  | ok a =>
    rw [ha] at houtcome
    obtain rfl := Except.ok.inj houtcome
    exact ⟨a, rfl, a.toProcedureGraph_renumber⟩

variable {program program' : Program} (hr : program.Reordered program')

include hr

/-- The same callables fail. -/
theorem failed_perm (hagrees : h.Agrees h') :
    (failed h program.callables).Perm (failed h' program'.callables) := by
  rw [failed_eq hagrees, failed_eq (.refl h)]
  exact (hr.callables.filter _).map _

/-- The same callables are analysed. -/
theorem map_callable_procedureGraphs (hagrees : h.Agrees h') :
    (procedureGraphs h program.callables).map (·.callable) =
      (procedureGraphs h' program'.callables).map (·.callable) := by
  have hascending : ascending Ident.rank (program'.callables.map (·.id)) =
      ascending Ident.rank (program.callables.map (·.id)) :=
    ascending_congr (fun _ _ => Ident.rank_injective) fun c => (hr.callables.map _).mem_iff.symm
  rw [procedureGraphs, procedureGraphs, List.map_map, List.map_map]
  change (successes _).map (·.graph.callable) = (successes _).map (·.graph.callable)
  rw [callables_eq hr.callables_nodup, callables_eq hr.symm.callables_nodup, hascending]
  refine List.filter_congr fun c _ => ?_
  rw [Bool.not_inj_iff, Bool.eq_iff_iff, List.contains_iff_mem, List.contains_iff_mem,
    (failed_perm hr hagrees).mem_iff]

/-- The graphs of the callables are the same up to their numbers. -/
theorem exists_renumbering (hagrees : h.Agrees h') : ∃ ρ : Equiv.Perm NodeId,
    procedureGraphs h' program'.callables = (procedureGraphs h program.callables).map (·.renumber ρ) := by
  refine ProcedureGraph.exists_renumbering (separate h _).nodes_nodup (separate h' _).nodes_nodup
    (forall₂_of_map_eq (map_callable_procedureGraphs hr hagrees) fun p hp p' hp' heq => ?_)
  -- two graphs of one callable come from one outcome
  obtain ⟨decl, hdecl, hid, n, a, ha, rfl⟩ := exists_outcome (.refl h) hp
  obtain ⟨decl', hdecl', hid', n', a', ha', rfl⟩ := exists_outcome hagrees hp'
  obtain rfl : decl' = decl := List.inj_on_of_nodup_map hr.callables_nodup
    (hr.callables.mem_iff.2 hdecl') hdecl (hid'.trans (heq.symm.trans hid.symm))
  obtain rfl : a' = a := Except.ok.inj (ha'.symm.trans ha)
  obtain ⟨g, hg, hof⟩ := bind_eq_ok_iff.1 ha
  exact ⟨a'.toProcedureGraph, n, n', LocalAnalysis.wellFormed hg hof,
    List.mem_cons_of_mem _ List.mem_cons_self, rfl, rfl⟩

/-- The call graph is the same up to the numbers of the calls. -/
theorem callGraph_renumber (hd : h.Describes program) (hd' : h'.Describes program') {ρ : Equiv.Perm NodeId}
    (hgraphs : procedureGraphs h' program'.callables =
      (procedureGraphs h program.callables).map (·.renumber ρ)) :
    CallGraph.ofFlowGraphs h' (failed h' program'.callables) (flowGraphs h' program'.callables) =
      (CallGraph.ofFlowGraphs h (failed h program.callables) (flowGraphs h program.callables)).map
        (·.renumber ρ) := by
  have hagrees := hr.agrees hd hd'
  rw [flowGraphs, CallGraph.ofFlowGraphs_map_graph, flowGraphs, CallGraph.ofFlowGraphs_map_graph]
  change CallGraph.ofProcedureGraphs h' _ (procedureGraphs h' _) =
    (CallGraph.ofProcedureGraphs h _ (procedureGraphs h _)).map _
  rw [hgraphs]
  exact CallGraph.ofProcedureGraphs_renumber hagrees.callable? (hr.callableIds_eq hd hd')
    (hr.resolve_eq hd hd') (fun c => (failed_perm hr hagrees).mem_iff.symm) _

omit hr

/-! ## Reports -/

/-- Two analyses cannot be told apart but by the numbers of nodes and the order of the failures. -/
structure SameReport (a a' : Analysis) : Prop where
  failures : (a.failures.map (·.callable)).Perm (a'.failures.map (·.callable))
  targets : ∀ site, a'.callGraph.targetsOf site = a.callGraph.targetsOf site
  stats : a'.system.statsJson = a.system.statsJson
  tally : a'.system.tally = a.system.tally
  summaries : ∀ site position slot,
    a'.system.Summarises site position slot ↔ a.system.Summarises site position slot
  slices : ∀ config s s', Slicer.Serves a.system config s → Slicer.Serves a'.system config s' →
    ∀ (c : Criterion) direction includeControl, (∀ id, c.location ≠ .node id) →
      Slice.SameAnswer (s.ask (.slice c direction includeControl)).1
        (s'.ask (.slice c direction includeControl)).1

/-- Failures are accepted unless the first one is to end the analysis. -/
theorem checkFailures_eq_ok_iff {config : Config} {failures : List Failure} :
    checkFailures config failures = .ok () ↔ (config.failFast = true → failures = []) := by
  cases hfast : config.failFast <;> cases failures <;> simp [checkFailures, hfast]

/-- A program whose analysis succeeds has the same report in any order of its callables. -/
theorem exists_sameReport {config : Config} {a : Analysis} (hr : program.Reordered program')
    (ha : run config program = .ok a) : ∃ a', run config program' = .ok a' ∧ a.SameReport a' := by
  obtain ⟨hconfig, h, calls, system, hh, hfailures, hcalls, hsystem, rfl⟩ := run_eq_ok_iff.1 ha
  obtain ⟨h', hh'⟩ := hr.ofProgram_ok hh
  have hd := Hierarchy.describes_of_ofProgram hh hr.types_nodup hr.callables_nodup
  have hd' := Hierarchy.describes_of_ofProgram hh' hr.symm.types_nodup hr.symm.callables_nodup
  have hagrees := hr.agrees hd hd'
  have hfailed := failed_perm hr hagrees
  -- the stages behind the hierarchy succeed one after another, with the numbers changed
  have hfailures' : checkFailures config (failuresOf (h'.analyseCallables program'.callables)) = .ok () := by
    rw [checkFailures_eq_ok_iff] at hfailures ⊢
    intro hfast
    rw [failed, failed, hfailures hfast] at hfailed
    exact List.map_eq_nil_iff.1 hfailed.nil_eq.symm
  obtain ⟨ρ, hgraphs⟩ := exists_renumbering hr hagrees
  have hcalls' := callGraph_renumber hr hd hd' hgraphs
  rw [hcalls] at hcalls'
  have hsystem' := SystemGraph.build_renumber ρ.injective config.summaries h calls
    (procedureGraphs h program.callables)
  rw [← hgraphs, ← SystemGraph.build_congr hagrees.callable?, hsystem] at hsystem'
  refine ⟨_, run_eq_ok_iff.2 ⟨hconfig, h', _, _, hh', hfailures', hcalls', hsystem', rfl⟩, hfailed,
    fun site => CallGraph.targetsOf_renumber calls site, system.statsJson_renumber, rfl,
    fun site position slot => system.summarises_renumber ρ.injective,
    fun config s s' hs hs' c direction includeControl hc => ?_⟩
  exact hs.sameAnswer ρ.injective hs' hc direction includeControl

/-- The order in which the callables of a program are declared, analysed and numbered makes no
    difference: the analysis succeeds in both orders or fails in both, and its report is the same. -/
theorem run_reordered (config : Config) (hr : program.Reordered program') :
    ((∃ a, run config program = .ok a) ↔ ∃ a', run config program' = .ok a') ∧
      ∀ a a', run config program = .ok a → run config program' = .ok a' → a.SameReport a' := by
  refine ⟨⟨?_, ?_⟩, fun a a' ha ha' => ?_⟩
  · rintro ⟨a, ha⟩
    exact (exists_sameReport hr ha).imp fun _ => And.left
  · rintro ⟨a', ha'⟩
    exact (exists_sameReport hr.symm ha').imp fun _ => And.left
  · obtain ⟨b, hb, hreport⟩ := exists_sameReport hr ha
    obtain rfl := Except.ok.inj (hb.symm.trans ha')
    exact hreport

/-- A program whose callables are declared from the last to the first. The call in it is made at other
    nodes, and is summarised there. -/
theorem brokenOverride_reversed : ∃ a a',
    run { Config.ofPreset .thorough with failFast := false } brokenOverride = .ok a ∧
      run { Config.ofPreset .thorough with failFast := false }
        { brokenOverride with callables := brokenOverride.callables.reverse } = .ok a' ∧
      a.system.summaryEdges = [(⟨12⟩, ⟨14⟩, ⟨0⟩)] ∧ a'.system.summaryEdges = [(⟨3⟩, ⟨5⟩, ⟨0⟩)] ∧
      a.SameReport a' := by
  have hr : brokenOverride.Reordered { brokenOverride with callables := brokenOverride.callables.reverse } :=
    ⟨rfl, (List.reverse_perm _).symm, by decide, by decide, by decide⟩
  obtain ⟨a, ha, hedges⟩ : ∃ a, run { Config.ofPreset .thorough with failFast := false } brokenOverride =
      .ok a ∧ a.system.summaryEdges = [(⟨12⟩, ⟨14⟩, ⟨0⟩)] := SystemGraph.exists_ok_of_any (by cbv)
  obtain ⟨a', ha', hedges'⟩ : ∃ a', run { Config.ofPreset .thorough with failFast := false }
      { brokenOverride with callables := brokenOverride.callables.reverse } = .ok a' ∧
        a'.system.summaryEdges = [(⟨3⟩, ⟨5⟩, ⟨0⟩)] := SystemGraph.exists_ok_of_any (by cbv)
  exact ⟨a, a', ha, ha', hedges, hedges', (run_reordered _ hr).2 a a' ha ha'⟩

end Analysis

end Slicing
