import Slicing.Proofs.CallGraph
import Slicing.Proofs.Dependence.Analysis
import Slicing.Proofs.Flow.Sites

/-!
# The outcomes of callables

Each declared callable is analysed or it fails. If the declarations have different numbers, those
that are analysed are the declared callables without those that fail (`Analysis.callables_eq`), and
if the calls of a program have different numbers as well, so have the call sites of the flow graphs
that are handed on (`Analysis.nodup_sites`). The call graph then holds what each of these sites may
reach (`Analysis.represents`).
-/

namespace Slicing

theorem FlowGraph.map_fst_buildAll (h : Hierarchy) (decls : List CallableDecl) (n : Nat) :
    (buildAll h decls n).1.map (·.1) = decls := by
  induction decls generalizing n with
  | nil => rfl
  | cons decl decls ih => exact congrArg (decl :: ·) (ih _)

namespace Analysis

variable {h : Hierarchy} {types : List TypeDecl} {decls : List CallableDecl} {c : CallableId}
  {a : LocalAnalysis}

/-- The callables that fail. -/
def failed (h : Hierarchy) (decls : List CallableDecl) : List CallableId :=
  (failuresOf (h.analyseCallables decls)).map (·.callable)

/-- The flow graphs of the callables that do not. -/
def flowGraphs (h : Hierarchy) (decls : List CallableDecl) : List FlowGraph :=
  (successes (h.analyseCallables decls)).map (·.graph)

/-! ## Outcomes -/

/-- Each callable has an outcome, in the order of the program. -/
theorem map_fst_analyseCallables (h : Hierarchy) (decls : List CallableDecl) :
    (h.analyseCallables decls).map (·.1) = decls.map (·.id) := by
  conv_rhs => rw [← FlowGraph.map_fst_buildAll h decls 0]
  rw [Hierarchy.analyseCallables, List.map_map, List.map_map]
  rfl

/-- A callable has one outcome. -/
theorem outcome_unique (hids : (decls.map (·.id)).Nodup) {x y : Except Error LocalAnalysis}
    (hx : (c, x) ∈ h.analyseCallables decls) (hy : (c, y) ∈ h.analyseCallables decls) : x = y := by
  rw [← map_fst_analyseCallables h decls] at hids
  exact congrArg Prod.snd (List.inj_on_of_nodup_map hids hx hy rfl)

/-- An analysis is about the callable whose outcome it is. -/
theorem callable_eq_of_ok (ha : (c, .ok a) ∈ h.analyseCallables decls) : a.graph.callable = c := by
  obtain ⟨⟨decl, graph⟩, hgraph, heq⟩ := List.mem_map.1 ha
  obtain ⟨rfl, hok⟩ := Prod.mk.inj heq
  obtain ⟨g, rfl, hof⟩ := bind_eq_ok_iff.1 hok
  obtain ⟨-, n, -, hg⟩ := FlowGraph.mem_buildAll hgraph
  obtain ⟨rfl, -⟩ := LocalAnalysis.ofGraph_eq_ok hof
  exact FlowGraph.build_callable hg.symm

/-- A callable has failed if its outcome is an error. -/
theorem mem_failed_iff : c ∈ failed h decls ↔ ∃ e, (c, .error e) ∈ h.analyseCallables decls := by
  simp only [failed, failuresOf, List.mem_map, List.mem_filterMap]
  constructor
  · rintro ⟨failure, ⟨⟨c, outcome⟩, hmem, hfailure⟩, rfl⟩
    cases outcome with
    | ok a => cases hfailure
    | error e =>
      cases hfailure
      exact ⟨e, hmem⟩
  · rintro ⟨e, hmem⟩
    exact ⟨⟨c, e⟩, ⟨(c, .error e), hmem, rfl⟩, rfl⟩

/-! ## Analysed callables -/

/-- What the analysed callables have is a part of what the declarations have, in the same order. -/
theorem flatMap_ok_sublist {β : Type} {f : LocalAnalysis → List β} {f' : CallableDecl → List β}
    (hf : ∀ decl n g a, (FlowGraph.build h decl n).1 = .ok g → LocalAnalysis.ofGraph g = .ok a →
      (f a).Sublist (f' decl)) :
    (((h.analyseCallables decls).filterMap fun o => o.2.toOption).flatMap f).Sublist
      (decls.flatMap f') := by
  rw [Hierarchy.analyseCallables]
  -- the induction is on the declarations, and the numbers of the later ones start anywhere
  generalize 0 = n
  induction decls generalizing n with
  | nil => exact List.Sublist.slnil
  | cons decl decls ih =>
    rw [FlowGraph.buildAll, List.map_cons, List.filterMap_cons, List.flatMap_cons]
    split
    · exact (ih _).trans (List.sublist_append_right _ _)
    · rename_i a ha
      obtain ⟨g, hg, hof⟩ := bind_eq_ok_iff.1 (toOption_eq_some_iff.1 ha)
      rw [List.flatMap_cons]
      exact (hf decl n g a hg hof).append (ih _)

/-- All callables that do not fail are handed on. -/
theorem successes_perm (hids : (decls.map (·.id)).Nodup) :
    (successes (h.analyseCallables decls)).Perm
      ((h.analyseCallables decls).filterMap fun o => o.2.toOption) := by
  have hranks : (decls.map (·.id.rank)).Nodup := by
    change (decls.map (Ident.rank ∘ (·.id))).Nodup
    rw [← List.map_map]
    exact hids.map fun _ _ heq => Ident.rank_injective heq
  refine latest_perm (hranks.sublist ?_)
  rw [List.map_eq_flatMap, List.map_eq_flatMap]
  refine flatMap_ok_sublist fun decl n g a hg hof => ?_
  obtain ⟨rfl, -⟩ := LocalAnalysis.ofGraph_eq_ok hof
  rw [FlowGraph.build_callable hg]

/-- The analyses that succeeded are the outcomes of the callables they are about. -/
theorem mem_successes_iff (hids : (decls.map (·.id)).Nodup) :
    a ∈ successes (h.analyseCallables decls) ↔
      (a.graph.callable, .ok a) ∈ h.analyseCallables decls := by
  rw [(successes_perm hids).mem_iff, List.mem_filterMap]
  constructor
  · rintro ⟨⟨c, outcome⟩, hmem, hok⟩
    rw [toOption_eq_some_iff] at hok
    cases hok
    rwa [callable_eq_of_ok hmem]
  · exact fun hmem => ⟨_, hmem, rfl⟩

/-- The callables that are analysed are those that do not fail. -/
theorem mem_callables_iff (hids : (decls.map (·.id)).Nodup) :
    c ∈ (successes (h.analyseCallables decls)).map (·.graph.callable) ↔
      c ∈ decls.map (·.id) ∧ c ∉ failed h decls := by
  rw [← map_fst_analyseCallables h decls, mem_failed_iff, List.mem_map]
  simp only [mem_successes_iff hids]
  constructor
  · rintro ⟨a, ha, rfl⟩
    refine ⟨List.mem_map_of_mem (f := (·.1)) ha, fun ⟨e, he⟩ => ?_⟩
    cases outcome_unique hids ha he
  · rintro ⟨hc, hfailed⟩
    obtain ⟨⟨c, outcome⟩, hmem, rfl⟩ := List.mem_map.1 hc
    cases outcome with
    | error e => exact absurd ⟨e, hmem⟩ hfailed
    | ok a =>
      obtain rfl := callable_eq_of_ok hmem
      exact ⟨a, hmem, rfl⟩

/-- The callables that are analysed, in ascending order. -/
theorem callables_eq (hids : (decls.map (·.id)).Nodup) :
    (successes (h.analyseCallables decls)).map (·.graph.callable) =
      (ascending Ident.rank (decls.map (·.id))).filter fun c => !(failed h decls).contains c := by
  have hlt : ((successes (h.analyseCallables decls)).map (·.graph.callable)).Pairwise
      (·.rank < ·.rank) := List.pairwise_map.2 (pairwise_latest _ _)
  have hlt' : ((ascending Ident.rank (decls.map (·.id))).filter fun c =>
      !(failed h decls).contains c).Pairwise (·.rank < ·.rank) :=
    (pairwise_ascending fun _ _ => Ident.rank_injective).filter _
  -- both lists go up and have the same members
  have hperm := (List.perm_ext_iff_of_nodup (hlt.imp fun hlt heq => Nat.ne_of_lt hlt (congrArg _ heq))
    (hlt'.imp fun hlt heq => Nat.ne_of_lt hlt (congrArg _ heq))).2 fun c => by
      rw [mem_callables_iff hids, List.mem_filter, mem_ascending]
      simp
  exact hperm.eq_of_pairwise (fun a b _ _ hab hba => absurd hab (Nat.lt_asymm hba)) hlt hlt'

/-! ## Call sites -/

/-- The call sites that are handed on have different numbers. -/
theorem nodup_sites (hids : (decls.map (·.id)).Nodup)
    (hcalls : ((decls.flatMap (·.calls)).map (·.id)).Nodup) :
    ((FlowGraph.sites (flowGraphs h decls)).map (·.2.site.id)).Nodup := by
  have hperm : ((FlowGraph.sites (flowGraphs h decls)).map (·.2.site)).Perm
      (((h.analyseCallables decls).filterMap fun o => o.2.toOption).flatMap
        (·.graph.callSites.map (·.site))) := by
    rw [FlowGraph.sites, flowGraphs, List.flatMap_map, List.map_flatMap]
    simp only [List.map_map, Function.comp_def]
    exact (successes_perm hids).flatMap_right _
  -- handing on changes the order of the callables, which does not matter, and drops the failed ones
  change ((FlowGraph.sites (flowGraphs h decls)).map ((·.id) ∘ (·.2.site))).Nodup
  rw [← List.map_map]
  refine (hperm.map _).nodup_iff.2 (hcalls.sublist (List.Sublist.map _ ?_))
  refine flatMap_ok_sublist fun decl n g a hg hof => ?_
  obtain ⟨rfl, -⟩ := LocalAnalysis.ofGraph_eq_ok hof
  exact FlowGraph.build_sites hg

/-- The call graph of a program holds what its call sites may reach. -/
theorem represents {calls : CallGraph} (hids : (decls.map (·.id)).Nodup)
    (hcalls : ((decls.flatMap (·.calls)).map (·.id)).Nodup)
    (hok : CallGraph.ofFlowGraphs h (failed h decls) (flowGraphs h decls) = .ok calls) :
    calls.Represents h (failed h decls) (FlowGraph.sites (flowGraphs h decls)) := by
  refine CallGraph.ofFlowGraphs_represents hok (nodup_sites hids hcalls) fun s hs => ?_
  obtain ⟨g, hg, hs⟩ := List.mem_flatMap.1 hs
  obtain ⟨a, ha, rfl⟩ := List.mem_map.1 hg
  obtain ⟨nodes, -, rfl⟩ := List.mem_map.1 hs
  exact ((mem_callables_iff hids).1 (List.mem_map_of_mem ha)).2

/-! ## Programs -/

variable {config : Config} {program : Program}

theorem hierarchy_eq {h : Hierarchy} (hh : Hierarchy.ofProgram program = .ok h) :
    h = ⟨program.types, program.callables⟩ := by
  rw [Hierarchy.ofProgram] at hh
  split at hh
  · cases hh
  · exact (Except.ok.inj hh).symm

/-- An analysis succeeds if all of its stages do. -/
theorem run_eq_ok_iff {a : Analysis} : run config program = .ok a ↔ config.validate = .ok () ∧
    ∃ h calls system, Hierarchy.ofProgram program = .ok h ∧
      checkFailures config (failuresOf (h.analyseCallables program.callables)) = .ok () ∧
      CallGraph.ofFlowGraphs h (failed h program.callables) (flowGraphs h program.callables) = .ok calls ∧
      SystemGraph.build config.summaries h calls (procedureGraphs h program.callables) = .ok system ∧
      a = ⟨h, program.callables.length, successes (h.analyseCallables program.callables),
        failuresOf (h.analyseCallables program.callables), calls, system, config.slicing⟩ := by
  simp only [run, bind_eq_ok_iff, mapError_eq_ok_iff]
  constructor
  · rintro ⟨⟨⟩, hconfig, h, hh, ⟨⟩, hfailures, calls, hcalls, system, hsystem, ha⟩
    exact ⟨hconfig, h, calls, system, hh, hfailures, hcalls, hsystem, (Except.ok.inj ha).symm⟩
  · rintro ⟨hconfig, h, calls, system, hh, hfailures, hcalls, hsystem, rfl⟩
    exact ⟨(), hconfig, h, hh, (), hfailures, calls, hcalls, system, hsystem, rfl⟩

end Analysis

end Slicing
