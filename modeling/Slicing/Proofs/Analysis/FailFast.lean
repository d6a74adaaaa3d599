import Slicing.Proofs.Analysis.Isolation

/-!
# Ending at the first failure

An analysis ends at the first callable that fails, or collects the callables that fail. What is
asked for makes a difference only if there is one (`Analysis.run_failFast`). The callable at which
the analysis ends is the first in the order of declaration, whatever comes behind it; its outcome
does depend on the callables in front of it, as the numbers of its nodes start behind theirs
(`Analysis.outcomeAfter`).
-/

namespace Slicing

/-- The numbers of later callables start behind those of earlier ones. -/
theorem FlowGraph.buildAll_append (h : Hierarchy) (before after : List CallableDecl) (n : Nat) :
    (buildAll h (before ++ after) n).1 =
      (buildAll h before n).1 ++ (buildAll h after (buildAll h before n).2).1 := by
  induction before generalizing n with
  | nil => rfl
  | cons decl before ih => exact congrArg ((decl, (build h decl n).1) :: ·) (ih _)

namespace Analysis

variable {h : Hierarchy} {decls before after : List CallableDecl} {decl : CallableDecl}

/-- The outcome of a callable that is declared behind others. -/
def outcomeAfter (h : Hierarchy) (before : List CallableDecl) (decl : CallableDecl) :
    Except Error LocalAnalysis :=
  (FlowGraph.build h decl (FlowGraph.buildAll h before 0).2).1 >>= LocalAnalysis.ofGraph

/-- No callable fails. -/
def AllSucceed (h : Hierarchy) (decls : List CallableDecl) : Prop :=
  ∀ before decl after, decls = before ++ decl :: after → ∃ a, outcomeAfter h before decl = .ok a

/-- The outcome of one callable among others: it is built with the numbers that the callables before
    it leave. -/
theorem analyseCallables_append (h : Hierarchy) (before : List CallableDecl) (decl : CallableDecl)
    (after : List CallableDecl) : h.analyseCallables (before ++ decl :: after) =
      h.analyseCallables before ++ (decl.id, outcomeAfter h before decl) ::
        (FlowGraph.buildAll h after (FlowGraph.build h decl (FlowGraph.buildAll h before 0).2).2).1.map
          fun (decl, graph) => (decl.id, graph >>= LocalAnalysis.ofGraph) := by
  rw [Hierarchy.analyseCallables, FlowGraph.buildAll_append, List.map_append]
  rfl

theorem AllSucceed.of_append (hdecls : AllSucceed h (before ++ after)) : AllSucceed h before := by
  rintro first decl rest rfl
  exact hdecls first decl (rest ++ after) (by simp)

/-- There are no failures if no callable fails. -/
theorem failuresOf_eq_nil_iff : failuresOf (h.analyseCallables decls) = [] ↔ AllSucceed h decls := by
  constructor
  · rintro hnone before decl after rfl
    rw [analyseCallables_append, failuresOf, List.filterMap_append, List.append_eq_nil_iff] at hnone
    have hdecl := List.filterMap_eq_nil_iff.1 hnone.2 _ List.mem_cons_self
    cases houtcome : outcomeAfter h before decl with
    | ok a => exact ⟨a, rfl⟩
    | error e =>
      rw [houtcome] at hdecl
      cases hdecl
  · intro hdecls
    -- the outcome of a callable depends on those in front of it, so the last one is taken off
    induction decls using List.reverseRecOn with
    | nil => rfl
    | append_singleton before decl ih =>
      obtain ⟨a, ha⟩ := hdecls before decl [] rfl
      have hbefore := ih hdecls.of_append
      rw [analyseCallables_append, ha]
      rw [failuresOf] at hbefore ⊢
      rw [List.filterMap_append, hbefore]
      rfl

/-- The first failure is that of the first callable that fails. -/
theorem failuresOf_eq_cons {e : Error} (hbefore : AllSucceed h before)
    (hdecl : outcomeAfter h before decl = .error e) (after : List CallableDecl) :
    ∃ later, failuresOf (h.analyseCallables (before ++ decl :: after)) = ⟨decl.id, e⟩ :: later := by
  have hnone := failuresOf_eq_nil_iff.2 hbefore
  rw [analyseCallables_append, hdecl]
  rw [failuresOf] at hnone ⊢
  rw [List.filterMap_append, hnone]
  exact ⟨_, rfl⟩

/-! ## Programs -/

variable {config : Config} {program : Program}

/-- An analysis behind the hierarchy of its program. -/
theorem run_of_hierarchy (hconfig : config.validate = .ok ()) (hh : Hierarchy.ofProgram program = .ok h) :
    run config program = (do
      let outcomes := h.analyseCallables program.callables
      let failures := failuresOf outcomes
      checkFailures config failures
      let callables := successes outcomes
      let callGraph ← (CallGraph.ofFlowGraphs h (failures.map (·.callable))
        (callables.map (·.graph))).mapError .resolution
      let system ← SystemGraph.build config.summaries h callGraph (callables.map (·.toProcedureGraph))
      return { hierarchy := h, callableCount := program.callables.length, callables, failures, callGraph
               system, slicing := config.slicing }) := by
  rw [run, hconfig, hh]
  rfl

/-- Whether an analysis ends at the first failure makes a difference only if there is a callable
    that fails. Then it ends with the error of the first that does. -/
theorem run_failFast (program : Program) (hconfig : config.validate = .ok ()) :
    let collecting := run { config with failFast := false } program
    let ending := run { config with failFast := true } program
    (∀ e, Hierarchy.ofProgram program = .error e →
      collecting = .error (.resolution e) ∧ ending = .error (.resolution e)) ∧
    ∀ h, Hierarchy.ofProgram program = .ok h →
      (∀ before decl after e, program.callables = before ++ decl :: after → AllSucceed h before →
        outcomeAfter h before decl = .error e → ending = .error e) ∧
      (AllSucceed h program.callables →
        ending = collecting ∧ ∀ a, collecting = .ok a → a.failures = []) := by
  have hvalid (failFast : Bool) : ({ config with failFast } : Config).validate = .ok () := hconfig
  refine ⟨fun e he => ⟨?_, ?_⟩, fun h hh => ⟨fun before decl after e hsplit hbefore hdecl => ?_,
    fun hall => ⟨?_, fun a ha => ?_⟩⟩⟩
  · rw [run, hvalid, he]
    rfl
  · rw [run, hvalid, he]
    rfl
  · obtain ⟨later, hfailures⟩ := failuresOf_eq_cons hbefore hdecl after
    rw [run_of_hierarchy (hvalid true) hh, hsplit]
    simp only [hfailures]
    rfl
  · rw [run_of_hierarchy (hvalid true) hh, run_of_hierarchy (hvalid false) hh]
    simp only [failuresOf_eq_nil_iff.2 hall]
    rfl
  · obtain ⟨-, h', calls, system, hh', -, -, -, rfl⟩ := run_eq_ok_iff.1 ha
    cases hh.symm.trans hh'
    exact failuresOf_eq_nil_iff.2 hall

/-- The analysis of a program whose second callable fails ends with its error. -/
theorem brokenOverride_ends : (Config.ofPreset .balanced).validate = .ok () ∧
    run { Config.ofPreset .balanced with failFast := true } brokenOverride =
      .error (.structural ⟨1⟩ (.misplacedJump .breakJump ⟨8⟩)) := by
  obtain ⟨-, hends⟩ := run_failFast brokenOverride (rfl : (Config.ofPreset .balanced).validate = .ok ())
  obtain ⟨hfirst, -⟩ := hends ⟨brokenOverride.types, brokenOverride.callables⟩ (by cbv)
  exact ⟨rfl, hfirst (brokenOverride.callables.take 1) _ (brokenOverride.callables.drop 2) _ rfl
    (failuresOf_eq_nil_iff.1 (by cbv)) (by cbv)⟩

end Analysis

end Slicing
