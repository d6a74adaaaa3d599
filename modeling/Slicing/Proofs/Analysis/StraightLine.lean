import Slicing.Proofs.Analysis.FailFast
import Slicing.Proofs.Flow.StraightLine
import Slicing.Proofs.Slice.Closure

/-!
# Slices of straight lines

A program whose only callable is a line of assignments is analysed whatever the configuration
(`Analysis.exists_system`), and the slice of what influences an assignment is made of the
assignments that write what is read in it: of each of them, and for each variable that
it reads, the last assignment in front of it that writes the variable
(`Analysis.straightLine_slice`).

A slice holds other nodes as well: the entry, which controls all others, and the formal-ins.
They stand in front of all assignments and depend on nothing behind them, and they are no
points of the program.
-/

namespace Slicing

/-- The last of some assignments in front of the one at `i` that writes a variable is the one
    at `j`. -/
def LastWrite (body : List Assignment) (var : String) (i j : Nat) : Prop :=
  j < i ∧ (∃ a, body[j]? = some a ∧ var ∈ a.defs) ∧
    ∀ k, j < k → k < i → ∀ a, body[k]? = some a → var ∉ a.defs

/-- Some assignments, by their places, are the least ones that hold a given one and with each of
    them the last writes of the variables that it reads. -/
def IsLastWriteClosure (body : List Assignment) (k : Nat) (needed : Set Nat) : Prop :=
  IsLeast {S | k ∈ S ∧ ∀ i ∈ S, ∀ a, body[i]? = some a → ∀ var ∈ a.uses, ∀ j,
    LastWrite body var i j → j ∈ S} needed

/-! ## Programs of one callable -/

/-- A system is made of one flow graph alone. -/
structure SystemGraph.IsOf (system : SystemGraph) (g : FlowGraph) (ds : List ControlDependence) :
    Prop where
  control : g.controlDependences = .ok ds
  nodes : system.nodes = g.nodes
  edges : system.edges =
    (ProcedureGraph.assemble g ds (g.reachingDefinitions.dependences g)).edges.filter (joins g.nodes)

namespace SystemGraph

/-- A procedure that makes no calls is a system of its own. -/
theorem build_alone {config : SummaryConfig} {h : Hierarchy} {calls : CallGraph} {p : ProcedureGraph}
    {decl : CallableDecl} (hrounds : 0 < config.maxRounds.toNat) (hedges : calls.edges = [])
    (hsites : p.callSites = []) (hdecl : h.callable? p.callable = some decl) :
    ∃ system, build config h calls [p] = .ok system ∧ system.nodes = p.nodes ∧
      system.edges = p.edges.filter (joins p.nodes) := by
  have hassemble : assemble h calls [p] = .ok {
      nodes := p.nodes, edges := p.edges.filter (joins p.nodes)
      procedures := [⟨p.callable, p.entry, p.exit, decl.hasBody, p.formalIns, p.formalOuts⟩]
      invocations := [] } := by
    have hprocedures : [p].mapM (Procedure.ofGraph h) =
        .ok [⟨p.callable, p.entry, p.exit, decl.hasBody, p.formalIns, p.formalOuts⟩] := by
      simp [Procedure.ofGraph, hdecl]
    rw [assemble, hprocedures, hedges]
    simp [hsites, latest, lastByRank]
  -- without calls a round has nothing to propose
  have hround (g : SystemGraph) (hg : g.invocations = []) (callables : List CallableId) :
      g.summaryRound callables = { graph := g } := by
    have hproposals : callables.flatMap g.proposals = [] := by
      rw [List.flatMap_eq_nil_iff]
      intro callee _
      rw [proposals, hg]
      split <;> rfl
    rw [summaryRound, hproposals]
    rfl
  obtain ⟨fuel, hfuel⟩ := Nat.exists_eq_add_of_lt hrounds
  rw [build_of_assemble config hassemble, hfuel]
  split
  · simp [computeSummaries, runRounds, addOpaqueSummaries, addAll, hround]
    exact ⟨_, rfl, rfl, rfl⟩
  · exact ⟨_, rfl, rfl, rfl⟩

end SystemGraph

/-- A valid configuration allows at least one round of summaries, and its slicing is valid. -/
theorem Config.validate_eq_ok {config : Config} (hconfig : config.validate = .ok ()) :
    0 < config.summaries.maxRounds.toNat ∧ config.slicing.validate = .ok () := by
  simp only [Config.validate, bind_eq_ok_iff] at hconfig
  obtain ⟨⟨⟩, -, ⟨⟩, hsummaries, ⟨⟩, hslicing, -⟩ := hconfig
  refine ⟨?_, hslicing⟩
  rw [SummaryConfig.validate, Limit.check] at hsummaries
  split at hsummaries
  · rename_i hrange
    exact hrange.1
  · cases hsummaries

theorem jumpsPlaced_assignments (body : List Assignment) :
    blockJumpsPlaced false false (body.map Assignment.toStmt) := by
  induction body with
  | nil => rfl
  | cons a body ih => simpa [blockJumpsPlaced, Assignment.toStmt, Stmt.jumpsPlaced] using ih

theorem calls_assignments (body : List Assignment) :
    blockCalls (body.map Assignment.toStmt) = [] := by
  induction body with
  | nil => rfl
  | cons a body ih =>
    simpa [blockCalls, Assignment.toStmt, Stmt.calls, Effects.allCalls, allCalls] using ih

namespace Analysis

variable {config : Config} {program : Program} {decl : CallableDecl} {body : List Assignment}

/-- A program of one callable is analysed by analysing the callable. -/
theorem analyseCallables_alone {h : Hierarchy} {g : FlowGraph} {ds : List ControlDependence}
    (hg : (FlowGraph.build h decl 0).1 = .ok g) (hds : g.controlDependences = .ok ds) :
    h.analyseCallables [decl] = [(decl.id, .ok ⟨g, ds, g.reachingDefinitions.dependences g⟩)] := by
  have hlocal : LocalAnalysis.ofGraph g = .ok ⟨g, ds, g.reachingDefinitions.dependences g⟩ := by
    rw [LocalAnalysis.ofGraph, (FlowGraph.build_formed hg).checkStructure_eq_ok, hds]
    rfl
  rw [Hierarchy.analyseCallables]
  simp only [FlowGraph.buildAll, List.map_cons, List.map_nil, hg]
  exact congrArg (fun outcome => [(decl.id, outcome)]) hlocal

/-- Assignments make no calls. -/
theorem callSites_assignments {h : Hierarchy} {g : FlowGraph} {n : Nat}
    (hbody : decl.body = some (body.map Assignment.toStmt))
    (hg : (FlowGraph.build h decl n).1 = .ok g) : g.callSites = [] := by
  have hsub := FlowGraph.build_sites hg
  rw [CallableDecl.calls, hbody] at hsub
  simpa [calls_assignments] using hsub

/-- Without call sites there are no calls. -/
theorem ofFlowGraphs_alone {h : Hierarchy} {g : FlowGraph} (hsites : g.callSites = [])
    (hdecl : h.callable? g.callable = some decl) :
    CallGraph.ofFlowGraphs h [] [g] = .ok (CallGraph.ofHierarchy h []) := by
  have hedges : FlowGraph.callEdges h g = .ok [] := by
    rw [FlowGraph.callEdges, hdecl, hsites]
    rfl
  simp [CallGraph.ofFlowGraphs, hedges]

/-- A line of assignments is analysed. -/
theorem exists_system {h : Hierarchy} (hconfig : config.validate = .ok ())
    (hcallables : program.callables = [decl])
    (hbody : decl.body = some (body.map Assignment.toStmt))
    (hh : Hierarchy.ofProgram program = .ok h) :
    ∃ g ds a, (FlowGraph.build h decl 0).1 = .ok g ∧ run config program = .ok a ∧
      a.slicing = config.slicing ∧ a.system.IsOf g ds := by
  obtain ⟨g, hg⟩ := Lowering.build_ok h decl 0 (by
    rw [CallableDecl.jumpsPlaced, hbody]
    exact jumpsPlaced_assignments body)
  obtain ⟨ds, hds⟩ : ∃ ds, g.controlDependences = .ok ds :=
    ⟨_, (FlowGraph.build_formed hg).controlDependences_eq_ok⟩
  have houtcomes : h.analyseCallables program.callables =
      [(decl.id, .ok ⟨g, ds, g.reachingDefinitions.dependences g⟩)] := by
    rw [hcallables]
    exact analyseCallables_alone hg hds
  have hdecl : h.callable? g.callable = some decl := by
    rw [hierarchy_eq hh, Hierarchy.callable?, hcallables, FlowGraph.build_callable hg]
    simp
  have hsites : g.callSites = [] := callSites_assignments hbody hg
  have hnone : (CallGraph.ofHierarchy h []).edges = [] := by rw [CallGraph.ofHierarchy_eq]
  obtain ⟨system, hsystem, hnodes, hedges⟩ := SystemGraph.build_alone
    (p := .assemble g ds (g.reachingDefinitions.dependences g)) (Config.validate_eq_ok hconfig).1
    hnone hsites hdecl
  refine ⟨g, ds, ⟨h, 1, [⟨g, ds, g.reachingDefinitions.dependences g⟩], [], .ofHierarchy h [], system,
    config.slicing⟩, hg, ?_, rfl, hds, hnodes, hedges⟩
  have hsuccesses : successes (h.analyseCallables program.callables) =
      [⟨g, ds, g.reachingDefinitions.dependences g⟩] := by
    simp [houtcomes, successes, latest, lastByRank, Except.toOption]
  have hfailures : failuresOf (h.analyseCallables program.callables) = [] := by
    rw [houtcomes]
    rfl
  refine run_eq_ok_iff.2 ⟨hconfig, h, .ofHierarchy h [], system, hh, ?_, ?_, ?_, ?_⟩
  · rw [hfailures]
    cases hfast : config.failFast <;> simp [checkFailures, hfast]
  · rw [failed, flowGraphs, hsuccesses, hfailures]
    exact ofFlowGraphs_alone hsites hdecl
  · rw [procedureGraphs, hsuccesses]
    exact hsystem
  · rw [hsuccesses, hfailures, hcallables]
    rfl

/-! ## Slices -/

section Slice

variable {g : FlowGraph} {before stmts after : List Node} {ds : List ControlDependence}
  {system : SystemGraph} {i j : Nat} {a b : Assignment} {x y : Node} {var : String}

/-- The data dependences between assignments are the last writes. -/
theorem mem_dependences_iff_lastWrite (hs : g.Straight body before stmts after) (hg : g.Formed)
    (hi : body[i]? = some a) (hj : body[j]? = some b)
    (hx : ((g.entry :: before) ++ stmts ++ after)[before.length + 1 + i]? = some x)
    (hy : ((g.entry :: before) ++ stmts ++ after)[before.length + 1 + j]? = some y)
    (hat : a.At x) (hbt : b.At y) :
    ⟨x.id, y.id, var⟩ ∈ g.reachingDefinitions.dependences g ↔
      var ∈ b.uses ∧ LastWrite body var j i := by
  rw [hs.line.mem_dependences_iff hg.inRange hg.nodup hx hy, hat.defs, hbt.uses]
  constructor
  · rintro ⟨hdef, huse, hlt, hclear⟩
    refine ⟨huse, by omega, ⟨a, hi, hdef⟩, fun k hik hkj c hc => ?_⟩
    obtain ⟨node, hnode, hct⟩ := hs.exists_at hc
    exact hct.defs ▸ hclear _ (by omega) (by omega) node hnode
  · rintro ⟨huse, hlt, ⟨a', ha', hdef⟩, hclear⟩
    cases hi.symm.trans ha'
    refine ⟨hdef, huse, by omega, fun m him hmj node hm => ?_⟩
    have hlen := (List.getElem?_eq_some_iff.1 hj).1
    rcases hs.cases_of_getElem? hm with ⟨hlow, -⟩ | ⟨k, c, rfl, hc, hct⟩ | ⟨hhigh, -⟩
    · omega
    · exact hct.defs ▸ hclear k (by omega) (by omega) c hc
    · omega

/-- The element of an assignment means its node. -/
theorem means_assignment (hs : g.Straight body before stmts after) (hn : g.ids.Nodup)
    (hsystem : system.IsOf g ds) (hids : (body.map (·.source.id)).Nodup)
    (hi : body[i]? = some a)
    (hx : ((g.entry :: before) ++ stmts ++ after)[before.length + 1 + i]? = some x) (hat : a.At x) :
    system.Means ⟨.element a.source.id, none⟩ x.id := by
  have hmem : x ∈ g.nodes := (hs.line.nodes x).2 (List.mem_of_getElem? hx)
  obtain ⟨front, rear, hsplit⟩ := List.append_of_mem hmem
  refine ⟨front, x, rear, hsystem.nodes.trans hsplit, rfl, hat.element, fun later hlater hsame => ?_⟩
  have hlaterMem : later ∈ g.nodes := by
    rw [hsplit]
    exact List.mem_append_right _ (List.mem_cons_of_mem _ hlater)
  -- another node for the element would stand for an assignment with the same number
  obtain ⟨m, hm⟩ := List.getElem?_of_mem ((hs.line.nodes later).1 hlaterMem)
  rcases hs.cases_of_getElem? hm with ⟨-, hnone⟩ | ⟨j, b, rfl, hj, hbt⟩ | ⟨-, hnone⟩
  · rw [hnone] at hsame
    cases hsame
  · rw [hbt.element, Option.some.injEq] at hsame
    have hij : j = i := by
      refine (List.getElem?_inj ?_ hids).1 ?_
      · rw [List.length_map]
        exact (List.getElem?_eq_some_iff.1 hj).1
      · rw [List.getElem?_map, List.getElem?_map, hi, hj]
        exact congrArg some hsame
    rw [hij, hx] at hm
    cases hm
    rw [FlowGraph.ids, hsplit, List.map_append, List.map_cons] at hn
    exact (List.nodup_cons.1 (List.nodup_append.1 hn).2.1).1 (List.mem_map_of_mem hlater)
  · rw [hnone] at hsame
    cases hsame

variable {t : Traversal} {k : Nat} {n : NodeId}

/-- A last write is a step of every traversal of what influences an assignment. -/
theorem step_lastWrite (hs : g.Straight body before stmts after) (hg : g.Formed)
    (hsystem : system.IsOf g ds)
    (hdir : t.direction = .backward) (hi : body[i]? = some a) (hj : body[j]? = some b)
    (hx : ((g.entry :: before) ++ stmts ++ after)[before.length + 1 + i]? = some x)
    (hy : ((g.entry :: before) ++ stmts ++ after)[before.length + 1 + j]? = some y)
    (hat : a.At x) (hbt : b.At y) (huse : var ∈ b.uses) (hlast : LastWrite body var j i)
    (location : Location) (phase : Phase) : t.Step system ⟨location, none⟩ n phase y.id x.id := by
  have hxmem : x ∈ g.nodes := (hs.line.nodes x).2 (List.mem_of_getElem? hx)
  have hymem : y ∈ g.nodes := (hs.line.nodes y).2 (List.mem_of_getElem? hy)
  have hdata := (mem_dependences_iff_lastWrite hs hg hi hj hx hy hat hbt).2 ⟨huse, hlast⟩
  refine ⟨?_, .data var, ⟨?_, ?_, ?_, ?_⟩, ?_, ?_⟩
  · rw [SystemGraph.nodeIds, hsystem.nodes]
    exact List.mem_map_of_mem hxmem
  · simp [Dependence.kind]
  · simp
  · simp [hdir, Dependence.Descends]
  · simp [hdir, Dependence.Ascends]
  · rw [hdir, hsystem.edges, List.mem_filter]
    refine ⟨List.mem_append_right _ (List.mem_map.2 ⟨_, hdata, rfl⟩), ?_⟩
    simp only [SystemGraph.joins, Bool.and_eq_true, List.any_eq_true, beq_iff_eq]
    exact ⟨⟨x, hxmem, rfl⟩, ⟨y, hymem, rfl⟩⟩
  · rintro - var ⟨hvar, -⟩
    cases hvar

/-- A node stands in front of all assignments, or for one out of a set of them. -/
def Within (g : FlowGraph) (body : List Assignment) (before stmts after : List Node) (S : Set Nat)
    (u : NodeId) : Prop :=
  ∃ (m : Nat) (node : Node), ((g.entry :: before) ++ stmts ++ after)[m]? = some node ∧ node.id = u ∧
    (m < before.length + 1 ∨ ∃ i ∈ S, i < body.length ∧ m = before.length + 1 + i)

/-- No traversal of what influences an assignment leaves such nodes, if the set is closed under
    last writes. -/
theorem step_within (hs : g.Straight body before stmts after) (hg : g.Formed)
    (hsystem : system.IsOf g ds) (hdir : t.direction = .backward) {S : Set Nat}
    (hclosed : ∀ i ∈ S, ∀ a, body[i]? = some a → ∀ var ∈ a.uses, ∀ j, LastWrite body var i j → j ∈ S)
    {c : Criterion} {phase : Phase} {u v : NodeId} (hstep : t.Step system c n phase u v)
    (hu : Within g body before stmts after S u) : Within g body before stmts after S v := by
  obtain ⟨m, y, hy, rfl, hm⟩ := hu
  obtain ⟨-, d, -, hedge, -⟩ := hstep
  rw [hdir, hsystem.edges] at hedge
  have hedge := (List.mem_filter.1 hedge).1
  rcases List.mem_append.1 hedge with hedge | hedge
  · -- control comes from the entry
    obtain ⟨e, he, heq⟩ := List.mem_map.1 hedge
    have hv : e.controller = v := congrArg DependenceEdge.source heq
    exact ⟨0, g.entry, rfl, hv ▸ (hs.controller_eq hg hsystem.control he).symm, .inl (by omega)⟩
  · -- data comes from a node that stands in front
    obtain ⟨e, he, heq⟩ := List.mem_map.1 hedge
    have hv : e.source = v := congrArg DependenceEdge.source heq
    have hy' : e.target = y.id := congrArg DependenceEdge.target heq
    have hsource : e.source ∈ g.ids := by
      obtain ⟨source, hsource, -, -, hid, -⟩ := (FlowGraph.mem_dependences_iff hg.inRange hg.nodup).1 he
      exact hid ▸ List.mem_map_of_mem hsource
    obtain ⟨x, hx, hxid⟩ := List.mem_map.1 hsource
    obtain ⟨l, hl⟩ := List.getElem?_of_mem ((hs.line.nodes x).1 hx)
    have hdep : ⟨x.id, y.id, e.var⟩ ∈ g.reachingDefinitions.dependences g := by
      rw [hxid, ← hy']
      exact he
    refine ⟨l, x, hl, hxid.trans hv, ?_⟩
    have hlt := ((hs.line.mem_dependences_iff hg.inRange hg.nodup hl hy).1 hdep).2.2.1
    rcases hm with hm | ⟨j, hj, hlen, rfl⟩
    · exact .inl (by omega)
    · rcases hs.cases_of_getElem? hl with ⟨hlow, -⟩ | ⟨i, a, rfl, hi, hat⟩ | ⟨hhigh, -⟩
      · exact .inl hlow
      · obtain ⟨y', hy', hbt⟩ := hs.exists_at (List.getElem?_eq_getElem hlen)
        cases hy.symm.trans hy'
        obtain ⟨huse, hlast⟩ := (mem_dependences_iff_lastWrite hs hg hi
          (List.getElem?_eq_getElem hlen) hl hy hat hbt).1 hdep
        exact .inr ⟨i, hclosed j hj _ (List.getElem?_eq_getElem hlen) _ huse i hlast, by omega, rfl⟩
      · omega

/-- The assignments, by their places, whose nodes are in a slice. -/
def held (g : FlowGraph) (body : List Assignment) (before stmts after : List Node)
    (slice : Slice) : Set Nat :=
  {i | i < body.length ∧ ∃ node,
    ((g.entry :: before) ++ stmts ++ after)[before.length + 1 + i]? = some node ∧
      node.id ∈ slice.nodes}

variable {slice : Slice} {location : Location}

/-- A slice of what influences an assignment holds just the assignments that it needs. -/
theorem held_isClosure (hs : g.Straight body before stmts after) (hg : g.Formed)
    (hsystem : system.IsOf g ds) (hdir : t.direction = .backward) (hk : body[k]? = some a)
    (hx : ((g.entry :: before) ++ stmts ++ after)[before.length + 1 + k]? = some x)
    (hslice : slice.Covers system t ⟨location, none⟩ x.id) :
    IsLastWriteClosure body k (held g body before stmts after slice) := by
  refine ⟨⟨?_, ?_⟩, ?_⟩
  · exact ⟨(List.getElem?_eq_some_iff.1 hk).1, x, hx, hslice.start_mem⟩
  · -- the slice follows the data dependences, which lead to the last writes
    rintro i ⟨-, y, hy, hmem⟩ b hb var huse j hlast
    obtain ⟨a', ha', -⟩ := hlast.2.1
    obtain ⟨y', hy', hbt⟩ := hs.exists_at hb
    cases hy.symm.trans hy'
    obtain ⟨z, hz, hat⟩ := hs.exists_at ha'
    exact ⟨(List.getElem?_eq_some_iff.1 ha').1, z, hz, hslice.step_mem
      (step_lastWrite hs hg hsystem hdir ha' hb hz hy hat hbt huse hlast location) hmem⟩
  · -- the nodes of a closed set of assignments are closed under the steps of the slice
    rintro S ⟨hkS, hclosed⟩ i ⟨hi, y, hy, hmem⟩
    obtain ⟨m, node, hm, hid, hcase⟩ := hslice.mem_of_closed
      (S := {u | Within g body before stmts after S u})
      ⟨_, x, hx, rfl, .inr ⟨k, hkS, (List.getElem?_eq_some_iff.1 hk).1, rfl⟩⟩
      (fun _ _ hu _ hstep => step_within hs hg hsystem hdir hclosed hstep hu) hmem
    have hmi : m = before.length + 1 + i := by
      refine hs.line.index_eq hy ?_
      rw [List.getElem?_map, hm]
      exact congrArg some hid
    rcases hcase with hlow | ⟨j, hj, -, heq⟩
    · omega
    · obtain rfl : i = j := by omega
      exact hj

/-- The points of a slice are the assignments whose nodes it holds. -/
theorem mem_points_iff_held (hs : g.Straight body before stmts after) (hsystem : system.IsOf g ds)
    {c : Criterion} {start : NodeId} (hslice : slice.Covers system t c start) {id : ElementId} :
    id ∈ slice.points ↔ ∃ i ∈ held g body before stmts after slice,
      ∃ b, body[i]? = some b ∧ b.source.id = id := by
  rw [hslice.points, hsystem.nodes]
  constructor
  · rintro ⟨node, hnode, hmem, helement⟩
    obtain ⟨m, hm⟩ := List.getElem?_of_mem ((hs.line.nodes node).1 hnode)
    rcases hs.cases_of_getElem? hm with ⟨-, hnone⟩ | ⟨i, b, rfl, hb, hbt⟩ | ⟨-, hnone⟩
    · rw [hnone] at helement
      cases helement
    · rw [hbt.element, Option.some.injEq] at helement
      exact ⟨i, ⟨(List.getElem?_eq_some_iff.1 hb).1, node, hm, hmem⟩, b, hb, helement⟩
    · rw [hnone] at helement
      cases helement
  · rintro ⟨i, ⟨-, node, hm, hmem⟩, b, hb, rfl⟩
    obtain ⟨node', hm', hbt⟩ := hs.exists_at hb
    cases hm.symm.trans hm'
    exact ⟨node, (hs.line.nodes node).2 (List.mem_of_getElem? hm), hmem, hbt.element⟩

end Slice

/-- The points of the slice of what influences an assignment in a straight line are that
    assignment and, with each of them, the last writes of the variables that it reads, whatever
    the configuration. There is such a slice unless a type is named that is not declared. -/
theorem straightLine_slice {a : Assignment} {k : Nat} (hconfig : config.validate = .ok ())
    (hcallables : program.callables = [decl])
    (hbody : decl.body = some (body.map Assignment.toStmt))
    (hids : (body.map (·.source.id)).Nodup) (hk : body[k]? = some a) :
    (∀ type, Hierarchy.undeclared? program = some type →
      run config program = .error (.resolution (.unknownType type))) ∧
    (Hierarchy.undeclared? program = none →
      ∃ analysis slicer slice needed, run config program = .ok analysis ∧
        analysis.slicer = .ok slicer ∧
        (slicer.ask (.backward config.slicing ⟨.element a.source.id, none⟩)).1 = .ok slice ∧
        IsLastWriteClosure body k needed ∧
        ∀ id, id ∈ slice.points ↔ ∃ i ∈ needed, ∃ b, body[i]? = some b ∧ b.source.id = id) := by
  refine ⟨fun type htype => ?_, fun hnone => ?_⟩
  · rw [run, hconfig, Hierarchy.ofProgram, htype]
    rfl
  · have hh : Hierarchy.ofProgram program = .ok ⟨program.types, program.callables⟩ := by
      rw [Hierarchy.ofProgram, hnone]
    obtain ⟨g, ds, analysis, hg, hrun, hslicing, hsystem⟩ :=
      exists_system hconfig hcallables hbody hh
    obtain ⟨before, stmts, after, hs⟩ := FlowGraph.build_straight hbody hg
    have hformed := FlowGraph.build_formed hg
    obtain ⟨x, hx, hat⟩ := hs.exists_at hk
    have hmeans := means_assignment hs hformed.nodup hsystem hids hk hx hat
    obtain ⟨slice, hslice, hcovers⟩ := Query.answer_ok config.slicing .backward
      config.slicing.includeControl hmeans (by rintro _ ⟨⟩)
    have hclosure := held_isClosure hs hformed hsystem rfl hk hx hcovers
    have hnew : Slicer.new analysis.system config.slicing =
        .ok { graph := analysis.system, config := config.slicing } := by
      rw [Slicer.new, (Config.validate_eq_ok hconfig).2]
      rfl
    have hslicer : analysis.slicer =
        .ok { graph := analysis.system, config := config.slicing } := by
      rw [Analysis.slicer, hslicing]
      exact hnew
    refine ⟨analysis, _, slice, _, hrun, hslicer, ?_, hclosure,
      fun id => mem_points_iff_held hs hsystem hcovers⟩
    rw [(Slicer.Serves.new hnew).ask_eq, Query.backward, hslice]
    rfl

/-- Assignments with a parameter that is overwritten, one that writes nothing and one that writes
    what it reads. -/
def swapping : List Assignment :=
  [⟨⟨⟨10⟩, "t = x", none⟩, ["t"], ["x"]⟩, ⟨⟨⟨4⟩, "x = y", none⟩, ["x"], ["y", "y"]⟩,
   ⟨⟨⟨7⟩, "log t", none⟩, [], ["t"]⟩, ⟨⟨⟨2⟩, "x, y = x + t", none⟩, ["x", "y"], ["x", "t"]⟩]

/-- The callable of these assignments, alone in its program. -/
def swappingDecl : CallableDecl where
  id := ⟨0⟩
  name := "swap"
  kind := .method
  owner := ⟨3⟩
  signature := ⟨"swap", []⟩
  isStatic := true
  params := [⟨"x", .byReference⟩, ⟨"y", .byValue⟩]
  returnsValue := false
  span := none
  body := some (swapping.map Assignment.toStmt)

/-- The slice from the last assignment is the closure of what it needs under last writes. -/
theorem swapping_slice : ∃ analysis slicer slice needed,
    run .default ⟨[⟨⟨3⟩, "Main", []⟩], [swappingDecl]⟩ = .ok analysis ∧
      analysis.slicer = .ok slicer ∧
      (slicer.ask (.backward Config.default.slicing ⟨.element ⟨2⟩, none⟩)).1 = .ok slice ∧
      IsLastWriteClosure swapping 3 needed ∧
      ∀ id, id ∈ slice.points ↔ ∃ i ∈ needed, ∃ b, swapping[i]? = some b ∧ b.source.id = id := by
  have hconfig : Config.default.validate = .ok () := rfl
  have hids : (swapping.map (·.source.id)).Nodup := by decide
  exact (straightLine_slice hconfig rfl rfl hids (k := 3) rfl).2 (by decide)

end Analysis

end Slicing
