import Mathlib.Data.List.Chain
import Mathlib.Data.List.Induction
import Mathlib.Data.List.Nodup
import Slicing.Proofs.Flow.ReachingDefinitions

/-!
# Data dependence on ways through the graph

What `FlowGraph.reachingDefinitions` finds is said here on ways that a graph has from node to
node (`FlowGraph.ClearWay`). A definition reaches a node if some way leads there from the node
where it is made, by an edge or more, on which no node in between writes the variable
(`reachingDefinitions_exact`). The ways that a set of definitions is carried along
(`FlowGraph.Carries`) are these, without the nodes that they pass.

The worklist is also told as it is run by hand (`DefinitionFlow.Run`): what leaves a position is
put in the place of what left it before, whether or not that is among it. It always is, since
what leaves a position is at any time at most what the equations ask for there
(`DefinitionFlow.Below`), and the sets only grow.
-/

namespace Slicing

variable {n : Nat}

/-! ## The run of the worklist -/

namespace DefinitionTransfer

variable {t : DefinitionTransfer n} {leaving leaving' : List (DefinitionSet n)} {i : Nat}

/-- From larger sets more leaves a position. -/
theorem apply_mono (hi : i < n)
    (hle : ∀ v, (leaving.getD v 0).getLsbD i = true → (leaving'.getD v 0).getLsbD i = true)
    (h : (t.apply (t.reaching leaving)).getLsbD i = true) :
    (t.apply (t.reaching leaving')).getLsbD i = true := by
  rw [getLsbD_apply hi, getLsbD_reaching] at h ⊢
  exact h.imp_right fun ⟨⟨source, hsource, hbit⟩, hkept⟩ => ⟨⟨source, hsource, hle source hbit⟩, hkept⟩

end DefinitionTransfer

namespace DefinitionFlow

variable {transfer : Nat → DefinitionTransfer n} {worklist : List Nat} {f : DefinitionFlow n}
  {size i v w : Nat}

/-- The worklist is worked off. At each visit of a position the set of what reaches it is put
    down, and what leaves it if that has changed; the positions behind then join the worklist. -/
inductive Run (transfer : Nat → DefinitionTransfer n) :
    List Nat → DefinitionFlow n → DefinitionFlow n → Prop
  | done {f : DefinitionFlow n} : Run transfer [] f f
  | same {v : Nat} {worklist : List Nat} {f r : DefinitionFlow n} :
    f.leaving[v]? = some ((transfer v).apply ((transfer v).reaching f.leaving)) →
    Run transfer worklist
      ⟨f.reaching.set v ((transfer v).reaching f.leaving), f.leaving, f.visits + 1⟩ r →
    Run transfer (v :: worklist) f r
  | changed {v : Nat} {worklist : List Nat} {f r : DefinitionFlow n} {before : DefinitionSet n} :
    f.leaving[v]? = some before →
    (transfer v).apply ((transfer v).reaching f.leaving) ≠ before →
    Run transfer (enqueue worklist (transfer v).targets)
      ⟨f.reaching.set v ((transfer v).reaching f.leaving),
        f.leaving.set v ((transfer v).apply ((transfer v).reaching f.leaving)), f.visits + 1⟩ r →
    Run transfer (v :: worklist) f r

/-- What leaves a position is among what the equations ask for. -/
def Below (transfer : Nat → DefinitionTransfer n) (f : DefinitionFlow n) : Prop :=
  ∀ v, ∀ i < n, (f.leaving.getD v 0).getLsbD i = true →
    ((transfer v).apply ((transfer v).reaching f.leaving)).getLsbD i = true

/-- What leaves a position only grows. -/
theorem Below.union_eq (hf : f.Below transfer) {before : DefinitionSet n}
    (hv : f.leaving[v]? = some before) :
    before ||| (transfer v).apply ((transfer v).reaching f.leaving) =
      (transfer v).apply ((transfer v).reaching f.leaving) := by
  refine BitVec.eq_of_getLsbD_eq fun i hi => ?_
  rw [Bool.eq_iff_iff, BitVec.getLsbD_or, Bool.or_eq_true]
  refine or_iff_right_of_imp fun hbit => hf v i hi ?_
  rwa [List.getD_eq_getElem?_getD, hv]

/-- A visit keeps the sets below what the equations ask for, which grows with them. -/
theorem Below.grow (hf : f.Below transfer) (reaching : List (DefinitionSet n)) (visits : Nat) :
    Below transfer ⟨reaching,
      f.leaving.set v ((transfer v).apply ((transfer v).reaching f.leaving)), visits⟩ := by
  have hle (w i : Nat) (hi : i < n) (h : (f.leaving.getD w 0).getLsbD i = true) :
      ((f.leaving.set v ((transfer v).apply ((transfer v).reaching f.leaving))).getD w 0).getLsbD i =
        true := by
    rw [getD_set]
    split
    · rename_i heq
      exact heq.1 ▸ hf w i hi h
    · exact h
  intro w i hi h
  refine DefinitionTransfer.apply_mono hi (fun u => hle u i hi) ?_
  dsimp only at h
  rw [getD_set] at h
  split at h
  · rename_i heq
    exact heq.1 ▸ h
  · exact hf w i hi h

/-- The worklist comes to an end. -/
theorem Below.run_solve (htargets : ∀ v, ∀ w ∈ (transfer v).targets, w < size)
    (hf : f.Below transfer) (hlength : f.leaving.length = size) (hlist : ∀ v ∈ worklist, v < size) :
    Run transfer worklist f (solve transfer worklist f) := by
  fun_induction solve transfer worklist f with
  | case1 f => exact .done
  | case2 f v worklist t reaching f' hv ih =>
    have hlt := hlist v List.mem_cons_self
    exact absurd (List.getElem?_eq_none_iff.1 hv) (by omega)
  | case3 f v worklist t reaching f' before hv hgrows ih =>
    have heq := hf.union_eq hv
    change before ||| t.apply reaching = t.apply reaching at heq
    rw [heq] at hgrows ih ⊢
    refine .changed hv hgrows (ih (hf.grow _ _) ?_ fun w hw => ?_)
    · rw [List.length_set, hlength]
    · rcases mem_enqueue.1 hw with hw | hw
      · exact hlist w (List.mem_cons_of_mem v hw)
      · exact htargets v w hw
  | case4 f v worklist t reaching f' before hv hstays ih =>
    have heq := hf.union_eq hv
    change before ||| t.apply reaching = t.apply reaching at heq
    rw [heq, Decidable.not_not] at hstays
    exact .same (hv.trans (congrArg some hstays.symm))
      (ih hf hlength fun w hw => hlist w (List.mem_cons_of_mem v hw))

end DefinitionFlow

namespace FlowGraph

variable {g : FlowGraph} {d d' : Definition} {var : String} {v : Nat} {x y z : NodeId}
  {between : List NodeId}

/-- The state in which the worklist is started. -/
def initialFlow (g : FlowGraph) : DefinitionFlow g.definitions.length where
  reaching := g.positions.map fun _ => 0
  leaving := g.positions.map fun v => (g.transfer g.definitions v).made
  visits := 0

theorem below_initialFlow : g.initialFlow.Below (g.transfer g.definitions) := by
  intro v i hi h
  refine (DefinitionTransfer.getLsbD_apply hi).2 (.inl ?_)
  simp only [initialFlow, List.getD_eq_getElem?_getD, List.getElem?_map] at h
  cases hv : g.positions[v]? with
  | none => simp [hv] at h
  | some w =>
    have hw : w = v := by simpa [positions] using (List.getElem?_eq_some_iff.1 hv).2.symm
    simpa [hv, hw] using h

/-- The worklist is started with all positions, and comes to an end. -/
theorem run_reachingDefinitions (hr : g.InRange) : DefinitionFlow.Run (g.transfer g.definitions)
    g.positions g.initialFlow g.reachingDefinitions.flow := by
  have htargets (v w : Nat) (hw : w ∈ (g.transfer g.definitions v).targets) : w < g.size := by
    obtain ⟨arc, harc, -, rfl⟩ := mem_transfer_targets.1 hw
    exact (hr arc harc).2
  refine below_initialFlow.run_solve htargets ?_ fun v hv => List.mem_range.1 hv
  simp [initialFlow, positions]

/-! ## Ways -/

/-- A way along edges from a node to another one, on which no node in between writes a
    variable. -/
def ClearWay (g : FlowGraph) (var : String) (x : NodeId) (between : List NodeId) (y : NodeId) : Prop :=
  List.IsChain g.HasEdge (x :: (between ++ [y])) ∧
    ∀ node ∈ g.nodes, node.id ∈ between → var ∉ node.defs

theorem ClearWay.edge (h : g.HasEdge x y) : g.ClearWay var x [] y := ⟨by simpa using h, by simp⟩

/-- A way can be taken one edge further from a node that does not write the variable. -/
theorem ClearWay.pass (h : g.ClearWay var x between y)
    (hclear : ∀ node ∈ g.nodes, node.id = y → var ∉ node.defs) (hstep : g.HasEdge y z) :
    g.ClearWay var x (between ++ [y]) z := by
  refine ⟨?_, fun node hnode hmem => ?_⟩
  · rw [← List.cons_append, List.isChain_append]
    refine ⟨h.1, List.isChain_singleton z, fun a ha b hb => ?_⟩
    rw [← List.cons_append, List.getLast?_concat, Option.mem_some_iff] at ha
    rw [List.head?_cons, Option.mem_some_iff] at hb
    rwa [← ha, ← hb]
  · rcases List.mem_append.1 hmem with hmem | hmem
    · exact h.2 node hnode hmem
    · exact hclear node hnode (List.mem_singleton.1 hmem)

/-- What is carried is carried along ways. -/
theorem carries_iff_exists_clearWay :
    g.Carries var x y ↔ ∃ between, g.ClearWay var x between y := by
  constructor
  · intro h
    induction h with
    | edge hstep => exact ⟨[], .edge hstep⟩
    | pass _ hclear hstep ih =>
      obtain ⟨between, hway⟩ := ih
      exact ⟨_, hway.pass hclear hstep⟩
  · rintro ⟨between, hchain, hclear⟩
    -- the last node in between comes first: what is carried to it is passed on
    induction between using List.reverseRecOn generalizing y with
    | nil => exact .edge (by simpa using hchain)
    | append_singleton between z ih =>
      rw [← List.cons_append, List.isChain_append] at hchain
      obtain ⟨hinit, -, hlast⟩ := hchain
      have hstep : g.HasEdge z y :=
        hlast z (by rw [← List.cons_append, List.getLast?_concat]; rfl) y rfl
      refine .pass (ih hinit fun node hnode hmem => hclear node hnode ?_) (fun node hnode hid => ?_) hstep
      · exact List.mem_append_left _ hmem
      · exact hclear node hnode (List.mem_append_right _ (List.mem_singleton.2 hid))

/-! ## Each definition once -/

/-- No definition is listed twice. -/
theorem nodup_definitions (g : FlowGraph) : g.definitions.Nodup := by
  refine List.nodup_flatMap.2 ⟨fun entry _ => ?_, ?_⟩
  · exact (nodup_eraseDups _).map fun a b h => congrArg Definition.var h
  · have hpositions : (g.nodes.zipIdx.map (·.2)).Nodup := by
      rw [List.zipIdx_map_snd]
      exact List.nodup_range'
    refine (List.pairwise_map.1 hpositions).imp fun {entry entry'} hne => ?_
    refine List.disjoint_left.2 fun d hd hd' => ?_
    obtain ⟨var, -, rfl⟩ := List.mem_map.1 hd
    obtain ⟨var', -, heq⟩ := List.mem_map.1 hd'
    exact hne (congrArg Definition.position heq).symm

/-- Definitions are told apart by their nodes and variables. -/
theorem definition_injective (hn : g.ids.Nodup) (hd : d ∈ g.definitions) (hd' : d' ∈ g.definitions)
    (hnode : d.node = d'.node) (hvar : d.var = d'.var) : d = d' := by
  obtain ⟨hlt, hid, -⟩ := mem_definitions_iff.1 hd
  obtain ⟨hlt', hid', -⟩ := mem_definitions_iff.1 hd'
  have hposition := idAt_injective hn hlt hlt' (hid.symm.trans (hnode.trans hid'))
  cases d
  cases d'
  simp_all

theorem mem_definitions_of_mem_reachingAt (hd : d ∈ g.reachingDefinitions.reachingAt v) :
    d ∈ g.definitions := by
  simp only [ReachingDefinitions.reachingAt, List.mem_map, List.mem_filter, Prod.exists] at hd
  obtain ⟨d', i, ⟨hmem, -⟩, rfl⟩ := hd
  exact List.mem_of_getElem? (List.mem_zipIdx_iff_getElem?.1 hmem)

/-- No definition is listed twice among those that reach a position. -/
theorem nodup_reachingAt (g : FlowGraph) (v : Nat) : (g.reachingDefinitions.reachingAt v).Nodup := by
  refine List.Nodup.sublist (List.filter_sublist.map _) ?_
  rw [List.zipIdx_map_fst]
  exact g.nodup_definitions

/-- Each definition that reaches a node is listed once. -/
theorem nodup_reaching (hn : g.ids.Nodup) (x : NodeId) : (g.reachingDefinitions.reaching g x).Nodup := by
  unfold ReachingDefinitions.reaching
  split
  · refine (g.nodup_reachingAt _).map_on fun d hd d' hd' heq => ?_
    exact definition_injective hn (mem_definitions_of_mem_reachingAt hd)
      (mem_definitions_of_mem_reachingAt hd') (congrArg Prod.fst heq) (congrArg Prod.snd heq)
  · exact List.nodup_nil

/-- Each dependence is listed once. -/
theorem nodup_dependences (hn : g.ids.Nodup) : (g.reachingDefinitions.dependences g).Nodup := by
  refine List.nodup_flatMap.2 ⟨fun node _ => List.nodup_flatMap.2 ⟨fun var _ => ?_, ?_⟩, ?_⟩
  · -- the definitions of one variable that reach one node
    split
    · refine ((g.nodup_reachingAt _).filter _).map_on fun d hd d' hd' heq => ?_
      obtain ⟨hd, hvar⟩ := List.mem_filter.1 hd
      obtain ⟨hd', hvar'⟩ := List.mem_filter.1 hd'
      refine definition_injective hn (mem_definitions_of_mem_reachingAt hd)
        (mem_definitions_of_mem_reachingAt hd') (congrArg DataDependence.source heq) ?_
      exact (beq_iff_eq.1 hvar).trans (beq_iff_eq.1 hvar').symm
    · exact List.nodup_nil
  · refine (nodup_eraseDups node.uses).imp fun {var var'} hne => ?_
    refine List.disjoint_left.2 fun e he he' => ?_
    obtain ⟨d, -, rfl⟩ := List.mem_map.1 he
    obtain ⟨d', -, heq⟩ := List.mem_map.1 he'
    exact hne (congrArg DataDependence.var heq).symm
  · refine (List.pairwise_map.1 hn).imp fun {node node'} hne => ?_
    refine List.disjoint_left.2 fun e he he' => ?_
    obtain ⟨var, -, he⟩ := List.mem_flatMap.1 he
    obtain ⟨var', -, he'⟩ := List.mem_flatMap.1 he'
    obtain ⟨d, -, rfl⟩ := List.mem_map.1 he
    obtain ⟨d', -, heq⟩ := List.mem_map.1 he'
    exact hne (congrArg DataDependence.target heq).symm

/-! ## What is found -/

/-- The definitions that reach a node are those that are carried to it. -/
theorem mem_reaching_iff (hr : g.InRange) (hn : g.ids.Nodup) :
    (x, var) ∈ g.reachingDefinitions.reaching g y ↔
      (∃ node ∈ g.nodes, node.id = x ∧ var ∈ node.defs) ∧ g.Carries var x y := by
  have hdefined : (∃ d ∈ g.definitions, d.node = x ∧ d.var = var) ↔
      ∃ node ∈ g.nodes, node.id = x ∧ var ∈ node.defs := by
    constructor
    · rintro ⟨d, hd, rfl, rfl⟩
      obtain ⟨hlt, hid, hwrite⟩ := mem_definitions_iff.1 hd
      exact ⟨_, List.mem_of_getElem? (nodes_getElem? hlt), hid.symm, hwrite⟩
    · rintro ⟨node, hnode, rfl, hwrite⟩
      obtain ⟨p, hlt, -, hid⟩ := exists_position_of_mem hnode
      refine ⟨⟨p, node.id, var⟩, mem_definitions_iff.2 ⟨hlt, hid.symm, ?_⟩, rfl, rfl⟩
      rwa [← eq_nodeAt hn hnode hlt hid.symm]
  unfold ReachingDefinitions.reaching
  split
  · rename_i p hp
    obtain ⟨hlt, rfl⟩ := idAt_of_position?_eq_some hp
    simp only [List.mem_map, Prod.mk.injEq, mem_reachingAt_iff hr hn hlt, ← hdefined]
    constructor
    · rintro ⟨d, ⟨hd, hcarries⟩, rfl, rfl⟩
      exact ⟨⟨d, hd, rfl, rfl⟩, hcarries⟩
    · rintro ⟨⟨d, hd, rfl, rfl⟩, hcarries⟩
      exact ⟨d, ⟨hd, hcarries⟩, rfl, rfl⟩
  · rename_i hnone
    refine ⟨fun h => absurd h List.not_mem_nil, fun ⟨_, hcarries⟩ => ?_⟩
    -- a way leads to nodes of the graph only
    have hy : y ∈ g.ids := by
      cases hcarries with
      | edge hstep => exact hstep.mem_right hr
      | pass _ _ hstep => exact hstep.mem_right hr
    obtain ⟨p, hp⟩ := exists_position? hy
    exact absurd (hnone.symm.trans hp) nofun

/-- The worklist comes to an end, and then the definitions that reach a node are found, each once:
    those from which a clear way leads to it. The dependences are, each once, the writes and reads
    of a variable that such a way joins. -/
theorem reachingDefinitions_exact (hr : g.InRange) (hn : g.ids.Nodup) :
    DefinitionFlow.Run (g.transfer g.definitions) g.positions g.initialFlow
      g.reachingDefinitions.flow ∧
    (∀ y, (g.reachingDefinitions.reaching g y).Nodup ∧ ∀ x var,
      (x, var) ∈ g.reachingDefinitions.reaching g y ↔
        ∃ source ∈ g.nodes, source.id = x ∧ var ∈ source.defs ∧
          ∃ between, g.ClearWay var x between y) ∧
    (g.reachingDefinitions.dependences g).Nodup ∧ ∀ x y var,
      ⟨x, y, var⟩ ∈ g.reachingDefinitions.dependences g ↔
        ∃ source ∈ g.nodes, ∃ target ∈ g.nodes, source.id = x ∧ target.id = y ∧
          var ∈ source.defs ∧ var ∈ target.uses ∧ ∃ between, g.ClearWay var x between y := by
  refine ⟨run_reachingDefinitions hr, fun y => ⟨nodup_reaching hn y, fun x var => ?_⟩,
    nodup_dependences hn, fun x y var => ?_⟩
  · rw [mem_reaching_iff hr hn, carries_iff_exists_clearWay]
    constructor
    · rintro ⟨⟨source, hsource, hid, hwrite⟩, hway⟩
      exact ⟨source, hsource, hid, hwrite, hway⟩
    · rintro ⟨source, hsource, hid, hwrite, hway⟩
      exact ⟨⟨source, hsource, hid, hwrite⟩, hway⟩
  · simp only [mem_dependences_iff hr hn, carries_iff_exists_clearWay]

/-- A variable is counted up by a node that follows itself, and read by one that nothing leads to. -/
def counting : FlowGraph where
  callable := ⟨0⟩
  entry := { id := ⟨0⟩, callable := ⟨0⟩, kind := .entry, text := "enter" }
  exit := { id := ⟨1⟩, callable := ⟨0⟩, kind := .exit, text := "exit" }
  inner := [{ id := ⟨2⟩, callable := ⟨0⟩, kind := .statement, text := "i = i = 0", defs := ["i", "i"] },
    { id := ⟨3⟩, callable := ⟨0⟩, kind := .statement, text := "i++", defs := ["i"], uses := ["i"] },
    { id := ⟨4⟩, callable := ⟨0⟩, kind := .statement, text := "i", uses := ["i"] }]
  arcs := [⟨0, 2, ⟨.unconditional, none⟩⟩, ⟨2, 3, ⟨.trueBranch, none⟩⟩, ⟨2, 3, ⟨.falseBranch, none⟩⟩,
    ⟨3, 3, ⟨.loopBack, none⟩⟩, ⟨3, 1, ⟨.unconditional, none⟩⟩, ⟨4, 1, ⟨.unconditional, none⟩⟩]

/-- The node reads what it wrote itself, once around the loop, and what the variable was at first.
    Neither gets to the node that nothing leads to. -/
theorem counting_exact : counting.InRange ∧ counting.ids.Nodup ∧
    counting.reachingDefinitions.dependences counting = [⟨⟨2⟩, ⟨3⟩, "i"⟩, ⟨⟨3⟩, ⟨3⟩, "i"⟩] ∧
    (∃ between, counting.ClearWay "i" ⟨3⟩ between ⟨3⟩) ∧ ∀ between, ¬counting.ClearWay "i" ⟨2⟩ between ⟨4⟩ := by
  have hr : counting.InRange := by unfold InRange; decide
  have hn : counting.ids.Nodup := by decide
  have hfound : counting.reachingDefinitions.dependences counting =
      [⟨⟨2⟩, ⟨3⟩, "i"⟩, ⟨⟨3⟩, ⟨3⟩, "i"⟩] := by cbv
  obtain ⟨-, -, -, hexact⟩ := reachingDefinitions_exact hr hn
  refine ⟨hr, hn, hfound, ?_, fun between hway => ?_⟩
  · obtain ⟨-, -, -, -, -, -, -, -, hway⟩ := (hexact ⟨3⟩ ⟨3⟩ "i").1 (by simp [hfound])
    exact hway
  · have hmem := (hexact ⟨2⟩ ⟨4⟩ "i").2 ⟨_, List.mem_of_getElem? (i := 2) rfl, _,
      List.mem_of_getElem? (i := 4) rfl, rfl, rfl, by decide, by decide, between, hway⟩
    simp [hfound] at hmem

end FlowGraph

end Slicing
