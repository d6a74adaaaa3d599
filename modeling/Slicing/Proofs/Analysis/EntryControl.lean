import Slicing.Proofs.Dependence.Analysis
import Slicing.Proofs.Slice.Closure

/-!
# The entry decides about everything

In a flow graph that was built, control dependences lead from the entry to every node but the
exit. Nothing decides about the entry, and the exit neither decides about anything nor is decided
about (`Analysis.entry_decides`). A slice of what influences a criterion that follows control
dependences therefore holds the entry of each callable of which it holds a node other than the
exit.

That the entry decides about a node is shown along the way that leads there from the entry, for
all post-dominators of the positions on it (`FlowGraph.Formed.reach_controls`): a step of the way
either leads to a position with the same post-dominators, or decides about the new ones. Nothing
is left for the entry itself to be sure of but itself, since control could have left at once.
-/

namespace Slicing

open Relation

/-! ## Nothing leads back to the entry -/

namespace FlowGraph

variable {h : Hierarchy} {decl : CallableDecl} {n : Nat} {g : FlowGraph} {p q v w : Nat}

/-- A callable is left through a formal-out or the exit. -/
theorem exitHead_ne_entry (hg : (build h decl n).1 = .ok g) : g.exitHead ≠ entryPosition := by
  cases hbody : decl.body with
  | none =>
    simp only [build, hbody, Except.ok.injEq] at hg
    rw [← hg, addArc]
    split <;> exact Nat.one_ne_zero
  | some body =>
    obtain ⟨ins, t, s, es, outs, u, hb⟩ := Lowering.build_eq_ok hbody hg
    intro hhead
    have hfirst := hb.whole.first
    rw [hhead, hb.idAt_entry] at hfirst
    rcases List.mem_append.1 (List.mem_of_mem_head? hfirst) with hmem | hmem
    · exact Nat.not_succ_le_self _ (Nat.le_of_succ_le (hb.inner_of_mem_es hmem).1)
    · rw [List.mem_singleton, hb.exit_id] at hmem
      simp at hmem

theorem ne_entry_of_step (hg : (build h decl n).1 = .ok g) (hstep : (p, q) ∈ g.controlSteps.steps) :
    q ≠ entryPosition := by
  rcases List.mem_append.1 hstep with hstep | hstep
  · rcases mem_steps_iff.1 hstep with ⟨arc, harc, -, rfl⟩ | ⟨-, rfl⟩
    exacts [(build_formed hg).entry arc harc, exitHead_ne_entry hg]
  · rw [(Prod.mk.inj (List.mem_singleton.1 hstep)).2]
    exact Nat.one_ne_zero

/-- Behind the entry control does not come to it any more. -/
theorem around_entry (hg : (build h decl n).1 = .ok g) (hv : g.controlSteps.Exits v)
    (hne : v ≠ entryPosition) : g.controlSteps.Around entryPosition v := by
  unfold FlowSteps.Exits at hv
  induction hv with
  | exit _ => exact .exit hne
  | step _ hstep _ ih => exact .step hne hstep (ih (ne_entry_of_step hg hstep))

/-- Nothing controls the entry. -/
theorem not_controls_entry (hg : (build h decl n).1 = .ok g) : ¬g.Controls v entryPosition := by
  -- any step leads behind the entry, from where there is a way out around it
  rintro ⟨x, hx, hpost, -⟩
  exact hpost.2 (around_entry hg hpost.1 (ne_entry_of_step hg hx))

/-! ## What the entry decides about -/

namespace Formed

/-- The exit is the only position other than itself that the entry leads to for certain. -/
theorem eq_entry_of_postDominates (hg : g.Formed) (hw : w ≠ exitPosition)
    (hpost : g.controlSteps.PostDominates w entryPosition) : w = entryPosition := by
  by_contra hne
  have hstep : (entryPosition, exitPosition) ∈ g.controlSteps.steps :=
    List.mem_append_right _ (List.mem_singleton_self _)
  -- it would have to be passed on the step to the exit
  have hexit := hpost.of_step hne hstep (hg.controlSteps_exits g.exit_lt_size)
  exact hw (hexit.antisymm (.exit hpost.exits))

/-- The entry decides about what a position leads to for certain. -/
theorem reach_controls (hg : g.Formed) (hv : g.StepsTo entryPosition v) (hw : w ≠ exitPosition)
    (hpost : g.controlSteps.PostDominates w v) : ReflTransGen g.Controls entryPosition w := by
  induction hv generalizing w with
  | refl =>
    rw [hg.eq_entry_of_postDominates hw hpost]
  | @tail u v _ hstep ih =>
    by_cases hbefore : g.controlSteps.PostDominates w u
    · exact ih hw hbefore
    · -- going on from `u` makes certain what was not, so that `u` decides about it
      have hu : u ≠ exitPosition := fun heq => hg.exit v (heq ▸ hstep)
      have hexits := hg.controlSteps_exits (hg.proper.steps_inRange hstep).1
      refine (ih hu (.refl hexits)).tail ⟨v, List.mem_append_left _ hstep, hpost, ?_⟩
      exact fun hstrict => hbefore hstrict.2

end Formed

/-- One node decides about another. -/
def Decides (ds : List ControlDependence) (a b : NodeId) : Prop := ⟨a, b⟩ ∈ ds

/-- The control dependences of a flow graph that was built. -/
theorem controlDependences_of_build (hg : (build h decl n).1 = .ok g) :
    ∃ ds, g.controlDependences = .ok ds ∧
      (∀ id ∈ g.ids, id ≠ g.exit.id → ReflTransGen (Decides ds) g.entry.id id) ∧
      ∀ d ∈ ds, d.dependent ≠ g.entry.id ∧ d.dependent ≠ g.exit.id ∧ d.controller ≠ g.exit.id := by
  have hformed := build_formed hg
  have hok := hformed.controlDependences_eq_ok
  refine ⟨_, hok, fun id hid hne => ?_, fun d hd => ?_⟩
  · obtain ⟨v, hv, rfl⟩ := exists_idAt_of_mem hid
    have hv' : v ≠ exitPosition := by
      rintro rfl
      exact hne rfl
    have hreach := hformed.reach_controls (hformed.reached v hv) hv' (.refl (hformed.controlSteps_exits hv))
    refine ReflTransGen.lift g.idAt (fun a b hc => ?_) _ _ hreach
    exact (hformed.mem_controlDependences_iff hok).2 ⟨a, b, hc, rfl⟩
  · obtain ⟨v, w, hc, rfl⟩ := (hformed.mem_controlDependences_iff hok).1 hd
    obtain ⟨x, hx, hpost, -⟩ := id hc
    have hv := (hformed.proper.controlSteps_inRange.steps _ hx).1
    have hw := hpost.exits.lt hformed.proper.controlSteps_inRange
    refine ⟨fun heq => ?_, fun heq => ?_, fun heq => ?_⟩
    · obtain rfl := idAt_injective hformed.nodup hw g.entry_lt_size heq
      exact not_controls_entry hg hc
    · obtain rfl := idAt_injective hformed.nodup hw g.exit_lt_size heq
      exact hformed.not_controls_exit hc
    · obtain rfl := idAt_injective hformed.nodup hv g.exit_lt_size heq
      exact hformed.ne_exit_of_controls hc rfl

end FlowGraph

/-! ## Slices -/

/-- A slice that follows control dependences backward is closed under them. -/
theorem Slice.Covers.control_mem {slice : Slice} {g : SystemGraph} {t : Traversal} {c : Criterion}
    {n u v : NodeId} (hcovers : slice.Covers g t c n) (hdirection : t.direction = .backward)
    (hcontrol : t.includeControl = true) (hu : u ∈ g.nodeIds) (he : ⟨u, v, .control⟩ ∈ g.edges)
    (hv : v ∈ slice.nodes) : u ∈ slice.nodes := by
  refine hcovers.step_mem (fun phase => ⟨hu, .control, ?_, ?_, ?_⟩) hv
  · refine ⟨fun _ => hcontrol, nofun, fun _ => ?_, fun _ => ?_⟩ <;> rw [hdirection] <;> exact id
  · rw [hdirection]
    exact he
  · rintro - var - carried ⟨⟩

namespace Analysis

/-- The entry of a callable decides about each of its nodes but the exit, along control
    dependences of the callable. -/
theorem reach_of_graph {h : Hierarchy} {decls : List CallableDecl} {p : ProcedureGraph}
    (hp : p ∈ procedureGraphs h decls) {id : NodeId} (hid : id ∈ p.nodeIds) (hne : id ≠ p.exit) :
    ReflTransGen (fun a b => ⟨a, b, .control⟩ ∈ p.edges) p.entry id := by
  obtain ⟨decl, g, a, hbuilt, hof, rfl⟩ := exists_build_of_graph hp
  obtain ⟨-, n, -, hg⟩ := FlowGraph.mem_buildAll hbuilt
  obtain ⟨rfl, hcontrol, -⟩ := LocalAnalysis.ofGraph_eq_ok hof
  obtain ⟨ds, hds, hreach, -⟩ := FlowGraph.controlDependences_of_build hg.symm
  obtain rfl : ds = a.control := Except.ok.inj (hds.symm.trans hcontrol)
  exact ReflTransGen.mono (fun x y hd => LocalAnalysis.mem_control_iff.2 hd) _ _ (hreach id hid hne)

variable {config : Config} {program : Program} {a : Analysis}

/-- With a node of a callable other than its exit, a slice that follows control dependences
    holds the entry of the callable. -/
theorem entry_mem_slice (ha : run config program = .ok a) {slice : Slice} {t : Traversal}
    {c : Criterion} {n : NodeId} (hcovers : slice.Covers a.system t c n)
    (hdirection : t.direction = .backward) (hcontrol : t.includeControl = true) {p : Procedure}
    (hp : p ∈ a.system.procedures) {node : Node} (hnode : node ∈ a.system.nodes)
    (hcallable : node.callable = p.callable) (hne : node.id ≠ p.exit) (hmem : node.id ∈ slice.nodes) :
    p.entry ∈ slice.nodes := by
  have hanalysed := analysed ⟨program.types, program.callables⟩ program.callables
  have hsep := hanalysed.separate
  obtain ⟨g₁, hb⟩ := SystemGraph.build_eq_ok hsep (run_eq_ok ha)
  obtain ⟨graph, hgraph, decl, -, rfl⟩ := hb.assembles.exists_graph hp
  -- the node is one of the graph of the callable
  rw [hb.assembles.nodes] at hnode
  obtain ⟨graph', hgraph', hnode⟩ := List.mem_flatMap.1 hnode
  obtain rfl : graph' = graph := List.inj_on_of_nodup_map hanalysed.callables_nodup hgraph' hgraph
    ((hanalysed.callable_of_mem_nodes hgraph' hnode).symm.trans hcallable)
  have hclosed (u v : NodeId) (he : ⟨u, v, .control⟩ ∈ graph'.edges) (hv : v ∈ slice.nodes) :
      u ∈ slice.nodes := by
    have hu := hb.assembles.mem_nodeIds_iff.2 ⟨_, (SystemGraph.owns_of_mem_edges hsep hgraph' he).1⟩
    have he := (hb.assembles.mem_edges_iff hsep (.inl rfl)).2 ⟨graph', hgraph', he⟩
    exact hcovers.control_mem hdirection hcontrol hu he hv
  have hreach := reach_of_graph hgraph' (List.mem_map_of_mem hnode) hne
  exact ReflTransGen.head_induction_on hreach hmem fun hstep _ ih => hclosed _ _ hstep ih

/-- The entry decides about everything. In a flow graph that was built control dependences lead
    from the entry to every node but the exit, while nothing decides about the entry or the exit
    and the exit decides about nothing; and a backward slice that follows control dependences
    holds the entry of each callable of which it holds a node other than the exit. -/
theorem entry_decides :
    (∀ (h : Hierarchy) (decl : CallableDecl) (n : Nat) (g : FlowGraph),
      (FlowGraph.build h decl n).1 = .ok g → ∃ ds, g.controlDependences = .ok ds ∧
        (∀ id ∈ g.ids, id ≠ g.exit.id → ReflTransGen (FlowGraph.Decides ds) g.entry.id id) ∧
        ∀ d ∈ ds, d.dependent ≠ g.entry.id ∧ d.dependent ≠ g.exit.id ∧ d.controller ≠ g.exit.id) ∧
    ∀ (config : Config) (program : Program) (a : Analysis), run config program = .ok a →
      ∀ (sc : SliceConfig) (s : Slicer), Slicer.Serves a.system sc s → ∀ (c : Criterion) (slice : Slice),
        (s.ask (.slice c .backward true)).1 = .ok slice → ∀ p ∈ a.system.procedures,
          ∀ node ∈ a.system.nodes, node.callable = p.callable → node.id ≠ p.exit →
            node.id ∈ slice.nodes → p.entry ∈ slice.nodes := by
  refine ⟨fun h decl n g hg => FlowGraph.controlDependences_of_build hg, ?_⟩
  intro config program a ha sc s hs c slice hslice p hp node hnode hcallable hne hmem
  rw [hs.ask_eq, mapError_eq_ok_iff] at hslice
  obtain ⟨n, -, -, hcovers⟩ := Query.exists_covers _ _ _ hslice
  exact entry_mem_slice ha hcovers rfl rfl hp hnode hcallable hne hmem

/-- A callable with a loop that nothing ends. -/
def endlessCount : CallableDecl where
  id := ⟨0⟩
  name := "f"
  kind := .method
  owner := ⟨0⟩
  signature := ⟨"f", ["int"]⟩
  isStatic := true
  params := [⟨"x", .byValue⟩]
  returnsValue := true
  body := some [.forLoop ⟨⟨0⟩, "for", none⟩ [] none []
    [.simple ⟨⟨1⟩, "x = x + 1", none⟩ ⟨["x"], ["x"], [], []⟩]]
  span := none

/-- Control does not come to the node that hands back the result, but the entry decides about it
    as well. -/
theorem endlessCount_entry_decides :
    (∃ g ds, (FlowGraph.build ⟨[⟨⟨0⟩, "T", []⟩], [endlessCount]⟩ endlessCount 0).1 = .ok g ∧
      g.controlDependences = .ok ds ∧ g.nonTerminating = [⟨3⟩] ∧
      ReflTransGen (FlowGraph.Decides ds) ⟨0⟩ ⟨5⟩) ∧
    ∃ a slice, run (.ofPreset .balanced) ⟨[⟨⟨0⟩, "T", []⟩], [endlessCount]⟩ = .ok a ∧
      (({ graph := a.system, config := .ofPreset .balanced } : Slicer).ask
        (.slice ⟨.node ⟨5⟩, none⟩ .backward true)).1 = .ok slice ∧
      ⟨5⟩ ∈ slice.nodes ∧ ⟨0⟩ ∈ slice.nodes := by
  obtain ⟨hbuilt, hslices⟩ := entry_decides
  constructor
  · obtain ⟨g, hg, hid, hentry, hexit, hflags⟩ : ∃ g,
        (FlowGraph.build ⟨[⟨⟨0⟩, "T", []⟩], [endlessCount]⟩ endlessCount 0).1 = .ok g ∧
          ⟨5⟩ ∈ g.ids ∧ g.entry.id = ⟨0⟩ ∧ g.exit.id = ⟨1⟩ ∧ g.nonTerminating = [⟨3⟩] :=
      SystemGraph.exists_ok_of_any (by cbv)
    obtain ⟨ds, hds, hreach, -⟩ := hbuilt _ _ _ g hg
    exact ⟨g, ds, hg, hds, hflags, hentry ▸ hreach ⟨5⟩ hid (by simp [hexit])⟩
  · obtain ⟨a, ha, hmem, hanswer⟩ : ∃ a,
        run (.ofPreset .balanced) ⟨[⟨⟨0⟩, "T", []⟩], [endlessCount]⟩ = .ok a ∧
          (∃ p ∈ a.system.procedures, p.entry = ⟨0⟩ ∧ p.exit = ⟨1⟩ ∧
            ∃ node ∈ a.system.nodes, node.callable = p.callable ∧ node.id = ⟨5⟩) ∧
          (({ graph := a.system, config := .ofPreset .balanced } : Slicer).ask
            (.slice ⟨.node ⟨5⟩, none⟩ .backward true)).1.toOption.any
              (fun slice => decide (⟨5⟩ ∈ slice.nodes)) = true :=
      SystemGraph.exists_ok_of_any (by cbv)
    obtain ⟨p, hp, hentry, hexit, node, hnode, hcallable, hid⟩ := hmem
    obtain ⟨slice, hslice, hfound⟩ := SystemGraph.exists_ok_of_any hanswer
    refine ⟨a, slice, ha, hslice, hfound, hentry ▸ ?_⟩
    refine hslices _ _ a ha (.ofPreset .balanced) _ (.new rfl) _ slice hslice p hp node hnode hcallable ?_ ?_
    · rw [hid, hexit]
      decide
    · rwa [hid]

end Analysis

end Slicing
