import Slicing.Proofs.Slice.Shortcut

/-!
# Backward and forward slices are dual

A node is in the backward slice of another one if and only if that one is in its forward slice
(`Slicer.Serves.mem_backward_iff_mem_forward`).

The reverse of a traversal (`Traversal.reverse`) goes the other way along the same edges. Where
one moves into a caller the other moves into a callee, so that the phases change their places
(`Traversal.admissible_reverse`), and a path in two phases, read backwards, is a path in two
phases: what was the second one comes first.
-/

namespace Slicing

open Relation

/-! ## Reverse traversals -/

/-- The other direction. -/
def Direction.reverse : Direction → Direction
  | .backward => .forward
  | .forward => .backward

/-- The phase that allows the moves of a phase in the other direction. -/
def Phase.reverse : Phase → Phase
  | .full => .full
  | .ascend => .descend
  | .descend => .ascend

@[simp]
theorem Direction.reverse_reverse (direction : Direction) : direction.reverse.reverse = direction := by
  cases direction <;> rfl

@[simp]
theorem Phase.reverse_reverse (phase : Phase) : phase.reverse.reverse = phase := by
  cases phase <;> rfl

/-- What leads into a caller leads into a callee the other way. -/
theorem Dependence.descends_reverse {direction : Direction} {d : Dependence} :
    d.Descends direction.reverse ↔ d.Ascends direction := by
  cases direction <;> cases d <;> rfl

/-- What leads out of a callee in one direction leads into it in the other. -/
theorem Dependence.ascends_reverse {direction : Direction} {d : Dependence} :
    d.Ascends direction.reverse ↔ d.Descends direction := by
  cases direction <;> cases d <;> rfl

namespace Traversal

/-- A traversal the other way. -/
def reverse (t : Traversal) : Traversal := { t with direction := t.direction.reverse }

@[simp]
theorem reverse_reverse (t : Traversal) : t.reverse.reverse = t := by
  simp [reverse]

variable {t : Traversal} {g : SystemGraph} {phase : Phase} {location location' : Location}
  {n n' m u v : NodeId}

/-- A dependence may be followed the other way in the other phase. -/
theorem Admissible.reverse {d : Dependence} (hd : t.Admissible g phase d) :
    t.reverse.Admissible g phase.reverse d where
  control := hd.control
  summary := hd.summary
  ascend hphase hmove := by
    refine hd.descend ?_ (Dependence.descends_reverse.1 hmove)
    rw [← phase.reverse_reverse, hphase]
    rfl
  descend hphase hmove := by
    refine hd.ascend ?_ (Dependence.ascends_reverse.1 hmove)
    rw [← phase.reverse_reverse, hphase]
    rfl

/-! ## Paths -/

/-- A step between two nodes is taken the other way by the reverse traversal. -/
theorem Step.reverse (hu : u ∈ g.nodeIds) (hstep : t.Step g ⟨location, none⟩ n phase u v) :
    t.reverse.Step g ⟨location', none⟩ n' phase.reverse v u := by
  rw [step_iff] at hstep ⊢
  obtain ⟨-, d, hadmissible, hedge⟩ := hstep
  refine ⟨hu, d, hadmissible.reverse, ?_⟩
  change match t.direction.reverse with
    | .backward => ⟨u, v, d⟩ ∈ g.edges
    | .forward => ⟨v, u, d⟩ ∈ g.edges
  revert hedge
  cases t.direction <;> exact id

/-- Paths of a phase are paths of the reverse phase the other way. -/
theorem reach_reverse (hu : u ∈ g.nodeIds)
    (hreach : ReflTransGen (t.Step g ⟨location, none⟩ n phase) u v) :
    ReflTransGen (t.reverse.Step g ⟨location', none⟩ n' phase.reverse) v u ∧ v ∈ g.nodeIds := by
  induction hreach with
  | refl => exact ⟨.refl, hu⟩
  | tail _ hstep ih => exact ⟨.head (hstep.reverse ih.2) ih.1, hstep.1⟩

/-- From what a traversal finds, the reverse traversal finds where it started. -/
theorem mem_found_reverse (hn : n ∈ g.nodeIds) (hm : m ∈ t.found g ⟨n, none⟩) :
    n ∈ t.reverse.found g ⟨m, none⟩ := by
  cases hstrategy : t.strategy with
  | closure =>
    have hreverse : t.reverse.strategy = .closure := hstrategy
    rw [mem_found_iff hstrategy (.node n)] at hm
    rw [mem_found_iff hreverse (.node m)]
    exact (reach_reverse hn hm).1
  | twoPhase =>
    have hreverse : t.reverse.strategy = .twoPhase := hstrategy
    rw [mem_found_iff_of_twoPhase hstrategy (.node n)] at hm
    rw [mem_found_iff_of_twoPhase hreverse (.node m)]
    -- the way out to callers and back into callees is walked from its other end
    obtain ⟨k, hascend, hdescend⟩ := hm
    obtain ⟨hascend, hk⟩ := reach_reverse hn hascend
    exact ⟨k, (reach_reverse hk hdescend).1, hascend⟩

end Traversal

/-! ## Answers -/

namespace Slicer

variable {g : SystemGraph} {config : SliceConfig} {s s' : Slicer}

/-- One node is in the backward slice of another if and only if the other is in the forward
    slice of the one, whatever was asked before. -/
theorem Serves.mem_backward_iff_mem_forward (hs : Serves g config s) (hs' : Serves g config s')
    {a b : NodeId} (ha : a ∈ g.nodeIds) (hb : b ∈ g.nodeIds) :
    ∃ before after, (s.ask (.backward config ⟨.node b, none⟩)).1 = .ok before ∧
      (s'.ask (.forward config ⟨.node a, none⟩)).1 = .ok after ∧
      (a ∈ before.nodes ↔ b ∈ after.nodes) := by
  rw [hs.ask_eq, hs'.ask_eq, Query.backward, Query.forward, Query.answer_slice_node,
    Query.answer_slice_node, if_pos ha, if_pos hb]
  refine ⟨_, _, rfl, rfl, ?_⟩
  simp only [Slice.ofNodes, mem_ascending]
  exact ⟨Traversal.mem_found_reverse hb, Traversal.mem_found_reverse ha⟩

/-- A parameter that is handed over at two calls influences what the last callee is given, and
    the other way round, also if the callables call each other. -/
theorem recursion_dual : ∃ g,
    SystemGraph.build ⟨true, 9⟩ (SystemGraph.declarations [⟨0⟩, ⟨1⟩, ⟨2⟩, ⟨3⟩])
        (SystemGraph.callsFrom [(0, 1), (1, 0), (1, 2)]) SystemGraph.relays = .ok g ∧
      (⟨2⟩ ∈ g.nodeIds ∧ ⟨16⟩ ∈ g.nodeIds) ∧
      ∃ before after,
        (({ graph := g, config := ⟨.backward, .twoPhase, true, true, 0⟩ } : Slicer).ask
          (.backward ⟨.backward, .twoPhase, true, true, 0⟩ ⟨.node ⟨16⟩, none⟩)).1 = .ok before ∧
        (({ graph := g, config := ⟨.backward, .twoPhase, true, true, 0⟩ } : Slicer).ask
          (.forward ⟨.backward, .twoPhase, true, true, 0⟩ ⟨.node ⟨2⟩, none⟩)).1 = .ok after ∧
        (⟨2⟩ ∈ before.nodes ↔ ⟨16⟩ ∈ after.nodes) := by
  obtain ⟨g, hg, hcaller, hcallee⟩ : ∃ g, SystemGraph.build ⟨true, 9⟩
      (SystemGraph.declarations [⟨0⟩, ⟨1⟩, ⟨2⟩, ⟨3⟩])
      (SystemGraph.callsFrom [(0, 1), (1, 0), (1, 2)]) SystemGraph.relays = .ok g ∧
        ⟨2⟩ ∈ g.nodeIds ∧ ⟨16⟩ ∈ g.nodeIds :=
    SystemGraph.exists_ok_of_any (by cbv)
  have hnew : Serves g ⟨.backward, .twoPhase, true, true, 0⟩
      { graph := g, config := ⟨.backward, .twoPhase, true, true, 0⟩ } := .new rfl
  exact ⟨g, hg, ⟨hcaller, hcallee⟩, hnew.mem_backward_iff_mem_forward hnew hcaller hcallee⟩

end Slicer

end Slicing
