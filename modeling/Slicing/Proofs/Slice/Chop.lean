import Slicing.Proofs.Slice.Duality

/-!
# Chops

A chop of two nodes is what is found from the one forward and from the other one backward. With
plain reachability it holds just the nodes on paths from the one to the other
(`Slicer.Serves.ask_chop`). A *path* (`SystemGraph.Path`) leads along edges that the
configuration lets slices follow, in both directions alike (`SliceConfig.Follows`); a node alone
is a path from the node to itself.

What is found backward is where paths to the node start (`Traversal.reach_backward_iff`). The
reverse traversal walks the same paths from their start, so that what is found by both is where a
path from the source and one to the target meet (`SystemGraph.Path.join`).
-/

namespace Slicing

open Relation

/-! ## Paths -/

/-- Dependences that are followed, if moves between callables are not restricted. -/
structure SliceConfig.Follows (config : SliceConfig) (g : SystemGraph) (d : Dependence) : Prop where
  control : d.kind = .control ∨ d.kind = .call → config.includeControl = true
  summary : ∀ site, d = .summary site → config.useSummaries = true ∨ g.isOpaqueAt site = true

namespace SystemGraph

variable {g : SystemGraph} {config : SliceConfig} {a b m : NodeId} {path path' : List NodeId}

/-- The nodes from one to another, along edges that are followed. -/
inductive Path (g : SystemGraph) (config : SliceConfig) : NodeId → List NodeId → NodeId → Prop
  | single {n : NodeId} : n ∈ g.nodeIds → Path g config n [n] n
  | cons {u v b : NodeId} {d : Dependence} {path : List NodeId} : u ∈ g.nodeIds → ⟨u, v, d⟩ ∈ g.edges →
      config.Follows g d → Path g config v path b → Path g config u (u :: path) b

namespace Path

/-- A path starts on itself. -/
theorem start_mem (h : g.Path config a path b) : a ∈ path := by
  cases h <;> exact List.mem_cons_self

/-- A path starts at a node of the graph. -/
theorem start_mem_nodeIds (h : g.Path config a path b) : a ∈ g.nodeIds := by
  cases h <;> assumption

/-- A path ends on itself. -/
theorem end_mem (h : g.Path config a path b) : b ∈ path := by
  induction h with
  | single _ => exact List.mem_cons_self
  | cons _ _ _ _ ih => exact List.mem_cons_of_mem _ ih

/-- Where a path ends another one goes on. -/
theorem join (h : g.Path config a path m) (h' : g.Path config m path' b) :
    ∃ path'', g.Path config a path'' b ∧ m ∈ path'' := by
  induction h with
  | single _ => exact ⟨path', h', h'.start_mem⟩
  | cons hu he hd _ ih =>
    obtain ⟨path'', hpath, hm⟩ := ih h'
    exact ⟨_, .cons hu he hd hpath, List.mem_cons_of_mem _ hm⟩

/-- A path leads to each of its nodes and on from there. -/
theorem split (h : g.Path config a path b) (hm : m ∈ path) :
    (∃ before, g.Path config a before m) ∧ ∃ after, g.Path config m after b := by
  induction h with
  | single hn =>
    obtain rfl := List.mem_singleton.1 hm
    exact ⟨⟨_, .single hn⟩, ⟨_, .single hn⟩⟩
  | cons hu he hd hpath ih =>
    rcases List.mem_cons.1 hm with rfl | hm
    · exact ⟨⟨_, .single hu⟩, ⟨_, .cons hu he hd hpath⟩⟩
    · obtain ⟨⟨before, hbefore⟩, hafter⟩ := ih hm
      exact ⟨⟨_, .cons hu he hd hbefore⟩, hafter⟩

/-- All of a path are nodes of the graph. -/
theorem mem_nodeIds (h : g.Path config a path b) (hm : m ∈ path) : m ∈ g.nodeIds := by
  obtain ⟨-, after, hafter⟩ := h.split hm
  exact hafter.start_mem_nodeIds

end Path

/-- A node is on a path if one path leads to it and another one on from it. -/
theorem exists_path_iff : (∃ path, g.Path config a path b ∧ m ∈ path) ↔
    (∃ path, g.Path config a path m) ∧ ∃ path, g.Path config m path b := by
  constructor
  · rintro ⟨path, hpath, hm⟩
    exact hpath.split hm
  · rintro ⟨⟨before, hbefore⟩, after, hafter⟩
    exact hbefore.join hafter

end SystemGraph

/-! ## What is found along paths -/

namespace Traversal

variable {g : SystemGraph} {config : SliceConfig} {direction : Direction} {n m : NodeId}

/-- A dependence is followed without restrictions on moves if the configuration admits it. -/
theorem admissible_full_iff {d : Dependence} :
    (config.traversal direction config.includeControl).Admissible g .full d ↔ config.Follows g d :=
  ⟨fun h => ⟨h.control, h.summary⟩, fun h => ⟨h.control, h.summary, nofun, nofun⟩⟩

/-- Backward the starts of the paths to a node are found. -/
theorem reach_backward_iff (location : Location) (hn : n ∈ g.nodeIds) :
    ReflTransGen ((config.traversal .backward config.includeControl).Step g ⟨location, none⟩ n .full) n m ↔
      ∃ path, g.Path config m path n := by
  constructor
  · intro hreach
    induction hreach with
    | refl => exact ⟨_, .single hn⟩
    | tail _ hstep ih =>
      obtain ⟨path, hpath⟩ := ih
      obtain ⟨hv, d, hadmissible, he⟩ := step_iff.1 hstep
      exact ⟨_, .cons hv he (admissible_full_iff.1 hadmissible) hpath⟩
  · rintro ⟨path, hpath⟩
    induction hpath with
    | single _ => exact .refl
    | cons hu he hd _ ih => exact (ih hn).tail (step_iff.2 ⟨hu, _, admissible_full_iff.2 hd, he⟩)

/-- Forward the ends of the paths from a node are found. -/
theorem reach_forward_iff (location : Location) (hn : n ∈ g.nodeIds) :
    ReflTransGen ((config.traversal .forward config.includeControl).Step g ⟨location, none⟩ n .full) n m ↔
      ∃ path, g.Path config n path m := by
  constructor
  · intro hreach
    obtain ⟨hback, hm⟩ := reach_reverse hn hreach
    exact (reach_backward_iff location hm).1 hback
  · rintro ⟨path, hpath⟩
    -- the path is walked from its end, and then the other way round
    have hm := hpath.mem_nodeIds hpath.end_mem
    have hback := (reach_backward_iff location hm).2 ⟨path, hpath⟩
    exact (reach_reverse hm hback).1

end Traversal

/-! ## Answers -/

namespace Slicer

variable {g : SystemGraph} {config : SliceConfig} {a b : NodeId}

/-- With plain reachability a chop holds just the nodes on paths from its source to its target.
    It is empty if there is no such path, and otherwise holds both of them; and it is what the
    backward slice of the target and the forward slice of the source have in common. -/
theorem Serves.ask_chop (hstrategy : config.strategy = .closure) (ha : a ∈ g.nodeIds)
    (hb : b ∈ g.nodeIds) :
    ∃ chop before after : Slice,
      (∀ s, Serves g config s →
        (s.ask (.chop ⟨.node a, none⟩ ⟨.node b, none⟩)).1 = .ok chop ∧
        (s.ask (.backward config ⟨.node b, none⟩)).1 = .ok before ∧
        (s.ask (.forward config ⟨.node a, none⟩)).1 = .ok after) ∧
      (∀ m, m ∈ chop.nodes ↔ ∃ path, g.Path config a path b ∧ m ∈ path) ∧
      (chop.nodes = [] ↔ ¬∃ path, g.Path config a path b) ∧
      ((∃ path, g.Path config a path b) → a ∈ chop.nodes ∧ b ∈ chop.nodes) ∧
      ∀ m, m ∈ chop.nodes ↔ m ∈ before.nodes ∧ m ∈ after.nodes := by
  let before := (config.traversal .backward config.includeControl).found g ⟨b, none⟩
  let after := (config.traversal .forward config.includeControl).found g ⟨a, none⟩
  let chop := Slice.ofNodes g ⟨.node b, none⟩ b .backward (before.filter (after.contains ·))
  have hbefore (m : NodeId) : m ∈ before ↔ ∃ path, g.Path config m path b :=
    (Traversal.mem_found_iff hstrategy (.node b)).trans (Traversal.reach_backward_iff _ hb)
  have hafter (m : NodeId) : m ∈ after ↔ ∃ path, g.Path config a path m :=
    (Traversal.mem_found_iff hstrategy (.node a)).trans (Traversal.reach_forward_iff _ ha)
  have hcommon (m : NodeId) : m ∈ chop.nodes ↔ m ∈ before ∧ m ∈ after := by
    simp [chop, Slice.ofNodes, mem_ascending]
  -- a path from the source and one to the target meet at what both traversals find
  have hchop (m : NodeId) : m ∈ chop.nodes ↔ ∃ path, g.Path config a path b ∧ m ∈ path := by
    rw [hcommon, hbefore, hafter, SystemGraph.exists_path_iff, and_comm]
  have hends (hpath : ∃ path, g.Path config a path b) : a ∈ chop.nodes ∧ b ∈ chop.nodes := by
    obtain ⟨path, hpath⟩ := hpath
    exact ⟨(hchop a).2 ⟨path, hpath, hpath.start_mem⟩, (hchop b).2 ⟨path, hpath, hpath.end_mem⟩⟩
  refine ⟨chop, .ofNodes g ⟨.node b, none⟩ b .backward before,
    .ofNodes g ⟨.node a, none⟩ a .forward after, fun s hs => ⟨?_, ?_, ?_⟩, hchop, ?_, hends, fun m => ?_⟩
  · rw [hs.ask_eq, Query.answer_chop_node, if_pos ha, if_pos hb]
    rfl
  · rw [hs.ask_eq, Query.backward, Query.answer_slice_node, if_pos hb]
    rfl
  · rw [hs.ask_eq, Query.forward, Query.answer_slice_node, if_pos ha]
    rfl
  · rw [List.eq_nil_iff_forall_not_mem]
    constructor
    · exact fun hempty hpath => hempty a (hends hpath).1
    · rintro hnone m hm
      obtain ⟨path, hpath, -⟩ := (hchop m).1 hm
      exact hnone ⟨path, hpath⟩
  · rw [hcommon, Slice.ofNodes, Slice.ofNodes, mem_ascending, mem_ascending]

/-- Two callables call each other, and the second one may call a third one instead. The parameter
    of the first comes to the third by way of that of the second, and not by what a call
    returns. -/
theorem recursion_chop : ∃ g,
    SystemGraph.build ⟨true, 9⟩ (SystemGraph.declarations [⟨0⟩, ⟨1⟩, ⟨2⟩, ⟨3⟩])
        (SystemGraph.callsFrom [(0, 1), (1, 0), (1, 2)]) SystemGraph.relays = .ok g ∧
      (∃ path, g.Path ⟨.backward, .closure, true, true, 0⟩ ⟨2⟩ path ⟨16⟩ ∧ ⟨9⟩ ∈ path) ∧
      ∀ path, g.Path ⟨.backward, .closure, true, true, 0⟩ ⟨2⟩ path ⟨16⟩ → ⟨12⟩ ∉ path := by
  obtain ⟨g, hg, hfirst, hthird, hanswer⟩ : ∃ g, SystemGraph.build ⟨true, 9⟩
      (SystemGraph.declarations [⟨0⟩, ⟨1⟩, ⟨2⟩, ⟨3⟩])
      (SystemGraph.callsFrom [(0, 1), (1, 0), (1, 2)]) SystemGraph.relays = .ok g ∧
        g.contains ⟨2⟩ = true ∧ g.contains ⟨16⟩ = true ∧
        (({ graph := g, config := ⟨.backward, .closure, true, true, 0⟩ } : Slicer).ask
          (.chop ⟨.node ⟨2⟩, none⟩ ⟨.node ⟨16⟩, none⟩)).1.toOption.any
            (fun slice => decide (⟨9⟩ ∈ slice.nodes ∧ ⟨12⟩ ∉ slice.nodes)) = true :=
    SystemGraph.exists_ok_of_any (by cbv)
  have hserves : Serves g ⟨.backward, .closure, true, true, 0⟩
      { graph := g, config := ⟨.backward, .closure, true, true, 0⟩ } := .new rfl
  have hstrategy : (SliceConfig.mk .backward .closure true true 0).strategy = .closure := rfl
  obtain ⟨chop, _, _, hasked, hpath, -⟩ := Serves.ask_chop hstrategy (List.contains_iff_mem.1 hfirst)
    (List.contains_iff_mem.1 hthird)
  obtain ⟨hchop, -⟩ := hasked _ hserves
  rw [hchop] at hanswer
  obtain ⟨hon, hoff⟩ := of_decide_eq_true hanswer
  exact ⟨g, hg, (hpath ⟨9⟩).1 hon, fun path hp hmem => hoff ((hpath ⟨12⟩).2 ⟨path, hp, hmem⟩)⟩

end Slicer

end Slicing
