import Slicing.Flow.Structure
import Slicing.Proofs.Flow.Graph
import Slicing.Proofs.Flow.PostDominatorTree

/-!
# Well-formed flow graphs

What is needed of a flow graph for the analyses to accept it (`FlowGraph.Formed`): the
numbers of its nodes are distinct, nothing leads to its entry or on from its exit, and
along arcs and the steps of flagged loops everything is reached from the entry and
reaches the exit. Such a graph passes `checkStructure`, and its control dependences are
found (`Formed.controlDependences_eq_ok`) and are the expected ones
(`Formed.mem_controlDependences_iff`).
-/

namespace Slicing

/-! ## Lists with several members -/

/-- Two different things are left without repetitions. -/
theorem exists_ne_of_two_le_length_eraseDups {α : Type} [BEq α] [LawfulBEq α] {l : List α}
    (hlen : 2 ≤ l.eraseDups.length) : ∃ a ∈ l, ∃ b ∈ l, a ≠ b := by
  cases l with
  | nil => simp at hlen
  | cons a l =>
    rw [List.eraseDups_cons, List.length_cons] at hlen
    obtain ⟨b, hb⟩ := List.exists_mem_of_length_pos (Nat.succ_le_succ_iff.1 hlen)
    rw [List.mem_eraseDups, List.mem_filter] at hb
    refine ⟨a, List.mem_cons_self, b, List.mem_cons_of_mem _ hb.1, ?_⟩
    rintro rfl
    simp at hb

theorem two_le_length_of_mem_of_ne {α : Type} {l : List α} {a b : α} (ha : a ∈ l) (hb : b ∈ l)
    (hne : a ≠ b) : 2 ≤ l.length := by
  match l with
  | [] => cases ha
  | [c] => exact absurd ((List.mem_singleton.1 ha).trans (List.mem_singleton.1 hb).symm) hne
  | _ :: _ :: _ => exact Nat.le_add_left 2 _

namespace FlowGraph

variable {g : FlowGraph} {p q v w : Nat} {id : NodeId}

/-- A position is reached from another along steps. -/
def StepsTo (g : FlowGraph) : Nat → Nat → Prop :=
  Relation.ReflTransGen fun p q => (p, q) ∈ g.steps

/-- The immediate post-dominator of a position, as it is looked up. -/
def parent? (g : FlowGraph) (v : Nat) : Option Nat :=
  ((immediatePostDominators g.controlSteps)[v]?).join

/-- One position depends on another: one of the ways out of this one leads to it for
    certain, and not all of them do. -/
def Controls (g : FlowGraph) (v w : Nat) : Prop :=
  ∃ x, (v, x) ∈ g.controlSteps.steps ∧ g.controlSteps.PostDominates w x ∧
    ¬(w ≠ v ∧ g.controlSteps.PostDominates w v)

/-- A graph whose nodes are told apart by their numbers and whose arcs join its nodes. -/
structure Proper (g : FlowGraph) : Prop where
  nodup : g.ids.Nodup
  inRange : g.InRange
  exitHead : g.exitHead < g.size

/-- A graph that the analyses accept. -/
structure Formed (g : FlowGraph) : Prop where
  nodup : g.ids.Nodup
  inRange : g.InRange
  exitHead : g.exitHead < g.size
  /-- Nothing leads to the entry. -/
  entry : ∀ arc ∈ g.arcs, arc.target ≠ entryPosition
  /-- Nothing leads on from the exit. -/
  exit : ∀ q, (exitPosition, q) ∉ g.steps
  reached : ∀ p < g.size, g.StepsTo entryPosition p
  exits : ∀ p < g.size, g.StepsTo p exitPosition

theorem Formed.proper (hg : g.Formed) : g.Proper := ⟨hg.nodup, hg.inRange, hg.exitHead⟩

/-- Steps go along arcs, and from flagged loops to the head of the exit. -/
theorem mem_steps_iff : (p, q) ∈ g.steps ↔
    (∃ arc ∈ g.arcs, arc.source = p ∧ arc.target = q) ∨
      (∃ id ∈ g.nonTerminating, g.position? id = some p) ∧ q = g.exitHead := by
  simp only [steps, List.mem_append, List.mem_map, List.mem_filterMap, Prod.mk.injEq]
  refine or_congr_right ⟨?_, ?_⟩
  · rintro ⟨p', h, rfl, rfl⟩
    exact ⟨h, rfl⟩
  · rintro ⟨h, rfl⟩
    exact ⟨p, h, rfl, rfl⟩

theorem exit_lt_size (g : FlowGraph) : exitPosition < g.size := by
  simp [exitPosition, size, nodes]

theorem entry_lt_size (g : FlowGraph) : entryPosition < g.size := by
  simp [entryPosition, size, nodes]

/-- What is looked up are the parents in the tree of post-dominators. -/
theorem parent?_eq (g : FlowGraph) (v : Nat) :
    g.parent? v = (PostDominatorTree.compute g.controlSteps.adjacency).parent? v := by
  rw [parent?, immediatePostDominators, PostDominatorTree.parent?, Array.getD_eq_getD_getElem?]
  cases (PostDominatorTree.compute g.controlSteps.adjacency).parents[v]? <;> rfl

namespace Proper

/-- Steps go between positions. -/
theorem steps_inRange (hg : g.Proper) (h : (p, q) ∈ g.steps) : p < g.size ∧ q < g.size := by
  rcases mem_steps_iff.1 h with ⟨arc, harc, rfl, rfl⟩ | ⟨⟨id, -, hp⟩, rfl⟩
  exacts [hg.inRange arc harc, ⟨(idAt_of_position?_eq_some hp).1, hg.exitHead⟩]

theorem controlSteps_inRange (hg : g.Proper) : g.controlSteps.InRange := by
  refine ⟨g.exit_lt_size, fun step hstep => ?_⟩
  rcases List.mem_append.1 hstep with hstep | hstep
  · exact hg.steps_inRange hstep
  · rw [List.mem_singleton.1 hstep]
    exact ⟨g.entry_lt_size, g.exit_lt_size⟩

/-- The parents of positions are their immediate post-dominators. -/
theorem parents (hg : g.Proper) : g.controlSteps.Parents g.parent? := by
  intro v hv hne
  rw [parent?_eq]
  exact FlowSteps.parents_adjacency hg.controlSteps_inRange v hv hne

/-- Only the exit, and what does not come to it, has no parent. -/
theorem parent?_eq_none_iff (hg : g.Proper) :
    g.parent? v = none ↔ v = exitPosition ∨ ¬g.controlSteps.Exits v := by
  rw [parent?_eq]
  exact FlowSteps.parent?_adjacency_eq_none_iff hg.controlSteps_inRange

theorem parent?_exit (hg : g.Proper) : g.parent? exitPosition = none :=
  hg.parent?_eq_none_iff.2 (.inl rfl)

/-- What has several ways to go on is a branch. -/
theorem isBranch (hg : g.Proper) (hv : v < g.size) (hlen : 2 ≤ (g.controlSteps.targets v).length) :
    g.isBranch v := by
  obtain ⟨x, hx, y, hy, hne⟩ := exists_ne_of_two_le_length_eraseDups hlen
  by_cases hentry : v = entryPosition
  · simp [FlowGraph.isBranch, hentry]
  by_cases hflag : g.idAt v ∈ g.nonTerminating
  · simp [FlowGraph.isBranch, hflag]
  -- otherwise the ways are arcs, to nodes with different numbers
  have harc {z : Nat} (hz : z ∈ ((g.controlSteps.steps.filter (·.1 == v)).map (·.2))) :
      z < g.size ∧ g.idAt z ∈ g.successors (g.idAt v) := by
    have hstep : (v, z) ∈ g.controlSteps.steps := by simpa using hz
    rcases List.mem_append.1 hstep with hstep | hstep
    · refine ⟨(hg.steps_inRange hstep).2, ?_⟩
      rcases mem_steps_iff.1 hstep with ⟨arc, harc, hsource, rfl⟩ | ⟨⟨id, hid, hpos⟩, -⟩
      · rw [successors, (position?_eq_some_iff hg.nodup).2 ⟨hv, rfl⟩, mem_ascending]
        exact List.mem_map.2 ⟨arc, List.mem_filter.2 ⟨harc, by simpa using hsource⟩, rfl⟩
      · exact absurd ((idAt_of_position?_eq_some hpos).2 ▸ hid) hflag
    · exact absurd (congrArg Prod.fst (List.mem_singleton.1 hstep)) hentry
  have htwo := two_le_length_of_mem_of_ne (harc hx).2 (harc hy).2 fun heq =>
    hne (idAt_injective hg.nodup (harc hx).1 (harc hy).1 heq)
  simp [FlowGraph.isBranch, htwo]

/-- The pairs that are found where the exit is reached from everywhere. -/
theorem mem_controlPairs_iff (hg : g.Proper) (hall : ∀ v < g.size, g.controlSteps.Exits v) :
    (v, w) ∈ controlPairs g.controlSteps g.parent? ↔
      w ≠ exitPosition ∧ 2 ≤ (g.controlSteps.targets v).length ∧ g.Controls v w := by
  have hpairs : (v, w) ∈ controlPairs g.controlSteps g.parent? ↔
      v < g.size ∧ w ∈ controlledBy g.controlSteps g.parent? v := by
    simp [controlPairs, FlowSteps.positions, controlSteps]
  have hcontrolled (hv : v < g.size) := FlowSteps.mem_controlledBy_iff (w := w)
    hg.controlSteps_inRange rfl hg.parents hg.parent?_exit hall hv
  rw [hpairs]
  constructor
  · rintro ⟨hv, hw⟩
    exact (hcontrolled hv).1 hw
  · intro hc
    have hv : v < g.size := by
      obtain ⟨-, -, x, hx, -⟩ := hc
      exact (hg.controlSteps_inRange.steps _ hx).1
    exact ⟨hv, (hcontrolled hv).2 hc⟩

/-- Where the exit is reached from everywhere, the control dependences are found. -/
theorem controlDependences_eq_ok (hg : g.Proper) (hall : ∀ v < g.size, g.controlSteps.Exits v) :
    g.controlDependences =
      .ok ((controlPairs g.controlSteps g.parent?).map fun (v, w) => ⟨g.idAt v, g.idAt w⟩) := by
  have hparent : (g.controlSteps.positions.find? fun v =>
      v != exitPosition && (g.parent? v).isNone) = none := by
    rw [List.find?_eq_none]
    intro v hv
    by_cases hexit : v = exitPosition
    · simp [hexit]
    · obtain ⟨p, hp, -⟩ := hg.parents v (hall v (List.mem_range.1 hv)) hexit
      simp [hp]
  have hbranch : ((controlPairs g.controlSteps g.parent?).find? fun pair =>
      !g.isBranch pair.1) = none := by
    rw [List.find?_eq_none]
    rintro ⟨v, w⟩ hmem
    obtain ⟨-, hlen, x, hx, -⟩ := (hg.mem_controlPairs_iff hall).1 hmem
    simpa using hg.isBranch (hg.controlSteps_inRange.steps _ hx).1 hlen
  unfold parent? at hparent hbranch
  unfold controlDependences
  dsimp only
  rw [hparent]
  dsimp only
  rw [hbranch]
  rfl

end Proper

namespace Formed

/-! ## Structure -/

/-- What steps lead to is found. -/
theorem mem_reachedFrom (hg : g.Formed) (h : g.StepsTo p q) : q ∈ g.reachedFrom p := by
  rw [reachedFrom, Digraph.mem_reach_iff]
  induction h with
  | refl => exact .refl p
  | tail _ hstep ih =>
    refine ih.step ?_ (List.mem_range.2 (hg.proper.steps_inRange hstep).2)
    simpa [stepTargets, List.mem_eraseDups] using hstep

/-- What steps lead from is found. -/
theorem mem_reaching (hg : g.Formed) (h : g.StepsTo p q) : p ∈ g.reaching q := by
  rw [reaching, Digraph.mem_reach_iff]
  induction h using Relation.ReflTransGen.head_induction_on with
  | refl => exact .refl q
  | head hstep _ ih =>
    refine ih.step ?_ (List.mem_range.2 (hg.proper.steps_inRange hstep).1)
    simpa [stepSources, List.mem_eraseDups] using hstep

theorem firstMissing?_eq_none {found : List Nat} (h : ∀ p < g.size, p ∈ found) :
    g.firstMissing? found = none := by
  rw [firstMissing?, Option.map_eq_none_iff, List.find?_eq_none]
  intro p hp
  simpa using h p (List.mem_range.1 hp)

/-- A graph that is formed as it should be passes its check. -/
theorem checkStructure_eq_ok (hg : g.Formed) : g.checkStructure = .ok () := by
  have hentry : (g.arcsInto entryPosition).isEmpty := by
    rw [List.isEmpty_iff, arcsInto, List.filter_eq_nil_iff]
    intro arc harc
    simpa using hg.entry arc harc
  have hreached (p : Nat) (hp : p < g.size) := hg.mem_reachedFrom (hg.reached p hp)
  have hexit : exitPosition ∈ g.reachedFrom entryPosition :=
    hreached _ g.exit_lt_size
  have hnone : g.defect? = none := by
    rw [defect?]
    simp only [hentry, Bool.not_true, Bool.false_eq_true, if_false,
      List.contains_iff_mem.2 hexit, firstMissing?_eq_none hreached,
      firstMissing?_eq_none fun p hp => hg.mem_reaching (hg.exits p hp)]
    rfl
  rw [checkStructure, hnone]

/-! ## Control dependence -/

/-- Every position comes to the exit. -/
theorem controlSteps_exits (hg : g.Formed) (hv : v < g.size) : g.controlSteps.Exits v := by
  have h := hg.exits v hv
  induction h using Relation.ReflTransGen.head_induction_on with
  | refl => exact .exit id
  | head hstep _ ih =>
    exact .step id (List.mem_append_left _ hstep) (ih (hg.proper.steps_inRange hstep).2)

theorem exit_step (hg : g.Formed) : (exitPosition, q) ∉ g.controlSteps.steps := by
  intro h
  rcases List.mem_append.1 h with h | h
  · exact hg.exit q h
  · simp [entryPosition, exitPosition] at h

theorem ne_exit_of_controls (hg : g.Formed) (hc : g.Controls v w) : v ≠ exitPosition := by
  rintro rfl
  obtain ⟨x, hx, -⟩ := hc
  exact hg.exit_step hx

/-- The exit is certain wherever control is. -/
theorem not_controls_exit (hg : g.Formed) : ¬g.Controls v exitPosition := by
  intro hc
  obtain ⟨x, hx, -, hstrict⟩ := id hc
  have hv := (hg.proper.controlSteps_inRange.steps _ hx).1
  exact hstrict ⟨(hg.ne_exit_of_controls hc).symm, .exit (hg.controlSteps_exits hv)⟩

/-- The pairs found are those of which one controls the other. -/
theorem mem_controlPairs_iff (hg : g.Formed) :
    (v, w) ∈ controlPairs g.controlSteps g.parent? ↔ g.Controls v w := by
  have hall (v : Nat) (hv : v < g.size) := hg.controlSteps_exits hv
  refine (hg.proper.mem_controlPairs_iff hall).trans ⟨fun h => h.2.2, fun hc => ⟨?_, ?_, hc⟩⟩
  · rintro rfl
    exact hg.not_controls_exit hc
  · obtain ⟨x, hx, hw, hs⟩ := id hc
    have hexits := hall v (hg.proper.controlSteps_inRange.steps _ hx).1
    exact FlowSteps.length_targets hexits (hg.ne_exit_of_controls hc) hx hw hs

/-- The control dependences of a well-formed graph are found. -/
theorem controlDependences_eq_ok (hg : g.Formed) : g.controlDependences =
    .ok ((controlPairs g.controlSteps g.parent?).map fun (v, w) => ⟨g.idAt v, g.idAt w⟩) :=
  hg.proper.controlDependences_eq_ok fun _ hv => hg.controlSteps_exits hv

/-- They are the expected ones. -/
theorem mem_controlDependences_iff (hg : g.Formed) {ds : List ControlDependence}
    (hds : g.controlDependences = .ok ds) {d : ControlDependence} :
    d ∈ ds ↔ ∃ v w, g.Controls v w ∧ d = ⟨g.idAt v, g.idAt w⟩ := by
  rw [hg.controlDependences_eq_ok, Except.ok.injEq] at hds
  rw [← hds, List.mem_map]
  constructor
  · rintro ⟨⟨v, w⟩, hmem, rfl⟩
    exact ⟨v, w, hg.mem_controlPairs_iff.1 hmem, rfl⟩
  · rintro ⟨v, w, hc, rfl⟩
    exact ⟨(v, w), hg.mem_controlPairs_iff.2 hc, rfl⟩

end Formed

end FlowGraph

end Slicing
