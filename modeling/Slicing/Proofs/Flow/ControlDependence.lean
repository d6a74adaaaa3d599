import Mathlib
import Slicing.Proofs.Flow.Formed

/-!
# Control dependence on ways out

What `FlowGraph.controlDependences` finds is said here on the nodes of a graph and on the
ways from them to the exit (`FlowGraph.WayOut`). A way goes along edges, from flagged loop
heads to the exit head and from the entry to the exit (`FlowGraph.Follows`).

The analysis fails if there is no way out from some node, and only then. Otherwise it lists,
each once, the pairs of a node with several ways to go on and a node that all ways out pass
which start with one of these, though some way out of the first node misses it
(`controlDependences_exact`).

The positions of a graph stand for its nodes as long as no number is given twice. A way out
that misses a node is then a way to the exit around its position (`escapes_iff`), and the
order of positions by post-dominance says the rest.
-/

namespace Slicing.FlowGraph

/-- Control may pass from a node to another one. -/
inductive Follows (g : FlowGraph) : NodeId → NodeId → Prop
  | edge {u v : NodeId} : g.HasEdge u v → Follows g u v
  /-- The flagged loops have a way out. -/
  | flagged {u : NodeId} : u ∈ g.ids → u ∈ g.nonTerminating → Follows g u (g.idAt g.exitHead)
  /-- The callable may not run at all. -/
  | through : Follows g g.entry.id g.exit.id

/-- A way from a node to the exit, with the nodes that it passes. -/
inductive WayOut (g : FlowGraph) : NodeId → List NodeId → Prop
  | exit : WayOut g g.exit.id [g.exit.id]
  | step {u v : NodeId} {way : List NodeId} :
    g.Follows u v → WayOut g v way → WayOut g u (u :: way)

/-- Every way out from the second node passes the first. -/
def Inevitable (g : FlowGraph) (b a : NodeId) : Prop := ∀ way, g.WayOut a way → b ∈ way

variable {g : FlowGraph} {p q v w : Nat} {a b u : NodeId}

namespace Proper

/-- What follows is a node. -/
theorem mem_right_of_follows (hg : g.Proper) (h : g.Follows a b) : b ∈ g.ids := by
  cases h with
  | edge h => exact h.mem_right hg.inRange
  | flagged _ _ => exact idAt_mem hg.exitHead
  | through => exact idAt_mem g.exit_lt_size

theorem mem_left_of_follows (hg : g.Proper) (h : g.Follows a b) : a ∈ g.ids := by
  cases h with
  | edge h => exact h.mem_left hg.inRange
  | flagged h _ => exact h
  | through => exact idAt_mem g.entry_lt_size

/-- Nodes follow each other as their positions do. -/
theorem follows_idAt_iff (hg : g.Proper) (hp : p < g.size) (hq : q < g.size) :
    g.Follows (g.idAt p) (g.idAt q) ↔ (p, q) ∈ g.controlSteps.steps := by
  rw [controlSteps, List.mem_append, mem_steps_iff, List.mem_singleton, Prod.mk.injEq]
  constructor
  · intro h
    generalize hs : g.idAt p = s, ht : g.idAt q = t at h
    cases h with
    | edge h =>
      rw [← hs, ← ht] at h
      exact .inl (.inl ((hasEdge_idAt_iff hg.inRange hg.nodup hp hq).1 h))
    | flagged _ hflag =>
      refine .inl (.inr ⟨⟨s, hflag, (position?_eq_some_iff hg.nodup).2 ⟨hp, hs⟩⟩, ?_⟩)
      exact idAt_injective hg.nodup hq hg.exitHead ht
    | through =>
      exact .inr ⟨idAt_injective hg.nodup hp g.entry_lt_size hs,
        idAt_injective hg.nodup hq g.exit_lt_size ht⟩
  · rintro ((harc | ⟨⟨id, hflag, hpos⟩, rfl⟩) | ⟨rfl, rfl⟩)
    · exact .edge ((hasEdge_idAt_iff hg.inRange hg.nodup hp hq).2 harc)
    · obtain ⟨-, rfl⟩ := idAt_of_position?_eq_some hpos
      exact .flagged (idAt_mem hp) hflag
    · exact .through

theorem mem_ids_of_wayOut (hg : g.Proper) {way : List NodeId} (h : g.WayOut u way) (hb : b ∈ way) :
    b ∈ g.ids := by
  induction h with
  | exit => exact List.mem_singleton.1 hb ▸ idAt_mem g.exit_lt_size
  | step hfollows _ ih =>
    rcases List.mem_cons.1 hb with rfl | hb
    exacts [hg.mem_left_of_follows hfollows, ih hb]

/-- The ways between positions to the exit that avoid some of these are the ways between nodes
    that miss them. -/
theorem escapes_iff (hg : g.Proper) {avoid : Nat → Prop} (hp : p < g.size) :
    g.controlSteps.Escapes avoid p ↔
      ∃ way, g.WayOut (g.idAt p) way ∧ ∀ q < g.size, avoid q → g.idAt q ∉ way := by
  constructor
  · intro h
    induction h with
    | exit hexit =>
      refine ⟨_, .exit, fun q hq ha hmem => ?_⟩
      obtain rfl := idAt_injective hg.nodup hq g.exit_lt_size (List.mem_singleton.1 hmem)
      exact hexit ha
    | @step v w hv hstep _ ih =>
      have hw := (hg.controlSteps_inRange.steps _ hstep).2
      obtain ⟨way, hway, hmiss⟩ := ih hw
      refine ⟨_, .step ((hg.follows_idAt_iff hp hw).2 hstep) hway, fun q hq ha hmem => ?_⟩
      rcases List.mem_cons.1 hmem with hmem | hmem
      · exact hv (idAt_injective hg.nodup hq hp hmem ▸ ha)
      · exact hmiss q hq ha hmem
  · rintro ⟨way, hway, hmiss⟩
    generalize hu : g.idAt p = u at hway
    induction hway generalizing p with
    | exit =>
      obtain rfl := idAt_injective hg.nodup hp g.exit_lt_size hu
      exact .exit fun ha => hmiss _ hp ha (by simp [hu])
    | step hfollows _ ih =>
      obtain ⟨q, hq, rfl⟩ := exists_idAt_of_mem (hg.mem_right_of_follows hfollows)
      refine .step (fun ha => hmiss p hp ha (by simp [hu]))
        ((hg.follows_idAt_iff hp hq).1 (hu ▸ hfollows))
        (ih hq (fun r hr ha hmem => hmiss r hr ha (List.mem_cons_of_mem _ hmem)) rfl)

/-- A position comes to the exit if its node has a way out. -/
theorem exits_iff (hg : g.Proper) (hp : p < g.size) :
    g.controlSteps.Exits p ↔ ∃ way, g.WayOut (g.idAt p) way := by
  simp [FlowSteps.Exits, hg.escapes_iff hp]

/-- Post-dominance of positions is inevitability of their nodes. -/
theorem postDominates_iff (hg : g.Proper) (hp : p < g.size) (hw : w < g.size)
    (hexits : g.controlSteps.Exits p) :
    g.controlSteps.PostDominates w p ↔ g.Inevitable (g.idAt w) (g.idAt p) := by
  have haround : g.controlSteps.Around w p ↔
      ∃ way, g.WayOut (g.idAt p) way ∧ g.idAt w ∉ way := by
    refine (hg.escapes_iff hp).trans ?_
    refine exists_congr fun way => and_congr_right fun _ => ⟨fun h => h w hw rfl, ?_⟩
    rintro h q - rfl
    exact h
  rw [FlowSteps.PostDominates, haround, Inevitable]
  simp [hexits]

/-- The ways to go on from a position are several if its node is followed by different nodes. -/
theorem two_le_targets_iff (hg : g.Proper) (hp : p < g.size) :
    2 ≤ (g.controlSteps.targets p).length ↔
      ∃ s t, g.Follows (g.idAt p) s ∧ g.Follows (g.idAt p) t ∧ s ≠ t := by
  constructor
  · intro hlen
    obtain ⟨x, hx, y, hy, hne⟩ := exists_ne_of_two_le_length_eraseDups hlen
    have hstep {z : Nat} (hz : z ∈ ((g.controlSteps.steps.filter (·.1 == p)).map (·.2))) :
        (p, z) ∈ g.controlSteps.steps := by simpa using hz
    have hlt {z : Nat} (hz : (p, z) ∈ g.controlSteps.steps) : z < g.size :=
      (hg.controlSteps_inRange.steps _ hz).2
    refine ⟨g.idAt x, g.idAt y, (hg.follows_idAt_iff hp (hlt (hstep hx))).2 (hstep hx),
      (hg.follows_idAt_iff hp (hlt (hstep hy))).2 (hstep hy), fun heq => hne ?_⟩
    exact idAt_injective hg.nodup (hlt (hstep hx)) (hlt (hstep hy)) heq
  · rintro ⟨s, t, hs, ht, hne⟩
    obtain ⟨x, hx, rfl⟩ := exists_idAt_of_mem (hg.mem_right_of_follows hs)
    obtain ⟨y, hy, rfl⟩ := exists_idAt_of_mem (hg.mem_right_of_follows ht)
    exact two_le_length_of_mem_of_ne
      (FlowSteps.mem_targets.2 ((hg.follows_idAt_iff hp hx).1 hs))
      (FlowSteps.mem_targets.2 ((hg.follows_idAt_iff hp hy).1 ht)) fun heq => hne (heq ▸ rfl)

/-- A position controls another one if it is inevitable behind one arc, but not in any case. -/
theorem controls_iff (hg : g.Proper) (hall : ∀ v < g.size, g.controlSteps.Exits v)
    (hv : v < g.size) (hw : w < g.size) :
    g.Controls v w ↔ (∃ s, g.Follows (g.idAt v) s ∧ g.Inevitable (g.idAt w) s) ∧
      ¬(g.idAt w ≠ g.idAt v ∧ g.Inevitable (g.idAt w) (g.idAt v)) := by
  have hne : w ≠ v ↔ g.idAt w ≠ g.idAt v :=
    not_congr ⟨fun h => h ▸ rfl, idAt_injective hg.nodup hw hv⟩
  rw [← hg.postDominates_iff hv hw (hall v hv), ← hne, Controls]
  constructor
  · rintro ⟨x, hx, hpost, hs⟩
    have hlt := (hg.controlSteps_inRange.steps _ hx).2
    exact ⟨⟨g.idAt x, (hg.follows_idAt_iff hv hlt).2 hx,
      (hg.postDominates_iff hlt hw (hall x hlt)).1 hpost⟩, hs⟩
  · rintro ⟨⟨s, hfollows, hs⟩, hstrict⟩
    obtain ⟨x, hx, rfl⟩ := exists_idAt_of_mem (hg.mem_right_of_follows hfollows)
    exact ⟨x, (hg.follows_idAt_iff hv hx).1 hfollows,
      (hg.postDominates_iff hx hw (hall x hx)).2 hs, hstrict⟩

/-! ## What is found -/

/-- Without a way out from some position the analysis fails for want of a post-dominator. -/
theorem controlDependences_eq_error (hg : g.Proper) (hp : p < g.size)
    (hexits : ¬g.controlSteps.Exits p) : ∃ id, g.controlDependences =
      .error (.structural g.callable (.noPostDominator id)) := by
  have hparent : g.parent? p = none := hg.parent?_eq_none_iff.2 (.inr hexits)
  have hne : p ≠ exitPosition := by
    rintro rfl
    exact hexits (.exit id)
  have hsome : (g.controlSteps.positions.find? fun v =>
      v != exitPosition && (g.parent? v).isNone).isSome :=
    List.find?_isSome.2 ⟨p, List.mem_range.2 hp, by simp [hne, hparent]⟩
  obtain ⟨r, hr⟩ := Option.isSome_iff_exists.1 hsome
  refine ⟨g.idAt r, ?_⟩
  unfold parent? at hr
  unfold controlDependences
  dsimp only
  rw [hr]

/-- No pair is found twice. -/
theorem nodup_controlPairs (g : FlowGraph) :
    (controlPairs g.controlSteps g.parent?).Nodup := by
  refine List.nodup_flatMap.2 ⟨fun v _ => ?_, ?_⟩
  · refine List.Nodup.map (fun w w' h => congrArg Prod.snd h) ?_
    rw [controlledBy]
    split
    · exact List.nodup_nil
    · exact nodup_eraseDups _
  · refine List.nodup_range.imp fun {v v'} hne => ?_
    rw [Function.onFun, List.disjoint_left]
    intro pair hpair hpair'
    obtain ⟨w, -, rfl⟩ := List.mem_map.1 hpair
    obtain ⟨w', -, heq⟩ := List.mem_map.1 hpair'
    exact hne (congrArg Prod.fst heq).symm

/-- No control dependence is listed twice. -/
theorem nodup_controlDependences (hg : g.Proper) (hall : ∀ v < g.size, g.controlSteps.Exits v) :
    ((controlPairs g.controlSteps g.parent?).map fun (v, w) =>
      (⟨g.idAt v, g.idAt w⟩ : ControlDependence)).Nodup := by
  refine List.Nodup.map_on ?_ (nodup_controlPairs g)
  have hlt {v w : Nat} (h : (v, w) ∈ controlPairs g.controlSteps g.parent?) :
      v < g.size ∧ w < g.size := by
    obtain ⟨-, -, x, hx, hpost, -⟩ := (hg.mem_controlPairs_iff hall).1 h
    exact ⟨(hg.controlSteps_inRange.steps _ hx).1, hpost.exits.lt hg.controlSteps_inRange⟩
  rintro ⟨v, w⟩ h ⟨v', w'⟩ h' heq
  rw [ControlDependence.mk.injEq] at heq
  obtain ⟨hv, hw⟩ := hlt h
  obtain ⟨hv', hw'⟩ := hlt h'
  rw [idAt_injective hg.nodup hv hv' heq.1, idAt_injective hg.nodup hw hw' heq.2]

/-- The control dependences, by the ways out of a graph. -/
theorem mem_controlDependences_iff (hg : g.Proper) (hall : ∀ v < g.size, g.controlSteps.Exits v) :
    ⟨a, b⟩ ∈ ((controlPairs g.controlSteps g.parent?).map fun (v, w) =>
        (⟨g.idAt v, g.idAt w⟩ : ControlDependence)) ↔
      b ≠ g.exit.id ∧ (∃ s t, g.Follows a s ∧ g.Follows a t ∧ s ≠ t) ∧
        (∃ s, g.Follows a s ∧ g.Inevitable b s) ∧ ¬(b ≠ a ∧ g.Inevitable b a) := by
  have hexit {w : Nat} (hw : w < g.size) : w ≠ exitPosition ↔ g.idAt w ≠ g.exit.id :=
    not_congr ⟨fun h => h ▸ rfl, idAt_injective hg.nodup hw g.exit_lt_size⟩
  rw [List.mem_map]
  constructor
  · rintro ⟨⟨v, w⟩, hmem, heq⟩
    obtain ⟨rfl, rfl⟩ := ControlDependence.mk.inj heq
    obtain ⟨hne, hlen, hc⟩ := (hg.mem_controlPairs_iff hall).1 hmem
    obtain ⟨x, hx, hpost, -⟩ := id hc
    have hv := (hg.controlSteps_inRange.steps _ hx).1
    have hw := hpost.exits.lt hg.controlSteps_inRange
    exact ⟨(hexit hw).1 hne, (hg.two_le_targets_iff hv).1 hlen, (hg.controls_iff hall hv hw).1 hc⟩
  · rintro ⟨hne, htwo, ⟨s, hfollows, hs⟩, hstrict⟩
    obtain ⟨v, hv, rfl⟩ := exists_idAt_of_mem (hg.mem_left_of_follows hfollows)
    -- there is a way out behind `s`, and it passes `b`
    obtain ⟨x, hx, rfl⟩ := exists_idAt_of_mem (hg.mem_right_of_follows hfollows)
    obtain ⟨way, hway⟩ := (hg.exits_iff hx).1 (hall x hx)
    obtain ⟨w, hw, rfl⟩ := exists_idAt_of_mem (hg.mem_ids_of_wayOut hway (hs way hway))
    exact ⟨(v, w), (hg.mem_controlPairs_iff hall).2 ⟨(hexit hw).2 hne,
      (hg.two_le_targets_iff hv).2 htwo,
      (hg.controls_iff hall hv hw).2 ⟨⟨_, hfollows, hs⟩, hstrict⟩⟩, rfl⟩

end Proper

/-- Control dependence is exact. The analysis fails just if there is no way out from some node,
    and never since a controller is no branch. Otherwise it finds, each once, the pairs of a
    node with different ways to go on and a node other than the exit that is inevitable behind
    one of these, and not a strict post-dominator of the first. -/
theorem controlDependences_exact (hg : g.Proper) :
    ((∃ e, g.controlDependences = .error e) ↔
      ∃ u ∈ g.ids, u ≠ g.exit.id ∧ ∀ way, ¬g.WayOut u way) ∧
    (∀ ds, g.controlDependences = .ok ds → ds.Nodup ∧ ∀ a b,
      ⟨a, b⟩ ∈ ds ↔ b ≠ g.exit.id ∧
        (∃ s t, g.Follows a s ∧ g.Follows a t ∧ s ≠ t) ∧
        (∃ s, g.Follows a s ∧ g.Inevitable b s) ∧ ¬(b ≠ a ∧ g.Inevitable b a)) ∧
    ∀ callable id, g.controlDependences ≠ .error (.structural callable (.notABranch id)) := by
  -- the analysis succeeds just if the exit can be reached from everywhere
  by_cases hall : ∀ v < g.size, g.controlSteps.Exits v
  · have hok := hg.controlDependences_eq_ok hall
    refine ⟨⟨?_, ?_⟩, ?_, ?_⟩
    · rintro ⟨e, he⟩
      simp [hok] at he
    · rintro ⟨u, hu, -, hnone⟩
      obtain ⟨p, hp, rfl⟩ := exists_idAt_of_mem hu
      obtain ⟨way, hway⟩ := (hg.exits_iff hp).1 (hall p hp)
      exact absurd hway (hnone way)
    · intro ds hds
      rw [hok, Except.ok.injEq] at hds
      subst hds
      exact ⟨hg.nodup_controlDependences hall, fun a b => hg.mem_controlDependences_iff hall⟩
    · simp [hok]
  · push Not at hall
    obtain ⟨p, hp, hexits⟩ := hall
    obtain ⟨id, herror⟩ := hg.controlDependences_eq_error hp hexits
    refine ⟨⟨fun _ => ?_, fun _ => ⟨_, herror⟩⟩, ?_, ?_⟩
    · refine ⟨g.idAt p, idAt_mem hp, fun heq => ?_, fun way hway =>
        hexits ((hg.exits_iff hp).2 ⟨way, hway⟩)⟩
      obtain rfl := idAt_injective hg.nodup hp g.exit_lt_size heq
      exact hexits (.exit fun h => h)
    · intro ds hds
      simp [herror] at hds
    · simp [herror]

/-- A loop whose test and whose body follow the exit. -/
def tangle : FlowGraph where
  callable := ⟨0⟩
  entry := { id := ⟨0⟩, callable := ⟨0⟩, kind := .entry, text := "enter" }
  exit := { id := ⟨1⟩, callable := ⟨0⟩, kind := .exit, text := "exit" }
  inner := [{ id := ⟨2⟩, callable := ⟨0⟩, kind := .predicate, text := "test" },
    { id := ⟨3⟩, callable := ⟨0⟩, kind := .statement, text := "body" }]
  arcs := [⟨0, 2, ⟨.unconditional, none⟩⟩, ⟨2, 3, ⟨.trueBranch, none⟩⟩, ⟨3, 2, ⟨.loopBack, none⟩⟩,
    ⟨2, 1, ⟨.falseBranch, none⟩⟩, ⟨1, 2, ⟨.unconditional, none⟩⟩, ⟨1, 3, ⟨.unconditional, none⟩⟩]

/-- The test controls itself and the body, and so does the exit: one of the ways on from it leads
    to the body for certain. -/
theorem tangle_exact : tangle.Proper ∧
    tangle.controlDependences =
      .ok [⟨⟨0⟩, ⟨2⟩⟩, ⟨⟨1⟩, ⟨2⟩⟩, ⟨⟨1⟩, ⟨3⟩⟩, ⟨⟨2⟩, ⟨3⟩⟩, ⟨⟨2⟩, ⟨2⟩⟩] ∧
    (∃ s, tangle.Follows ⟨1⟩ s ∧ tangle.Inevitable ⟨3⟩ s) ∧ ¬tangle.Inevitable ⟨3⟩ ⟨1⟩ := by
  have hproper : tangle.Proper := ⟨by decide, by unfold InRange; decide, by decide⟩
  have hfound : tangle.controlDependences =
      .ok [⟨⟨0⟩, ⟨2⟩⟩, ⟨⟨1⟩, ⟨2⟩⟩, ⟨⟨1⟩, ⟨3⟩⟩, ⟨⟨2⟩, ⟨3⟩⟩, ⟨⟨2⟩, ⟨2⟩⟩] := by cbv
  obtain ⟨-, -, hs, hstrict⟩ :=
    (((controlDependences_exact hproper).2.1 _ hfound).2 ⟨1⟩ ⟨3⟩).1 (by decide)
  exact ⟨hproper, hfound, hs, fun h => hstrict ⟨by decide, h⟩⟩

end Slicing.FlowGraph
