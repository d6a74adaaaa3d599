import Mathlib.Data.List.Perm.Subperm
import Slicing.Flow.ControlDependence

/-!
# Post-dominance on ways to the exit

Post-dominance is said here on ways from position to position: one position post-dominates
another if the exit is reached from there, but not around it (`FlowSteps.PostDominates`).
This is an order. The immediate post-dominator of a position is the strict one that all
others post-dominate (`FlowSteps.Immediate`).

Given the immediate post-dominators, the chain above a position holds all its
post-dominators, which says on which positions another one is control dependent
(`mem_controlledBy_iff`): where some way leads to it for certain, though it may be missed.
-/

namespace Slicing

namespace FlowSteps

variable {f : FlowSteps} {avoid avoid' : Nat → Prop} {a b c v w x y : Nat}

/-- The steps stay between the positions. -/
structure InRange (f : FlowSteps) : Prop where
  exit : f.exit < f.size
  steps : ∀ step ∈ f.steps, step.1 < f.size ∧ step.2 < f.size

/-- The exit is reached from a position by a way without certain positions. -/
inductive Escapes (f : FlowSteps) (avoid : Nat → Prop) : Nat → Prop
  | exit : ¬avoid f.exit → Escapes f avoid f.exit
  | step {v w : Nat} : ¬avoid v → (v, w) ∈ f.steps → Escapes f avoid w → Escapes f avoid v

/-- The exit is reached from a position. -/
def Exits (f : FlowSteps) (v : Nat) : Prop := f.Escapes (fun _ => False) v

/-- The exit is reached from a position by a way around another. -/
def Around (f : FlowSteps) (a v : Nat) : Prop := f.Escapes (· = a) v

/-- Every way from `b` to the exit passes `a`, and there is one. -/
def PostDominates (f : FlowSteps) (a b : Nat) : Prop := f.Exits b ∧ ¬f.Around a b

namespace Escapes

theorem not_avoid (he : f.Escapes avoid v) : ¬avoid v := by
  cases he with
  | exit h => exact h
  | step h _ _ => exact h

/-- A way that avoids some positions avoids any of them. -/
theorem mono (he : f.Escapes avoid v) (h : ∀ x, avoid' x → avoid x) : f.Escapes avoid' v := by
  induction he with
  | exit hexit => exact .exit fun ha => hexit (h _ ha)
  | step hv hstep _ ih => exact .step (fun ha => hv (h _ ha)) hstep ih

/-- A way to the exit around some positions is a way to the exit. -/
theorem exits (he : f.Escapes avoid v) : f.Exits v := he.mono fun _ hf => hf.elim

/-- A way to the exit passes a position, or it is a way around it. -/
theorem passes_or (he : f.Escapes avoid v) (a : Nat) :
    f.Escapes avoid a ∨ f.Escapes (fun x => avoid x ∨ x = a) v := by
  induction he with
  | exit hexit =>
    by_cases ha : f.exit = a
    · exact .inl (ha ▸ .exit hexit)
    · exact .inr (.exit fun h => h.elim hexit ha)
  | step hv hstep he ih =>
    rename_i v w
    by_cases ha : v = a
    · exact .inl (ha ▸ .step hv hstep he)
    · exact ih.imp_right fun h => .step (fun h => h.elim hv ha) hstep h

end Escapes

namespace PostDominates

theorem refl (hv : f.Exits v) : f.PostDominates v v := ⟨hv, fun ha => ha.not_avoid rfl⟩

/-- The exit post-dominates every position from which it is reached. -/
theorem exit (hv : f.Exits v) : f.PostDominates f.exit v := by
  refine ⟨hv, fun ha => ?_⟩
  -- each way ends at the exit
  unfold Around at ha
  induction ha with
  | exit h => exact h rfl
  | step _ _ he ih => exact ih he.exits

/-- A post-dominator reaches the exit as well. -/
theorem exits (h : f.PostDominates a b) : f.Exits a :=
  (h.1.passes_or a).resolve_right fun hr => h.2 (hr.mono fun _ hx => .inr hx)

/-- Post-dominance is transitive. -/
theorem trans (hab : f.PostDominates a b) (hbc : f.PostDominates b c) : f.PostDominates a c := by
  refine ⟨hbc.1, fun ha => ?_⟩
  rcases Escapes.passes_or ha b with hb | hb
  · exact hab.2 hb
  · exact hbc.2 (hb.mono fun _ hx => .inr hx)

/-- Two positions that post-dominate each other are the same: of the last one of them on a way to
    the exit, the other is not passed any more. -/
theorem antisymm (hab : f.PostDominates a b) (hba : f.PostDominates b a) : a = b := by
  by_contra hne
  -- the last of the two on a way to the exit is not post-dominated by the other
  have key {v : Nat} (he : f.Exits v) : f.Escapes (fun x => x = a ∨ x = b) v := by
    unfold Exits at he
    induction he with
    | exit _ =>
      refine .exit ?_
      rintro (h | h)
      · exact hba.2 (h ▸ .exit fun h' => hne (h.symm.trans h'))
      · exact hab.2 (h ▸ .exit fun h' => hne (h'.symm.trans h))
    | step _ hstep _ ih =>
      refine .step ?_ hstep ih
      rintro (h | h)
      · exact hba.2 (h ▸ .step (fun h' => hne (h.symm.trans h')) hstep
          (ih.mono fun _ hx => .inr hx))
      · exact hab.2 (h ▸ .step (fun h' => hne (h'.symm.trans h)) hstep
          (ih.mono fun _ hx => .inl hx))
  exact (key hab.exits).not_avoid (.inl rfl)

/-- Where all steps lead, a strict post-dominator is passed. -/
theorem of_step (h : f.PostDominates a v) (hne : a ≠ v) (hstep : (v, w) ∈ f.steps)
    (hw : f.Exits w) : f.PostDominates a w :=
  ⟨hw, fun ha => h.2 (.step hne.symm hstep ha)⟩

end PostDominates

theorem mem_targets : w ∈ f.targets v ↔ (v, w) ∈ f.steps := by
  simp [targets, FlowGraph.stepTargets, List.mem_eraseDups]

theorem mem_sources : v ∈ f.sources w ↔ (v, w) ∈ f.steps := by
  simp [sources, FlowGraph.stepSources, List.mem_eraseDups]

/-! ## Immediate post-dominators -/

variable {p stop : Nat} {parent? : Nat → Option Nat}

/-- The exit is reached from no position out of range. -/
theorem Exits.lt (hf : f.InRange) (hv : f.Exits v) : v < f.size := by
  cases hv with
  | exit _ => exact hf.exit
  | step _ hstep _ => exact (hf.steps _ hstep).1

/-- A strict post-dominator that all others post-dominate. -/
structure Immediate (f : FlowSteps) (v p : Nat) : Prop where
  ne : p ≠ v
  dominates : f.PostDominates p v
  least : ∀ a, a ≠ v → f.PostDominates a v → f.PostDominates a p

/-- The post-dominators of an immediate post-dominator are the strict ones of the position. -/
theorem Immediate.dominates_iff (hp : f.Immediate v p) :
    f.PostDominates a p ↔ a ≠ v ∧ f.PostDominates a v := by
  refine ⟨fun ha => ⟨?_, ha.trans hp.dominates⟩, fun ha => hp.least a ha.1 ha.2⟩
  rintro rfl
  exact hp.ne (hp.dominates.antisymm ha)

/-- A function gives the immediate post-dominators. -/
def Parents (f : FlowSteps) (parent? : Nat → Option Nat) : Prop :=
  ∀ v, f.Exits v → v ≠ f.exit → ∃ p, parent? v = some p ∧ f.Immediate v p

open Classical in
/-- The post-dominators of a position other than itself. -/
noncomputable def strict (f : FlowSteps) (v : Nat) : List Nat :=
  f.positions.filter fun a => a ≠ v ∧ f.PostDominates a v

theorem mem_strict_iff (hf : f.InRange) : a ∈ f.strict v ↔ a ≠ v ∧ f.PostDominates a v := by
  simp only [strict, List.mem_filter, positions, List.mem_range, decide_eq_true_eq]
  exact and_iff_right_of_imp fun h => h.2.exits.lt hf

/-- The immediate post-dominator has fewer strict post-dominators. -/
theorem length_strict_lt (hf : f.InRange) (hp : f.Immediate v p) :
    (f.strict p).length < (f.strict v).length := by
  have hnodup : (p :: f.strict p).Nodup := by
    refine List.nodup_cons.2 ⟨fun hmem => ?_, List.nodup_range.filter _⟩
    exact ((mem_strict_iff hf).1 hmem).1 rfl
  refine (hnodup.subperm fun a ha => (mem_strict_iff hf).2 ?_).length_le
  rcases List.mem_cons.1 ha with rfl | ha
  · exact ⟨hp.ne, hp.dominates⟩
  · exact hp.dominates_iff.1 ((mem_strict_iff hf).1 ha).2

/-- The chain above a position holds its post-dominators up to where it ends, if it does before
    the exit. -/
theorem mem_chain_iff (hf : f.InRange) (hexit : f.exit = FlowGraph.exitPosition)
    (hparent : f.Parents parent?) {bound : Nat} {stop : Option Nat}
    (hbound : (f.strict x).length < bound) (hx : f.Exits x)
    (hstop : ∀ s ∈ stop, f.PostDominates s x) :
    w ∈ FlowGraph.chain parent? stop bound x ↔
      w ≠ f.exit ∧ f.PostDominates w x ∧ ∀ s ∈ stop, ¬f.PostDominates w s := by
  -- the bound is larger than the number of strict post-dominators, so that it is not used up
  induction bound generalizing x with
  | zero => exact absurd hbound (Nat.not_lt_zero _)
  | succ bound ih =>
    rw [FlowGraph.chain]
    split
    · rename_i hend
      rw [← hexit] at hend
      refine ⟨fun h => (List.not_mem_nil h).elim, fun ⟨hw, hwx, hs⟩ => ?_⟩
      rcases hend with hend | rfl
      · exact absurd hwx (hs x hend.symm)
      · exact absurd (hwx.antisymm (.exit hwx.exits)) hw
    · rename_i hend
      rw [← hexit, not_or] at hend
      obtain ⟨hne, hxexit⟩ := hend
      have hne' (s : Nat) (hs : s ∈ stop) : s ≠ x := fun h => hne (h ▸ hs.symm)
      obtain ⟨p, hp, himm⟩ := hparent x hx hxexit
      have hrest := ih (Nat.lt_of_lt_of_le (length_strict_lt hf himm) (Nat.le_of_lt_succ hbound))
        himm.dominates.exits fun s hs => himm.least s (hne' s hs) (hstop s hs)
      rw [hp, List.mem_cons, hrest, himm.dominates_iff]
      constructor
      · rintro (rfl | ⟨hw, ⟨-, hd⟩, hs⟩)
        · exact ⟨hxexit, .refl hx, fun s hs h => hne' s hs ((hstop s hs).antisymm h)⟩
        · exact ⟨hw, hd, hs⟩
      · rintro ⟨hw, hd, hs⟩
        by_cases heq : w = x
        · exact .inl heq
        · exact .inr ⟨hw, ⟨heq, hd⟩, hs⟩

/-- Where a way leads to a position that may be missed, there is another way. -/
theorem length_targets (hv : f.Exits v) (hne : v ≠ f.exit) (hx : (v, x) ∈ f.steps)
    (hw : f.PostDominates w x) (hs : ¬(w ≠ v ∧ f.PostDominates w v)) :
    2 ≤ (f.targets v).length := by
  by_contra hlen
  -- otherwise all ways lead to `x`
  have honly (y : Nat) (hy : (v, y) ∈ f.steps) : y = x := by
    have hy := mem_targets.2 hy
    have hx := mem_targets.2 hx
    match hl : f.targets v with
    | [] => simp [hl] at hx
    | [z] => simp_all
    | _ :: _ :: _ => simp [hl] at hlen
  by_cases heq : w = v
  · subst heq
    have key {u : Nat} (hu : f.Exits u) : f.Around w u ∨ f.Around w x := by
      unfold Exits at hu
      induction hu with
      | exit _ => exact .inl (.exit (Ne.symm hne))
      | @step u u' _ hstep _ ih =>
        by_cases hu : u = w
        · rw [honly u' (hu ▸ hstep)] at ih
          exact .inr (ih.elim id id)
        · exact ih.imp_left fun h => .step hu hstep h
    exact hw.2 ((key hw.1).elim id id)
  · have haround : f.Around w v := by
      by_contra h
      exact hs ⟨heq, hv, h⟩
    cases haround with
    | exit _ => exact hne rfl
    | step _ hstep h => exact hw.2 (honly _ hstep ▸ h)

/-- Not every position is a strict post-dominator of one. -/
theorem length_strict_lt_size (hf : f.InRange) (hx : f.Exits x) : (f.strict x).length < f.size := by
  have hnodup : (x :: f.strict x).Nodup := by
    refine List.nodup_cons.2 ⟨fun hmem => ?_, List.nodup_range.filter _⟩
    exact ((mem_strict_iff hf).1 hmem).1 rfl
  have hsub : x :: f.strict x ⊆ List.range f.size := by
    exact List.cons_subset.2 ⟨List.mem_range.2 (hx.lt hf), List.filter_subset_self _⟩
  have hlen := (hnodup.subperm hsub).length_le
  rwa [List.length_cons, List.length_range] at hlen

/-- What depends on a position: what one of its several ways leads to for certain, and all of
    them do not. The exit has no post-dominators but itself, so that everything that a way out of
    it leads to for certain depends on it. -/
theorem mem_controlledBy_iff (hf : f.InRange) (hexit : f.exit = FlowGraph.exitPosition)
    (hparent : f.Parents parent?) (hroot : parent? f.exit = none)
    (hall : ∀ v < f.size, f.Exits v) (hv : v < f.size) :
    w ∈ FlowGraph.controlledBy f parent? v ↔
      w ≠ f.exit ∧ 2 ≤ (f.targets v).length ∧
        ∃ x, (v, x) ∈ f.steps ∧ f.PostDominates w x ∧ ¬(w ≠ v ∧ f.PostDominates w v) := by
  -- the chain above a target stops at what post-dominates all ways to go on
  have hchain (x : Nat) (hx : (v, x) ∈ f.steps) :
      w ∈ FlowGraph.chain parent? (parent? v) f.size x ↔
        w ≠ f.exit ∧ f.PostDominates w x ∧ ¬(w ≠ v ∧ f.PostDominates w v) := by
    have hexits := hall x (hf.steps _ hx).2
    have hbound := length_strict_lt_size hf hexits
    by_cases hne : v = f.exit
    · subst hne
      have hstrict : ¬(w ≠ f.exit ∧ f.PostDominates w f.exit) := fun h => h.2.2 (.exit h.1.symm)
      rw [hroot, mem_chain_iff hf hexit hparent hbound hexits (by simp)]
      simp [hstrict]
    · obtain ⟨stop, hstop, himm⟩ := hparent v (hall v hv) hne
      rw [hstop, mem_chain_iff hf hexit hparent hbound hexits (by
        rintro s ⟨⟩
        exact himm.dominates.of_step himm.ne hx hexits)]
      simp [himm.dominates_iff]
  rw [FlowGraph.controlledBy]
  split
  · rename_i hlen
    exact ⟨fun h => (List.not_mem_nil h).elim, fun h => absurd h.2.1 (Nat.not_le_of_lt hlen)⟩
  · rename_i hlen
    rw [List.mem_eraseDups, List.mem_flatMap]
    constructor
    · rintro ⟨x, hx, hw⟩
      obtain ⟨hne, hw⟩ := (hchain x (mem_targets.1 hx)).1 hw
      exact ⟨hne, Nat.le_of_not_lt hlen, x, mem_targets.1 hx, hw⟩
    · rintro ⟨hne, -, x, hx, hw⟩
      exact ⟨x, mem_targets.2 hx, (hchain x hx).2 ⟨hne, hw⟩⟩

end FlowSteps

end Slicing
