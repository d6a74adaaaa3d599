import Mathlib
import Slicing.Proofs.Flow.TreeGrowth

/-!
# The tree of post-dominators

The tree that `PostDominatorTree.compute` ends with is right for all positions, arcs and
an exit: those from which the exit is not reached have no place in it, and for the others
the ways up the tree are the post-dominators (`compute_correct`).

A numbering by depth-first exploration lets the first round begin (`grown_start`), and each
round leads to another one or is the last (`Grown.settle`). After the last all parents are
as they are proposed. What is above a position is then above what follows it, and so on
along each way to the exit (`not_around_of_above`).
-/

namespace Slicing

/-- In a list without repetitions, what comes first has the smaller index. -/
theorem idxOf_lt_of_sublist {l : List Nat} {v w : Nat} (hl : l.Nodup) (h : [v, w].Sublist l) :
    l.idxOf v < l.idxOf w := by
  have hpairs : l.Pairwise fun x y => l.idxOf x < l.idxOf y := by
    rw [List.pairwise_iff_getElem]
    intro i j hi hj hlt
    rwa [hl.idxOf_getElem, hl.idxOf_getElem]
  simpa using hpairs.sublist h

namespace FlowAdjacency

variable {adj : FlowAdjacency} {a b v w : Nat}

/-- A way from a position to the exit, with the positions that it passes. -/
inductive WayOut (adj : FlowAdjacency) : Nat → List Nat → Prop
  | exit : WayOut adj adj.exit [adj.exit]
  | step {v w : Nat} {way : List Nat} :
    w ∈ adj.targets v → WayOut adj w way → WayOut adj v (v :: way)

/-- Every way from `b` to the exit passes `a`. -/
def Inevitable (adj : FlowAdjacency) (a b : Nat) : Prop := ∀ way, adj.WayOut b way → a ∈ way

/-- A position escapes by a way out on which nothing is to be avoided. -/
theorem escapes_iff {avoid : Nat → Prop} :
    adj.steps.Escapes avoid v ↔ ∃ way, adj.WayOut v way ∧ ∀ x ∈ way, ¬avoid x := by
  constructor
  · intro h
    induction h with
    | exit hexit => exact ⟨_, .exit, fun x hx => List.mem_singleton.1 hx ▸ hexit⟩
    | step hv hstep _ ih =>
      obtain ⟨way, hway, hmiss⟩ := ih
      exact ⟨_, .step (mem_steps_iff.1 hstep) hway, List.forall_mem_cons.2 ⟨hv, hmiss⟩⟩
  · rintro ⟨way, hway, hmiss⟩
    induction hway with
    | exit => exact .exit (hmiss _ List.mem_cons_self)
    | step hstep _ ih =>
      obtain ⟨hv, hmiss⟩ := List.forall_mem_cons.1 hmiss
      exact .step hv (mem_steps_of_mem hstep) (ih hmiss)

/-- The exit is reached from a position if there is a way out. -/
theorem exits_iff : adj.steps.Exits v ↔ ∃ way, adj.WayOut v way := by
  simp [FlowSteps.Exits, escapes_iff]

/-- A position post-dominates another one that has a way out if it is inevitable there. -/
theorem postDominates_iff : adj.steps.PostDominates a b ↔
    (∃ way, adj.WayOut b way) ∧ adj.Inevitable a b := by
  rw [FlowSteps.PostDominates, exits_iff, FlowSteps.Around, escapes_iff, Inevitable]
  refine and_congr_right fun _ => ?_
  push Not
  refine forall₂_congr fun way _ => ?_
  exact ⟨fun ⟨x, hx, heq⟩ => heq ▸ hx, fun h => ⟨a, h, rfl⟩⟩

/-- The exploration from the exit finds the positions from which it is reached. -/
theorem Consistent.mem_exitOrder_iff (hadj : adj.Consistent) :
    v ∈ adj.exitOrder ↔ adj.steps.Exits v := by
  rw [exitOrder, Digraph.mem_reversePostorder_iff]
  constructor
  · intro h
    induction h with
    | refl => exact .exit id
    | step _ hnext _ ih => exact .step id (mem_steps_of_mem ((hadj.inverse _ _).2 hnext)) ih
  · intro h
    unfold FlowSteps.Exits at h
    induction h with
    | exit _ => exact .refl _
    | step _ hstep _ ih =>
      have hmem := mem_steps_iff.1 hstep
      exact ih.step ((hadj.inverse _ _).1 hmem) (List.mem_range.2 (hadj.target_lt _ _ hmem).1)

end FlowAdjacency

namespace PostDominatorTree

variable {t t' : PostDominatorTree} {a b c d p q s u v w : Nat} {adj : FlowAdjacency}

/-! ## The first round -/

/-- A position gets its place in the order as its number. -/
theorem number_start (hv : v < adj.size) : (start adj).number v = adj.exitOrder.idxOf v := by
  simp [number, start, Array.getD, hv]

theorem parent?_start (v : Nat) : (start adj).parent? v = none := by
  rw [parent?, start, Array.getD_eq_getD_getElem?, Array.getElem?_replicate]
  split <;> rfl

/-- At the start only the exit is placed. -/
theorem placed_start_iff : (start adj).Placed v ↔ v = adj.exit :=
  ⟨fun h => h.resolve_right (by simp [parent?_start]), .inl⟩

/-- The numbers at the start are the places in the order. -/
theorem numbered_start (hadj : adj.Consistent) : (start adj).Numbered adj := by
  have hnodup := Digraph.nodup_reversePostorder ⟨List.range adj.size, adj.sources⟩ adj.exit
  have hnumber {v : Nat} (hv : adj.steps.Exits v) :
      (start adj).number v = adj.exitOrder.idxOf v := number_start (hv.lt hadj.inRange)
  refine ⟨rfl, by simp [start], ?_, fun v w hv hw h => ?_, fun v hv hne => ?_⟩
  · obtain ⟨rest, hrest⟩ := Digraph.reversePostorder_eq_cons ⟨List.range adj.size, adj.sources⟩ adj.exit
    rw [number_start hadj.exit, FlowAdjacency.exitOrder, hrest, List.idxOf_cons_self]
  · rw [hnumber hv, hnumber hw] at h
    exact (List.idxOf_inj (hadj.mem_exitOrder_iff.2 hv)).1 h
  · obtain ⟨s, hsub, hs⟩ := Digraph.exists_predecessor_of_mem (hadj.mem_exitOrder_iff.2 hv) hne
    have hexits := hadj.mem_exitOrder_iff.1 (hsub.subset List.mem_cons_self)
    refine ⟨s, (hadj.inverse v s).2 hs, hexits, ?_⟩
    rw [hnumber hv, hnumber hexits]
    exact idxOf_lt_of_sublist hnodup hsub

/-- At the start the turns of the positions are their places in the order. -/
theorem turns_start (hadj : adj.Consistent) : (start adj).Turns adj 1 adj.exitOrder.tail := by
  have hnodup : adj.exitOrder.Nodup :=
    Digraph.nodup_reversePostorder ⟨List.range adj.size, adj.sources⟩ adj.exit
  intro j v hv
  rw [List.getElem?_tail] at hv
  obtain ⟨hlt, hat⟩ := List.getElem?_eq_some_iff.1 hv
  have hexits := hadj.mem_exitOrder_iff.1 (List.mem_of_getElem? hv)
  have hidx : (start adj).number v = 1 + j := by
    rw [number_start (hexits.lt hadj.inRange), ← hat, hnodup.idxOf_getElem, Nat.add_comm]
  refine ⟨hexits, ?_, hidx⟩
  rintro rfl
  have hroot := (numbered_start hadj).number_root
  omega

/-- The number of a position with a way out is one of the order. -/
theorem number_start_lt (hadj : adj.Consistent) (hv : adj.steps.Exits v) :
    (start adj).number v < 1 + adj.exitOrder.tail.length := by
  have hmem := hadj.mem_exitOrder_iff.2 hv
  have hlt := List.idxOf_lt_length_of_mem hmem
  rw [number_start (hv.lt hadj.inRange), List.length_tail]
  omega

/-- At first only the exit has its place. -/
theorem grown_start (hadj : adj.Consistent) : (start adj).Grown adj 1 where
  numbered := numbered_start hadj
  exits v hv := by
    rw [placed_start_iff] at hv
    exact hv ▸ .exit id
  parent v p hp := by simp [parent?_start] at hp
  turned v hv hlt := by
    have hn := numbered_start hadj
    refine placed_start_iff.2 (hn.injective v adj.exit hv (.exit id) ?_)
    rw [hn.number_root]
    omega
  before v w hv hw hle := by
    have hn := numbered_start hadj
    rw [placed_start_iff] at hv
    subst hv
    refine placed_start_iff.2 (hn.injective w adj.exit hw (.exit id) ?_)
    rw [hn.number_root] at hle ⊢
    omega
  around v p hp := by simp [parent?_start] at hp
  sound v hv d hd := by
    rw [placed_start_iff] at hv
    subst hv
    by_cases heq : d = adj.exit
    · exact heq ▸ .refl d
    · exact absurd (.exit fun h => heq h.symm) hd.2
  lax v p hp := by simp [parent?_start] at hp
  kept v p hp := by simp [parent?_start] at hp

/-! ## The last round -/

/-- The rounds come to an end, with a tree in which all parents are as they are proposed. -/
theorem Grown.settle {order : List Nat} (hadj : adj.Consistent) (hg : t.Grown adj 1)
    (hturns : t.Turns adj 1 order) (hall : ∀ v, adj.steps.Exits v → t.number v < 1 + order.length) :
    Rounds adj order t (PostDominatorTree.settle adj order t) ∧
      (PostDominatorTree.settle adj order t).Grown adj (1 + order.length) ∧
      (PostDominatorTree.settle adj order t).numbers = t.numbers ∧
      ∀ v ∈ order, ∀ q, (PostDominatorTree.settle adj order t).proposal? (adj.targets v) = some q →
        (PostDominatorTree.settle adj order t).parent? v = some q := by
  have hnumber {t' : PostDominatorTree} (h : t'.numbers = t.numbers) (v : Nat) :
      t'.number v = t.number v := by
    rw [number, number, h]
  -- a round that changes nothing is the last one, and any other one lowers the weight
  fun_induction PostDominatorTree.settle adj order t with
  | case1 t hstays =>
    obtain ⟨hgrown, hnumbers, changed, hround, hfalse, htrue⟩ := hg.sweep hadj hturns
    cases changed with
    | false =>
      have heq := hfalse rfl
      rw [heq] at hround hgrown
      exact ⟨.last hround, hgrown, rfl, hround.of_unchanged.2⟩
    | true => exact absurd hstays (Nat.ne_of_lt (htrue rfl))
  | case2 t hchanges ih =>
    obtain ⟨hgrown, hnumbers, changed, hround, hfalse, -⟩ := hg.sweep hadj hturns
    have hsame := hnumber hnumbers
    obtain ⟨hrounds, hrest⟩ := ih
      (hgrown.restart (fun v hv => by rw [hsame]; exact hall v hv) (Nat.le_add_right 1 _))
      (fun j v hv => by rw [hsame]; exact hturns j v hv)
      (fun v hv => by rw [hsame]; exact hall v hv) fun h v => by rw [number, number, h]
    cases changed with
    | false => exact absurd (congrArg weight (hfalse rfl)) hchanges
    | true => exact ⟨.again hround hrounds, hrest.1, hrest.2.1.trans hnumbers, hrest.2.2⟩

/-! ## The tree -/

/-- When the rounds are over, each parent is the one that is proposed. -/
theorem compute_settled (hadj : adj.Consistent) : (compute adj).Grown adj (1 + adj.exitOrder.tail.length) ∧
    (compute adj).numbers = (start adj).numbers ∧ ∀ v ∈ adj.exitOrder.tail, ∀ q,
      (compute adj).proposal? (adj.targets v) = some q → (compute adj).parent? v = some q :=
  ((grown_start hadj).settle hadj (turns_start hadj) fun _ => number_start_lt hadj).2

/-- When the rounds are over, the positions with a way out are placed. -/
theorem placed_compute_iff (hadj : adj.Consistent) : (compute adj).Placed v ↔ adj.steps.Exits v := by
  obtain ⟨hg, hnumbers, -⟩ := compute_settled hadj
  refine ⟨hg.exits v, fun hv => hg.turned v hv ?_⟩
  rw [number, hnumbers]
  exact number_start_lt hadj hv

/-- In the end each parent is on the way up from all positions behind its child. -/
theorem exists_proposed (hadj : adj.Consistent) (hv : adj.steps.Exits v) (hne : v ≠ adj.exit) :
    ∃ p, (compute adj).parent? v = some p ∧ (compute adj).Proposed (adj.targets v) p := by
  obtain ⟨hg, -, hproposals⟩ := compute_settled hadj
  obtain ⟨s, hs, hplaced, -⟩ := hg.exists_forward hv hne (.inr ((placed_compute_iff hadj).2 hv))
  obtain ⟨p, hp⟩ := exists_proposal hs hplaced
  have hmem : v ∈ adj.exitOrder.tail := by
    obtain ⟨rest, hrest⟩ := Digraph.reversePostorder_eq_cons ⟨List.range adj.size, adj.sources⟩ adj.exit
    have hmem := hadj.mem_exitOrder_iff.2 hv
    rw [FlowAdjacency.exitOrder, hrest] at hmem ⊢
    exact (List.mem_cons.1 hmem).resolve_left hne
  exact ⟨p, hproposals v hmem p hp, hg.rooted.proposed_of_eq_some hp⟩

/-- What is above a position is passed by every way from there to the exit. -/
theorem not_around_of_above (hadj : adj.Consistent) (ha : adj.steps.Around a v) :
    ¬(compute adj).Above a v := by
  obtain ⟨hg, -, -⟩ := compute_settled hadj
  have hexit (h : (compute adj).Above a adj.exit) : adj.exit = a := by
    rw [← hg.numbered.root] at h ⊢
    exact (hg.rooted.eq_root_of_above h).symm
  unfold FlowSteps.Around at ha
  induction ha with
  | exit hne => exact fun h => hne (hexit h)
  | @step v w hva hstep hw ih =>
    intro h
    by_cases heq : v = adj.exit
    · subst heq
      exact hva (hexit h)
    · -- what is above the position is above its parent, and so above all that is behind it
      obtain ⟨p, hp, hproposed⟩ := exists_proposed hadj (.step id hstep hw.exits) heq
      have hpa := h.of_parent (Ne.symm hva) hp
      exact ih ((hproposed.above a).1 hpa w (FlowAdjacency.mem_steps_iff.1 hstep)
        ((placed_compute_iff hadj).2 hw.exits))

/-- What is above a position in the tree are its post-dominators. -/
theorem above_compute_iff (hadj : adj.Consistent) (hv : adj.steps.Exits v) :
    (compute adj).Above a v ↔ adj.steps.PostDominates a v := by
  obtain ⟨hg, -, -⟩ := compute_settled hadj
  exact ⟨fun h => ⟨hv, fun ha => not_around_of_above hadj ha h⟩,
    hg.sound v ((placed_compute_iff hadj).2 hv) a⟩

/-- Only the exit, and positions without a way out, have no parent. -/
theorem parent?_compute_eq_none_iff (hadj : adj.Consistent) :
    (compute adj).parent? v = none ↔ v = adj.exit ∨ ¬adj.steps.Exits v := by
  obtain ⟨hg, -, -⟩ := compute_settled hadj
  have hroot := hg.rooted.parent?_root
  rw [← placed_compute_iff hadj, Placed, hg.numbered.root]
  rw [hg.numbered.root] at hroot
  cases hp : (compute adj).parent? v with
  | none => simp [em]
  | some p =>
    simp only [reduceCtorEq, Option.some.injEq, exists_eq', or_true, not_true_eq_false, or_false,
      false_iff]
    rintro rfl
    simp [hroot] at hp

/-- The parents are the immediate post-dominators. -/
theorem immediate_compute (hadj : adj.Consistent) (hp : (compute adj).parent? v = some p) :
    adj.steps.Immediate v p := by
  obtain ⟨hg, -, -⟩ := compute_settled hadj
  have hv := hg.exits v (.inr ⟨p, hp⟩)
  have hpv : (compute adj).Above p v := .up hp (.refl p)
  refine ⟨?_, (above_compute_iff hadj hv).1 hpv, fun a hne ha => ?_⟩
  · rintro rfl
    exact absurd (number_parent_lt hp) (Nat.lt_irrefl _)
  · rw [← above_compute_iff hadj (hg.exits p (hg.parent v p hp))]
    exact ((above_compute_iff hadj hv).2 ha).of_parent hne hp

/-- Walking up the parents finds the positions above. -/
theorem postDominates_iff_above : t.postDominates a b = true ↔ t.Above a b := by
  fun_induction postDominates t a b with
  | case1 => exact ⟨fun _ => .refl a, fun _ => rfl⟩
  | case2 b hne p hp ih =>
    rw [ih]
    exact ⟨.up hp, fun h => h.of_parent (Ne.symm hne) hp⟩
  | case3 b hne hp =>
    refine ⟨nofun, fun h => ?_⟩
    cases h with
    | refl => exact absurd rfl hne
    | up hp' _ => exact absurd (hp.symm.trans hp') nofun

/-- The rounds come to an end, and their tree is right on every graph. What has no parent is the
    exit and what does not reach it, and what is above a position is what every way from there to
    the exit passes. The parent of a position is the strict post-dominator that all others
    post-dominate. -/
theorem compute_correct (hadj : adj.Consistent) :
    Rounds adj adj.exitOrder.tail (start adj) (compute adj) ∧
    (∀ v, (compute adj).parent? v = none ↔ v = adj.exit ∨ ∀ way, ¬adj.WayOut v way) ∧
    (∀ a b, (∃ way, adj.WayOut b way) →
      ((compute adj).postDominates a b = true ↔ ∀ way, adj.WayOut b way → a ∈ way)) ∧
    ∀ b p, (compute adj).parent? b = some p →
      p ≠ b ∧ (∀ way, adj.WayOut b way → p ∈ way) ∧
        ∀ a, a ≠ b → (∀ way, adj.WayOut b way → a ∈ way) → (compute adj).postDominates a p = true := by
  obtain ⟨hg, -, -⟩ := compute_settled hadj
  have hdominates {a b : Nat} (hb : ∃ way, adj.WayOut b way) :
      (compute adj).postDominates a b = true ↔ ∀ way, adj.WayOut b way → a ∈ way := by
    rw [postDominates_iff_above, above_compute_iff hadj (FlowAdjacency.exits_iff.2 hb),
      FlowAdjacency.postDominates_iff]
    exact and_iff_right hb
  refine ⟨((grown_start hadj).settle hadj (turns_start hadj) fun _ => number_start_lt hadj).1,
    fun v => ?_, fun a b => hdominates, fun b p hp => ?_⟩
  · rw [parent?_compute_eq_none_iff hadj, FlowAdjacency.exits_iff, not_exists]
  · have hb := FlowAdjacency.exits_iff.1 (hg.exits b (.inr ⟨p, hp⟩))
    have himm := immediate_compute hadj hp
    refine ⟨himm.ne, (FlowAdjacency.postDominates_iff.1 himm.dominates).2, fun a hne ha => ?_⟩
    have hap := himm.least a hne (FlowAdjacency.postDominates_iff.2 ⟨hb, ha⟩)
    exact (hdominates (FlowAdjacency.postDominates_iff.1 hap).1).2 (FlowAdjacency.postDominates_iff.1 hap).2

/-- Two positions that follow each other, with a way into each of them and one out. One of them also
    follows itself, and there is a place that is never left. -/
def whirl : FlowAdjacency where
  size := 5
  exit := 1
  following := #[[2, 3, 4], [], [3, 1], [2, 3], [4]]
  preceding := #[[], [2], [0, 3], [0, 2, 3], [0, 4]]

/-- A graph with a position that has no way out, and a loop. -/
theorem whirl_correct : whirl.Consistent ∧
    (compute whirl).parents = #[some 2, none, some 1, some 2, none] ∧
    (∀ way, ¬whirl.WayOut 4 way) ∧ (∀ way, whirl.WayOut 0 way → 2 ∈ way) ∧
    ¬∀ way, whirl.WayOut 0 way → 3 ∈ way := by
  have hadj : whirl.Consistent := .of_positions (by decide) (by decide) (by decide) (by decide)
    (by decide) (by decide)
  have hparents : (compute whirl).parents = #[some 2, none, some 1, some 2, none] := by cbv
  obtain ⟨-, hnone, hdominates, himmediate⟩ := compute_correct hadj
  have hout : ∃ way, whirl.WayOut 0 way :=
    ⟨[0, 2, 1], .step (w := 2) (by decide) (.step (w := 1) (by decide) .exit)⟩
  refine ⟨hadj, hparents, ?_, ?_, ?_⟩
  · exact ((hnone 4).1 (by simp [parent?, hparents])).resolve_left (by decide)
  · exact (himmediate 0 2 (by simp [parent?, hparents])).2.1
  · rw [← hdominates 3 0 hout]
    have h : (compute whirl).postDominates 3 0 = false := by cbv
    simp [h]

end PostDominatorTree

/-! ## Steps -/

namespace FlowSteps

variable {f f' : FlowSteps} {avoid : Nat → Prop} {a v w : Nat}

/-- The positions that follow a position, kept by position. -/
theorem mem_targets_adjacency (hf : f.InRange) : w ∈ f.adjacency.targets v ↔ (v, w) ∈ f.steps := by
  by_cases hv : v < f.size
  · simp [FlowAdjacency.targets, adjacency, positions, Array.getD, hv, mem_targets]
  · have hnone : (v, w) ∉ f.steps := fun h => hv (hf.steps _ h).1
    simp [FlowAdjacency.targets, adjacency, positions, Array.getD, hv, hnone]

/-- The positions that a position follows, kept by position. -/
theorem mem_sources_adjacency (hf : f.InRange) : v ∈ f.adjacency.sources w ↔ (v, w) ∈ f.steps := by
  by_cases hw : w < f.size
  · simp [FlowAdjacency.sources, adjacency, positions, Array.getD, hw, mem_sources]
  · have hnone : (v, w) ∉ f.steps := fun h => hw (hf.steps _ h).2
    simp [FlowAdjacency.sources, adjacency, positions, Array.getD, hw, hnone]

/-- Steps that stay in range are kept by position consistently. -/
theorem consistent_adjacency (hf : f.InRange) : f.adjacency.Consistent where
  exit := hf.exit
  target_lt _ _ hw := hf.steps _ ((mem_targets_adjacency hf).1 hw)
  inverse _ _ := (mem_targets_adjacency hf).trans (mem_sources_adjacency hf).symm

/-- Kept by position, the steps are the same. -/
theorem mem_steps_adjacency (hf : f.InRange) : (v, w) ∈ f.adjacency.steps.steps ↔ (v, w) ∈ f.steps :=
  FlowAdjacency.mem_steps_iff.trans (mem_targets_adjacency hf)

/-- With more steps there are more ways to the exit. -/
theorem Escapes.of_steps (he : f.Escapes avoid v) (hexit : f.exit = f'.exit)
    (hsteps : ∀ v w, (v, w) ∈ f.steps → (v, w) ∈ f'.steps) : f'.Escapes avoid v := by
  induction he with
  | exit h => exact hexit ▸ .exit (hexit ▸ h)
  | step hv hstep _ ih => exact .step hv (hsteps _ _ hstep) ih

/-- The ways to the exit stay the same. -/
theorem escapes_adjacency_iff (hf : f.InRange) :
    f.adjacency.steps.Escapes avoid v ↔ f.Escapes avoid v :=
  ⟨fun h => h.of_steps rfl fun _ _ => (mem_steps_adjacency hf).1,
    fun h => h.of_steps rfl fun _ _ => (mem_steps_adjacency hf).2⟩

/-- Post-dominance is the same for the steps kept by position. -/
theorem postDominates_adjacency_iff (hf : f.InRange) :
    f.adjacency.steps.PostDominates a v ↔ f.PostDominates a v :=
  and_congr (escapes_adjacency_iff hf) (not_congr (escapes_adjacency_iff hf))

/-- The tree gives the immediate post-dominators. -/
theorem parents_adjacency (hf : f.InRange) : f.Parents (PostDominatorTree.compute f.adjacency).parent? := by
  intro v hv hne
  have hadj := consistent_adjacency hf
  cases hp : (PostDominatorTree.compute f.adjacency).parent? v with
  | none =>
    rcases (PostDominatorTree.parent?_compute_eq_none_iff hadj).1 hp with heq | hexits
    · exact absurd heq hne
    · exact absurd ((escapes_adjacency_iff hf).2 hv) hexits
  | some p =>
    have himm := PostDominatorTree.immediate_compute hadj hp
    exact ⟨p, rfl, himm.ne, (postDominates_adjacency_iff hf).1 himm.dominates, fun a hne ha =>
      (postDominates_adjacency_iff hf).1 (himm.least a hne ((postDominates_adjacency_iff hf).2 ha))⟩

/-- There is none for the exit, nor where the exit is not reached. -/
theorem parent?_adjacency_eq_none_iff (hf : f.InRange) :
    (PostDominatorTree.compute f.adjacency).parent? v = none ↔ v = f.exit ∨ ¬f.Exits v := by
  rw [PostDominatorTree.parent?_compute_eq_none_iff (consistent_adjacency hf)]
  exact or_congr_right (not_congr (escapes_adjacency_iff hf))

end FlowSteps

end Slicing
