import Slicing.Proofs.Flow.PostDominance

/-!
# How the tree of post-dominators grows

A step in the growth of a tree gives one position a parent (`Raised`), so that ways up are
lost or won only through this position. What holds at any time (`Grown`) speaks of the
positions that had their turn in the present round. All post-dominators of a position are
above it, and what is above it too much is taken away by and by:

* A way around something can be taken back along parents (`Grown.around_of_above`), which
  is why a new parent does not hide a post-dominator (`Grown.sound_raised`).
* What is above all positions behind one is above its parent (`Grown.lax`). A proposed
  parent is therefore above the one so far, and nearer to the exit.

The step keeps all of this (`Grown.raised`), and hence so does a round (`Grown.sweep`). In
a round each position gets the parent that is proposed at its turn (`Round`), whether or
not that is nearer to the exit; there is nothing else that could be proposed.
-/

namespace Slicing

/-! ## Adjacency -/

namespace FlowAdjacency

variable {adj : FlowAdjacency} {v w : Nat}

/-- The positions behind one and before one agree, and are positions. -/
structure Consistent (adj : FlowAdjacency) : Prop where
  exit : adj.exit < adj.size
  target_lt : ∀ v, ∀ w ∈ adj.targets v, v < adj.size ∧ w < adj.size
  inverse : ∀ v w, w ∈ adj.targets v ↔ v ∈ adj.sources w

/-- It is enough to look at the positions. -/
theorem Consistent.of_positions (exit : adj.exit < adj.size)
    (following : adj.following.size ≤ adj.size) (preceding : adj.preceding.size ≤ adj.size)
    (target_lt : ∀ v < adj.size, ∀ w ∈ adj.targets v, w < adj.size)
    (source_lt : ∀ w < adj.size, ∀ v ∈ adj.sources w, v < adj.size)
    (inverse : ∀ v < adj.size, ∀ w < adj.size, w ∈ adj.targets v ↔ v ∈ adj.sources w) :
    adj.Consistent := by
  have hsource {v w : Nat} (h : w ∈ adj.targets v) : v < adj.size := by
    by_contra hv
    simp [targets, Array.getD, Nat.not_lt.2 (Nat.le_trans following (Nat.not_lt.1 hv))] at h
  have htarget {v w : Nat} (h : v ∈ adj.sources w) : w < adj.size := by
    by_contra hw
    simp [sources, Array.getD, Nat.not_lt.2 (Nat.le_trans preceding (Nat.not_lt.1 hw))] at h
  refine ⟨exit, fun v w h => ⟨hsource h, target_lt v (hsource h) w h⟩, fun v w => ⟨?_, ?_⟩⟩
  · exact fun h => (inverse v (hsource h) w (target_lt v (hsource h) w h)).1 h
  · exact fun h => (inverse v (source_lt w (htarget h) v h) w (htarget h)).2 h

/-- The steps from each position to the ones behind it. -/
def steps (adj : FlowAdjacency) : FlowSteps where
  size := adj.size
  exit := adj.exit
  steps := (List.range adj.following.size).flatMap fun v => (adj.targets v).map (v, ·)

/-- The steps lead from a position to those that follow it. -/
theorem mem_steps_iff : (v, w) ∈ adj.steps.steps ↔ w ∈ adj.targets v := by
  simp only [steps, List.mem_flatMap, List.mem_range, List.mem_map, Prod.mk.injEq]
  constructor
  · rintro ⟨v', -, w', hw, rfl, rfl⟩
    exact hw
  · intro hw
    refine ⟨v, ?_, w, hw, rfl, rfl⟩
    by_contra hlt
    simp [targets, Array.getD, hlt] at hw

theorem mem_steps_of_mem (h : w ∈ adj.targets v) : (v, w) ∈ adj.steps.steps := mem_steps_iff.2 h

/-- The steps stay between the positions. -/
theorem Consistent.inRange (hadj : adj.Consistent) : adj.steps.InRange :=
  ⟨hadj.exit, fun _ hstep => hadj.target_lt _ _ (mem_steps_iff.1 hstep)⟩

end FlowAdjacency

namespace PostDominatorTree

variable {t t' : PostDominatorTree} {a b c d p q s u v w : Nat} {adj : FlowAdjacency}

/-! ## Ways up a tree -/

/-- A position is another one or above it. -/
inductive Above (t : PostDominatorTree) : Nat → Nat → Prop
  | refl (v : Nat) : Above t v v
  | up {a v p : Nat} : t.parent? v = some p → Above t a p → Above t a v

/-- A position has its place in a tree. -/
def Placed (t : PostDominatorTree) (v : Nat) : Prop := v = t.root ∨ ∃ p, t.parent? v = some p

theorem isPlaced_iff : t.isPlaced v = true ↔ t.Placed v := by
  simp [isPlaced, Placed, Option.isSome_iff_exists]

namespace Above

/-- Numbers do not grow on the way up. -/
theorem number_le (h : t.Above a v) : t.number a ≤ t.number v := by
  induction h with
  | refl => exact Nat.le_refl _
  | up hp _ ih => exact Nat.le_trans ih (Nat.le_of_lt (number_parent_lt hp))

/-- What is above a position has a smaller number. -/
theorem number_lt (h : t.Above a v) (hne : a ≠ v) : t.number a < t.number v := by
  cases h with
  | refl => exact absurd rfl hne
  | up hp h => exact Nat.lt_of_le_of_lt h.number_le (number_parent_lt hp)

/-- A way up behind another one. -/
theorem trans (hab : t.Above a b) (hbv : t.Above b v) : t.Above a v := by
  induction hbv with
  | refl => exact hab
  | up hp _ ih => exact .up hp ih

/-- What is strictly above a position is above its parent. -/
theorem of_parent (h : t.Above a v) (hne : a ≠ v) (hp : t.parent? v = some p) : t.Above a p := by
  cases h with
  | refl => exact absurd rfl hne
  | up hq h =>
    rw [hp] at hq
    exact Option.some.inj hq ▸ h

/-- The ways up from a position lie on a chain. -/
theorem of_number_le (ha : t.Above a v) (hb : t.Above b v) (hle : t.number b ≤ t.number a) :
    t.Above b a := by
  induction ha with
  | refl => exact hb
  | up hp ha ih =>
    refine ih (hb.of_parent ?_ hp)
    rintro rfl
    exact absurd (number_parent_lt hp) (Nat.not_lt.2 (Nat.le_trans hle ha.number_le))

end Above

/-- A tree whose root has the first number, and where what has a place is told apart by its
    number and has a parent with a place. -/
structure Rooted (t : PostDominatorTree) : Prop where
  root : t.number t.root = 0
  parent : ∀ v p, t.parent? v = some p → t.Placed p
  injective : ∀ v w, t.Placed v → t.Placed w → t.number v = t.number w → v = w

/-- The root has no parent. -/
theorem Rooted.parent?_root (ht : t.Rooted) : t.parent? t.root = none := by
  cases h : t.parent? t.root with
  | none => rfl
  | some p =>
    have := number_parent_lt h
    have := ht.root
    omega

/-- Nothing else is above the root. -/
theorem Rooted.eq_root_of_above (ht : t.Rooted) (h : t.Above a t.root) : a = t.root := by
  cases h with
  | refl => rfl
  | up hp _ => exact absurd (ht.parent?_root.symm.trans hp) nofun

/-- A position that is not the first one has a parent. -/
theorem Rooted.exists_parent (ht : t.Rooted) (hv : t.Placed v) (hlt : t.number w < t.number v) :
    ∃ p, t.parent? v = some p := by
  rcases hv with rfl | hv
  · have := ht.root
    omega
  · exact hv

/-- What is above a position with a place has a place. -/
theorem Rooted.placed_above (ht : t.Rooted) (h : t.Above a v) (hv : t.Placed v) : t.Placed a := by
  induction h with
  | refl => exact hv
  | up hp _ ih => exact ih (ht.parent _ _ hp)

/-- Two ways up meet where they come together first. -/
theorem Rooted.meet_spec (ht : t.Rooted) (ha : t.Placed a) (hb : t.Placed b) :
    t.Placed (t.meet a b) ∧ ∀ c, t.Above c (t.meet a b) ↔ t.Above c a ∧ t.Above c b := by
  fun_induction meet t a b with
  | case1 a => exact ⟨ha, fun c => ⟨fun h => ⟨h, h⟩, fun h => h.1⟩⟩
  | case2 a b hne hlt p hp ih =>
    obtain ⟨hmeet, hspec⟩ := ih (ht.parent _ _ hp) hb
    refine ⟨hmeet, fun c => (hspec c).trans (and_congr_left fun hcb => ?_)⟩
    -- what is above both is not the one with the greater number, so it is above its parent
    refine ⟨.up hp, fun hca => hca.of_parent ?_ hp⟩
    rintro rfl
    exact absurd hcb.number_le (Nat.not_le.2 hlt)
  | case3 a b hne hlt hp =>
    obtain ⟨p, hp'⟩ := ht.exists_parent ha hlt
    rw [hp] at hp'
    cases hp'
  | case4 a b hne hlt p hp ih =>
    have hlt' : t.number a < t.number b := by
      have hdiff : t.number a ≠ t.number b := fun h => hne (ht.injective a b ha hb h)
      omega
    obtain ⟨hmeet, hspec⟩ := ih ha (ht.parent _ _ hp)
    refine ⟨hmeet, fun c => (hspec c).trans (and_congr_right fun hca => ?_)⟩
    refine ⟨.up hp, fun hcb => hcb.of_parent ?_ hp⟩
    rintro rfl
    exact absurd hca.number_le (Nat.not_le.2 hlt')
  | case5 a b hne hlt hp =>
    have hlt' : t.number a < t.number b := by
      have hdiff : t.number a ≠ t.number b := fun h => hne (ht.injective a b ha hb h)
      omega
    obtain ⟨p, hp'⟩ := ht.exists_parent hb hlt'
    rw [hp] at hp'
    cases hp'

/-- The parent that a position is to get is on the way up from all that have their places, and
    so is only what is above it. -/
structure Proposed (t : PostDominatorTree) (targets : List Nat) (p : Nat) : Prop where
  placed : t.Placed p
  above : ∀ c, t.Above c p ↔ ∀ s ∈ targets, t.Placed s → t.Above c s

/-- Several ways up meet where all of them come together first. -/
theorem Rooted.foldl_meet_spec (ht : t.Rooted) (others : List Nat) (hothers : ∀ s ∈ others, t.Placed s)
    (hs : t.Placed s) :
    t.Placed (others.foldl (fun p s => t.meet s p) s) ∧
      ∀ c, t.Above c (others.foldl (fun p s => t.meet s p) s) ↔
        t.Above c s ∧ ∀ s' ∈ others, t.Above c s' := by
  induction others generalizing s with
  | nil => simp [hs]
  | cons s' others ih =>
    obtain ⟨hmeet, hspec⟩ := ht.meet_spec (hothers s' List.mem_cons_self) hs
    obtain ⟨hplaced, habove⟩ := ih (fun x hx => hothers x (List.mem_cons_of_mem _ hx)) hmeet
    refine ⟨hplaced, fun c => (habove c).trans ?_⟩
    rw [hspec, List.forall_mem_cons]
    tauto

/-- What comes out of the search for a parent is on the way up from all that have their places. -/
theorem Rooted.proposed_of_eq_some (ht : t.Rooted) {targets : List Nat}
    (hp : t.proposal? targets = some p) : t.Proposed targets p := by
  unfold proposal? at hp
  split at hp
  · cases hp
  · rename_i s others heq
    have hmem (x : Nat) : x ∈ s :: others ↔ x ∈ targets ∧ t.Placed x := by
      rw [← heq, List.mem_filter, isPlaced_iff]
    obtain ⟨hplaced, habove⟩ := ht.foldl_meet_spec others
      (fun x hx => ((hmem x).1 (List.mem_cons_of_mem _ hx)).2) ((hmem s).1 List.mem_cons_self).2
    obtain rfl := Option.some.inj hp
    refine ⟨hplaced, fun c => (habove c).trans ?_⟩
    rw [← List.forall_mem_cons]
    exact ⟨fun h x hx hxp => h x ((hmem x).2 ⟨hx, hxp⟩), fun h x hx => h x ((hmem x).1 hx).1 ((hmem x).1 hx).2⟩

/-- A parent is proposed if some position that follows has its place. -/
theorem exists_proposal (hs : s ∈ targets) (hplaced : t.Placed s) :
    ∃ p, t.proposal? targets = some p := by
  unfold proposal?
  split
  · rename_i hnil
    exact absurd (List.mem_filter.2 ⟨hs, isPlaced_iff.2 hplaced⟩) (hnil ▸ List.not_mem_nil)
  · exact ⟨_, rfl⟩

/-! ## A new parent -/

/-- A tree differs from another one at most in that a position has a certain parent. -/
structure Raised (t t' : PostDominatorTree) (v q : Nat) : Prop where
  root : t'.root = t.root
  size : t'.parents.size = t.parents.size
  number : ∀ w, t'.number w = t.number w
  parent : ∀ w, t'.parent? w = if w = v then some q else t.parent? w

/-- The parent that a position has is not given anew. -/
theorem raise_of_parent (hp : t.parent? v = some q) : t.raise v q = t := dif_neg (by simp [height, hp])

/-- Giving a position the parent that it has changes nothing. -/
theorem setIfInBounds_of_parent (hv : v < t.parents.size) (hp : t.parent? v = some q) :
    t.parents.setIfInBounds v (some q) = t.parents := by
  refine Array.ext_getElem? fun w => ?_
  rw [Array.getElem?_setIfInBounds]
  by_cases hvw : v = w
  · subst hvw
    simpa [parent?, Array.getD, hv] using hp.symm
  · rw [if_neg hvw]

/-- A position gets a parent with a smaller number than its height. -/
theorem parents_raise (hlt : t.number q < t.height v) :
    (t.raise v q).parents = t.parents.setIfInBounds v (some q) := by
  rw [raise, dif_pos hlt]

/-- A position that has a parent is given it in vain. -/
theorem Raised.of_parent (hp : t.parent? v = some q) : Raised t t v q where
  root := rfl
  size := rfl
  number _ := rfl
  parent w := by
    split
    · rename_i hwv
      rw [hwv, hp]
    · rfl

/-- A nearer parent than the one so far is given. -/
theorem Raised.of_height (hv : v < t.parents.size) (hlt : t.number q < t.height v) :
    Raised t (t.raise v q) v q where
  root := by rw [raise, dif_pos hlt]
  size := by rw [parents_raise hlt, Array.size_setIfInBounds]
  number w := by
    rw [raise, dif_pos hlt]
    rfl
  parent w := by
    rw [parent?, parents_raise hlt, Array.getD_eq_getD_getElem?, Array.getElem?_setIfInBounds]
    by_cases hwv : w = v
    · simp [hwv, hv]
    · simp [hwv, Ne.symm hwv, parent?, Array.getD_eq_getD_getElem?]

namespace Raised

variable (hr : Raised t t' v q)

include hr

/-- The new parent has a smaller number. -/
theorem number_lt : t.number q < t.number v := by
  have hp : t'.parent? v = some q := by rw [hr.parent, if_pos rfl]
  have hlt := number_parent_lt hp
  rwa [hr.number, hr.number] at hlt

/-- Giving a parent places one position. -/
theorem placed_iff : t'.Placed w ↔ t.Placed w ∨ w = v := by
  simp only [Placed, hr.root, hr.parent]
  split <;> simp [*]

/-- A way up that is lost leads through the position. -/
theorem above_or (h : t.Above c w) : t'.Above c w ∨ t.Above v w ∧ t.Above c v ∧ c ≠ v := by
  induction h with
  | refl => exact .inl (.refl _)
  | @up x p hp hc ih =>
    by_cases heq : x = v
    · subst heq
      refine .inr ⟨.refl x, .up hp hc, ?_⟩
      rintro rfl
      exact absurd (number_parent_lt hp) (Nat.not_lt.2 hc.number_le)
    · rcases ih with ih | ⟨hv, hcv⟩
      · exact .inl (.up (by rw [hr.parent, if_neg heq, hp]) ih)
      · exact .inr ⟨.up hp hv, hcv⟩

/-- A way up that is new leads through the position and its new parent. -/
theorem or_of_above (h : t'.Above c w) : t.Above c w ∨ t.Above v w ∧ t'.Above c q := by
  induction h with
  | refl => exact .inl (.refl _)
  | @up x p hp hc ih =>
    rw [hr.parent] at hp
    split at hp
    · rename_i heq
      obtain rfl := Option.some.inj hp
      exact .inr ⟨heq ▸ .refl x, hc⟩
    · rcases ih with ih | ⟨hv, hcq⟩
      · exact .inl (.up hp ih)
      · exact .inr ⟨.up hp hv, hcq⟩

/-- Nothing changes below the position. -/
theorem above_iff_of_le (hle : t.number v ≤ t.number c) : t'.Above c w ↔ t.Above c w := by
  constructor
  · intro h
    refine (hr.or_of_above h).resolve_right fun ⟨_, hcq⟩ => ?_
    have hle' := hcq.number_le
    rw [hr.number, hr.number] at hle'
    exact absurd (Nat.le_trans hle hle') (Nat.not_le.2 hr.number_lt)
  · intro h
    refine (hr.above_or h).resolve_right fun ⟨_, hcv, hne⟩ => ?_
    exact absurd hle (Nat.not_le.2 (hcv.number_lt hne))

/-- Nothing changes above what comes before the position. -/
theorem above_iff_of_lt (hlt : t.number w < t.number v) : t'.Above c w ↔ t.Above c w := by
  constructor
  · exact fun h => (hr.or_of_above h).resolve_right fun ⟨hv, _⟩ =>
      absurd hv.number_le (Nat.not_le.2 hlt)
  · exact fun h => (hr.above_or h).resolve_right fun ⟨hv, _⟩ =>
      absurd hv.number_le (Nat.not_le.2 hlt)

/-- Nothing changes above the new parent. -/
theorem above_parent_iff : t'.Above c q ↔ t.Above c q := hr.above_iff_of_lt hr.number_lt

end Raised

/-! ## What holds while the tree grows -/

/-- The positions are numbered as an exploration from the exit finds them. -/
structure Numbered (adj : FlowAdjacency) (t : PostDominatorTree) : Prop where
  root : t.root = adj.exit
  size : t.parents.size = adj.size
  number_root : t.number adj.exit = 0
  injective : ∀ v w, adj.steps.Exits v → adj.steps.Exits w → t.number v = t.number w → v = w
  /-- Some way out of a position leads to one before it. -/
  forward : ∀ v, adj.steps.Exits v → v ≠ adj.exit →
    ∃ s ∈ adj.targets v, adj.steps.Exits s ∧ t.number s < t.number v

/-- A tree in the round at which the positions with numbers below `i` have had their turn. -/
structure Grown (adj : FlowAdjacency) (t : PostDominatorTree) (i : Nat) : Prop where
  numbered : t.Numbered adj
  exits : ∀ v, t.Placed v → adj.steps.Exits v
  parent : ∀ v p, t.parent? v = some p → t.Placed p
  /-- What had its turn has its place. -/
  turned : ∀ v, adj.steps.Exits v → t.number v < i → t.Placed v
  /-- Places are given in order. -/
  before : ∀ v w, t.Placed v → adj.steps.Exits w → t.number w ≤ t.number v → t.Placed w
  /-- A position leads to its parent by a way that passes nothing before the parent. -/
  around : ∀ v p, t.parent? v = some p → ∀ d, t.number d < t.number p →
    adj.steps.Around d p → adj.steps.Around d v
  /-- All post-dominators are above a position. -/
  sound : ∀ v, t.Placed v → ∀ d, adj.steps.PostDominates d v → t.Above d v
  /-- What is above all positions behind one is above its parent. -/
  lax : ∀ v p, t.parent? v = some p → ∀ c, (∀ s ∈ adj.targets v, t.Placed s → t.Above c s) →
    t.Above c p
  /-- What is above the parent is above each position behind one that comes before it, unless a
      change in this round has not come to the position yet. -/
  kept : ∀ v p, t.parent? v = some p → ∀ c, t.Above c p → i ≤ t.number c ∨ t.number v < i →
    ∀ s ∈ adj.targets v, t.Placed s → t.number s < t.number v → t.Above c s

namespace Grown

variable {i : Nat}

/-- While it grows a tree is rooted. -/
theorem rooted (hg : t.Grown adj i) : t.Rooted where
  root := hg.numbered.root ▸ hg.numbered.number_root
  parent := hg.parent
  injective v w hv hw h := hg.numbered.injective v w (hg.exits v hv) (hg.exits w hw) h

/-- A way around a position can be taken from all that leads to it by later ones. -/
theorem around_of_above (hg : t.Grown adj i) (h : t.Above a v) (hlt : t.number d < t.number a)
    (ha : adj.steps.Around d a) : adj.steps.Around d v := by
  induction h with
  | refl => exact ha
  | up hp h ih => exact hg.around _ _ hp d (Nat.lt_of_lt_of_le hlt h.number_le) ih

/-- What is proposed as a parent comes before the position. -/
theorem exists_forward (hg : t.Grown adj i) (hv : adj.steps.Exits v) (hne : v ≠ adj.exit)
    (hi : t.number v ≤ i ∨ t.Placed v) :
    ∃ s ∈ adj.targets v, t.Placed s ∧ t.number s < t.number v := by
  obtain ⟨s, hs, hexits, hlt⟩ := hg.numbered.forward v hv hne
  refine ⟨s, hs, ?_, hlt⟩
  rcases hi with hi | hi
  · exact hg.turned s hexits (Nat.lt_of_lt_of_le hlt hi)
  · exact hg.before v s hi hexits (Nat.le_of_lt hlt)

section Step

variable (hg : t.Grown adj i) (hv : adj.steps.Exits v) (hne : v ≠ adj.exit) (hi : t.number v = i)
  (hq : t.Proposed (adj.targets v) q) (hr : Raised t t' v q)

include hg hv hne hi hq hr

omit hv hi in
/-- A new parent only takes away from what is above a position. -/
theorem above_of_raised (hw : t.Placed w) (h : t'.Above c w) : t.Above c w := by
  rcases hr.or_of_above h with h | ⟨hvw, hcq⟩
  · exact h
  · rw [hr.above_parent_iff] at hcq
    rcases hg.rooted.placed_above hvw hw with hroot | ⟨p, hp⟩
    · exact absurd (hroot.trans hg.numbered.root) hne
    · -- the new parent is above the old one
      have hqp := hg.lax v p hp q ((hq.above q).1 (.refl q))
      exact ((hcq.trans hqp).trans (.up hp (.refl p))).trans hvw

/-- A new parent hides no post-dominator: else a way around it could be taken further down. -/
theorem sound_raised (hw : t'.Placed w) (hd : adj.steps.PostDominates d w) : t'.Above d w := by
  have hself {d : Nat} (hd : adj.steps.PostDominates d v) : t'.Above d v := by
    by_cases heq : d = v
    · exact heq ▸ .refl d
    · refine .up (by rw [hr.parent, if_pos rfl]) (hr.above_parent_iff.2 ((hq.above d).2 ?_))
      intro s hs hplaced
      exact hg.sound s hplaced d (hd.of_step heq (FlowAdjacency.mem_steps_of_mem hs) (hg.exits s hplaced))
  rw [hr.placed_iff] at hw
  rcases hw with hw | rfl
  · rcases hr.above_or (hg.sound w hw d hd) with h | ⟨hvw, hdv, hne'⟩
    · exact h
    · -- otherwise a way around `d` could be taken from `w`
      have hdom : adj.steps.PostDominates d v :=
        ⟨hv, fun ha => hd.2 (hg.around_of_above hvw (hdv.number_lt hne') ha)⟩
      exact (hself hdom).trans ((hr.above_iff_of_le (Nat.le_refl _)).2 hvw)
  · exact hself hd

/-- A way around something from the parent of a position, old or new, can be taken from the
    position. -/
theorem around_raised {p : Nat} (hp : t'.parent? w = some p) (hlt : t.number d < t.number p)
    (ha : adj.steps.Around d p) : adj.steps.Around d w := by
  rw [hr.parent] at hp
  split at hp
  · rename_i heq
    subst heq
    obtain rfl := Option.some.inj hp
    obtain ⟨s, hs, hplaced, hsv⟩ := hg.exists_forward hv hne (.inl (Nat.le_of_eq hi))
    have habove : t.Above q s := (hq.above q).1 (.refl q) s hs hplaced
    refine .step ?_ (FlowAdjacency.mem_steps_of_mem hs) (hg.around_of_above habove hlt ha)
    rintro rfl
    exact absurd (Nat.lt_of_lt_of_le hlt habove.number_le) (Nat.not_lt.2 (Nat.le_of_lt hsv))
  · exact hg.around w p hp d hlt ha

/-- What is above all positions that follow one is still above its parent. -/
theorem lax_raised {p : Nat} (hp : t'.parent? w = some p)
    (hc : ∀ s ∈ adj.targets w, t'.Placed s → t'.Above c s) : t'.Above c p := by
  have hold (s : Nat) (hs : s ∈ adj.targets w) (hplaced : t.Placed s) : t.Above c s :=
    hg.above_of_raised hne hq hr hplaced (hc s hs (hr.placed_iff.2 (.inl hplaced)))
  rw [hr.parent] at hp
  split at hp
  · rename_i heq
    subst heq
    obtain rfl := Option.some.inj hp
    exact hr.above_parent_iff.2 ((hq.above c).2 hold)
  · have hw : t.Placed w := .inr ⟨p, hp⟩
    rcases hr.above_or (hg.lax w p hp c hold) with h | ⟨hvp, hcv, hne'⟩
    · exact h
    · -- the position is above the parent, so it still is above what comes before `w`
      have hvw := Nat.lt_of_le_of_lt hvp.number_le (number_parent_lt hp)
      have hwexit : w ≠ adj.exit := by
        rintro rfl
        have := hg.numbered.number_root
        omega
      obtain ⟨s, hs, hplaced, hsw⟩ := hg.exists_forward (hg.exits w hw) hwexit (.inr hw)
      have hvs := hg.kept w p hp v hvp (.inl (Nat.le_of_eq hi.symm)) s hs hplaced hsw
      have hvs' := (hr.above_iff_of_le (Nat.le_refl _)).2 hvs
      have hcs' := hc s hs (hr.placed_iff.2 (.inl hplaced))
      have hcv' : t'.Above c v := hvs'.of_number_le hcs' (by
        rw [hr.number, hr.number]
        exact Nat.le_of_lt (hcv.number_lt hne'))
      exact hcv'.trans ((hr.above_iff_of_le (Nat.le_refl _)).2 hvp)

/-- What is above the parent of a position is still above those before it that follow it, unless a
    change in this round has not come to the position yet. -/
theorem kept_raised {p : Nat} (hp : t'.parent? w = some p) (hc : t'.Above c p)
    (hturn : i + 1 ≤ t.number c ∨ t.number w < i + 1) (hs : s ∈ adj.targets w) (hplaced : t'.Placed s)
    (hlt : t.number s < t.number w) : t'.Above c s := by
  rw [hr.parent] at hp
  split at hp
  · rename_i heq
    subst heq
    obtain rfl := Option.some.inj hp
    have hsw : s ≠ w := by
      rintro rfl
      omega
    rw [hr.above_parent_iff] at hc
    exact (hr.above_iff_of_lt hlt).2 ((hq.above c).1 hc s hs ((hr.placed_iff.1 hplaced).resolve_right hsw))
  · rename_i hwv
    have hw : t.Placed w := .inr ⟨p, hp⟩
    have hsplaced : t.Placed s := by
      rcases hr.placed_iff.1 hplaced with h | rfl
      · exact h
      · exact hg.before w s hw hv (Nat.le_of_lt hlt)
    have hwi : t.number w ≠ i := fun h =>
      hwv (hg.numbered.injective w v (hg.exits w hw) hv (h.trans hi.symm))
    rcases hturn with hturn | hturn
    · rw [hr.above_iff_of_le (by omega)] at hc ⊢
      exact hg.kept w p hp c hc (.inl (by omega)) s hs hsplaced hlt
    · have hpw := number_parent_lt hp
      rw [hr.above_iff_of_lt (by omega)] at hc ⊢
      exact hg.kept w p hp c hc (.inr (by omega)) s hs hsplaced hlt

/-- What holds while the tree grows holds after the next turn. -/
theorem raised : t'.Grown adj (i + 1) where
  numbered :=
    { root := hr.root.trans hg.numbered.root
      size := hr.size.trans hg.numbered.size
      number_root := (hr.number _).trans hg.numbered.number_root
      injective := fun v w hv hw h => hg.numbered.injective v w hv hw (by rwa [hr.number, hr.number] at h)
      forward := fun v hv hne => by
        simp only [hr.number]
        exact hg.numbered.forward v hv hne }
  exits w hw := by
    rcases hr.placed_iff.1 hw with hw | rfl
    exacts [hg.exits w hw, hv]
  parent w p hp := by
    rw [hr.parent] at hp
    split at hp
    · obtain rfl := Option.some.inj hp
      exact hr.placed_iff.2 (.inl hq.placed)
    · exact hr.placed_iff.2 (.inl (hg.parent w p hp))
  turned w hw hlt := by
    rw [hr.number] at hlt
    refine hr.placed_iff.2 ?_
    by_cases heq : t.number w = i
    · exact .inr (hg.numbered.injective w v hw hv (heq.trans hi.symm))
    · exact .inl (hg.turned w hw (by omega))
  before w x hw hx hle := by
    rw [hr.number, hr.number] at hle
    refine hr.placed_iff.2 ?_
    rcases hr.placed_iff.1 hw with hw | rfl
    · exact .inl (hg.before w x hw hx hle)
    · by_cases heq : t.number x = i
      · exact .inr (hg.numbered.injective x w hx hv (heq.trans hi.symm))
      · exact .inl (hg.turned x hx (by omega))
  around w p hp d hlt ha := by
    rw [hr.number, hr.number] at hlt
    exact hg.around_raised hv hne hi hq hr hp hlt ha
  sound w hw d hd := hg.sound_raised hv hne hi hq hr hw hd
  lax w p hp c hc := hg.lax_raised hv hne hi hq hr hp hc
  kept w p hp c hc hturn s hs hplaced hlt := by
    rw [hr.number, hr.number] at hturn hlt
    exact hg.kept_raised hv hne hi hq hr hp hc hturn hs hplaced hlt

end Step

/-- A position at its turn gets the parent that is proposed, though a parent is only ever replaced
    by a nearer one. -/
theorem raised_place (hadj : adj.Consistent) (hg : t.Grown adj i) (hv : adj.steps.Exits v)
    (hne : v ≠ adj.exit) (hi : t.number v = i) :
    ∃ q, t.proposal? (adj.targets v) = some q ∧ t.Proposed (adj.targets v) q ∧
      Raised t (place adj t v) v q ∧
      (place adj t v).parents = t.parents.setIfInBounds v (some q) ∧
      (t.parent? v = some q → place adj t v = t) := by
  obtain ⟨s, hs, hplaced, hlt⟩ := hg.exists_forward hv hne (.inl (Nat.le_of_eq hi))
  obtain ⟨q, hq⟩ := exists_proposal hs hplaced
  have hproposed := hg.rooted.proposed_of_eq_some hq
  have hplace : place adj t v = t.raise v q := by rw [place, hq]
  have hvsize : v < t.parents.size := hg.numbered.size ▸ hv.lt hadj.inRange
  refine ⟨q, hq, hproposed, ?_⟩
  rw [hplace]
  by_cases hstays : t.parent? v = some q
  · rw [raise_of_parent hstays]
    exact ⟨.of_parent hstays, (setIfInBounds_of_parent hvsize hstays).symm, fun _ => rfl⟩
  · have hnearer : t.number q < t.height v := by
      cases hp : t.parent? v with
      | none =>
        have hqs : t.Above q s := (hproposed.above q).1 (.refl q) s hs hplaced
        simpa [height, hp] using Nat.lt_of_le_of_lt hqs.number_le hlt
      | some p =>
        have hqp := hg.lax v p hp q ((hproposed.above q).1 (.refl q))
        simpa [height, hp] using hqp.number_lt fun heq => hstays (heq ▸ hp)
    exact ⟨.of_height hvsize hnearer, parents_raise hnearer, fun h => absurd h hstays⟩

end Grown

/-! ## Rounds -/

/-- A round gives each of some positions in turn the parent that is proposed. The flag says
    whether one of them had another parent, or none, before. -/
inductive Round (adj : FlowAdjacency) :
    List Nat → PostDominatorTree → Bool → PostDominatorTree → Prop
  | done {t : PostDominatorTree} : Round adj [] t false t
  | stay {v : Nat} {order : List Nat} {t r : PostDominatorTree} {changed : Bool} :
    (∀ q, t.proposal? (adj.targets v) = some q → t.parent? v = some q) →
    Round adj order t changed r → Round adj (v :: order) t changed r
  | move {v q : Nat} {order : List Nat} {t t' r : PostDominatorTree} {changed : Bool} :
    t.proposal? (adj.targets v) = some q → t.parent? v ≠ some q → t'.root = t.root →
    t'.numbers = t.numbers → t'.parents = t.parents.setIfInBounds v (some q) →
    Round adj order t' changed r → Round adj (v :: order) t true r

/-- Rounds follow each other until one changes nothing. -/
inductive Rounds (adj : FlowAdjacency) (order : List Nat) :
    PostDominatorTree → PostDominatorTree → Prop
  | last {t r : PostDominatorTree} : Round adj order t false r → Rounds adj order t r
  | again {t t' r : PostDominatorTree} : Round adj order t true t' → Rounds adj order t' r →
    Rounds adj order t r

/-- The last round finds all parents as they are proposed. -/
theorem Round.of_unchanged {order : List Nat} {r : PostDominatorTree}
    (h : Round adj order t false r) : r = t ∧ ∀ v ∈ order, ∀ q,
      t.proposal? (adj.targets v) = some q → t.parent? v = some q := by
  generalize hc : false = changed at h
  induction h with
  | done => exact ⟨rfl, fun v hv => absurd hv List.not_mem_nil⟩
  | stay hstays _ ih =>
    obtain ⟨heq, hrest⟩ := ih hc
    exact ⟨heq, List.forall_mem_cons.2 ⟨hstays, hrest⟩⟩
  | move _ _ _ _ _ _ _ => cases hc

/-- The positions of a list have the numbers from `i` on. -/
def Turns (adj : FlowAdjacency) (t : PostDominatorTree) (i : Nat) (order : List Nat) : Prop :=
  ∀ j v, order[j]? = some v → adj.steps.Exits v ∧ v ≠ adj.exit ∧ t.number v = i + j

/-- Giving a position its parent changes no numbers. -/
theorem numbers_place (adj : FlowAdjacency) (t : PostDominatorTree) (v : Nat) :
    (place adj t v).root = t.root ∧ (place adj t v).numbers = t.numbers := by
  unfold place
  split
  · unfold raise
    split <;> exact ⟨rfl, rfl⟩
  · exact ⟨rfl, rfl⟩

namespace Grown

variable {i : Nat} {order : List Nat}

/-- What holds while the tree grows holds after a round, in which all parents are as they are
    proposed. -/
theorem sweep (hadj : adj.Consistent) (hg : t.Grown adj i) (hturns : t.Turns adj i order) :
    (PostDominatorTree.sweep adj order t).Grown adj (i + order.length) ∧
      (PostDominatorTree.sweep adj order t).numbers = t.numbers ∧
      ∃ changed, Round adj order t changed (PostDominatorTree.sweep adj order t) ∧
        (changed = false → PostDominatorTree.sweep adj order t = t) ∧
        (changed = true → (PostDominatorTree.sweep adj order t).weight < t.weight) := by
  induction order generalizing t i with
  | nil => exact ⟨hg, rfl, false, .done, fun _ => rfl, nofun⟩
  | cons v order ih =>
    obtain ⟨hv, hne, hi⟩ := hturns 0 v rfl
    obtain ⟨q, hq, hproposed, hraised, hparents, hstays⟩ := hg.raised_place hadj hv hne hi
    have hg' := hg.raised hv hne hi hproposed hraised
    have hturns' : (place adj t v).Turns adj (i + 1) order := by
      intro j w hw
      obtain ⟨hw, hwne, hwi⟩ := hturns (j + 1) w hw
      exact ⟨hw, hwne, by rw [hraised.number, hwi]; omega⟩
    obtain ⟨hgrown, hnumbers, changed, hround, hfalse, htrue⟩ := ih hg' hturns'
    rw [show i + (v :: order).length = i + 1 + order.length by simp; omega]
    obtain ⟨hroot, hsame⟩ := numbers_place adj t v
    refine ⟨hgrown, hnumbers.trans hsame, ?_⟩
    by_cases hp : t.parent? v = some q
    · have heq := hstays hp
      change ∃ changed, Round adj (v :: order) t changed (PostDominatorTree.sweep adj order (place adj t v)) ∧
        (changed = false → PostDominatorTree.sweep adj order (place adj t v) = t) ∧ (changed = true →
          (PostDominatorTree.sweep adj order (place adj t v)).weight < t.weight)
      rw [heq] at hround hfalse htrue ⊢
      exact ⟨changed, .stay (fun q' hq' => by rw [hp, ← hq, hq']) hround, hfalse, htrue⟩
    · refine ⟨true, .move hq hp hroot hsame hparents hround, nofun, fun _ => ?_⟩
      have hlt : (place adj t v).weight < t.weight := by
        refine (place_eq_or_weight_lt adj t v).resolve_left fun heq => hp ?_
        rw [← heq, hraised.parent, if_pos rfl]
      rcases sweep_eq_or_weight_lt adj order (place adj t v) with heq | hlt'
      · change (PostDominatorTree.sweep adj order (place adj t v)).weight < t.weight
        rwa [heq]
      · exact Nat.lt_trans hlt' hlt

/-- After a round another one may start. -/
theorem restart (hg : t.Grown adj i) (hall : ∀ v, adj.steps.Exits v → t.number v < i) (h1 : 1 ≤ i) :
    t.Grown adj 1 :=
  { hg with
    turned := fun v hv hlt => hg.turned v hv (Nat.lt_of_lt_of_le hlt h1)
    kept := fun v p hp c hc _ => hg.kept v p hp c hc (.inr (hall v (hg.exits v (.inr ⟨p, hp⟩)))) }

end Grown

end PostDominatorTree

end Slicing
