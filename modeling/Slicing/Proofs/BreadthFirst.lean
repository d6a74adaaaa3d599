import Mathlib.Order.Lattice.Nat
import Slicing.Digraph

/-!
# Breadth-first order

`Digraph.reach` lists what is reached from a vertex by the number of arrows that it takes
(`pairwise_reach`), and lists nothing twice (`nodup_reach`).

While a vertex is expanded, everything met so far is listed in this order, and the vertices
on the queue take as many arrows as its first one or one more (`Digraph.InOrder`). What takes
at most as many as the first has been met (`InOrder.mem_met`), so that a vertex that is new
takes just one more.

A search may as well mark a vertex when it comes to the front of the queue, which then may hold
it several times (`Digraph.Walk`). What is left of the queue without the vertices listed and
without repetitions is the queue of the exploration (`Digraph.waiting`), so that such a walk ends,
and lists the same (`Digraph.walk_iff`).
-/

namespace Slicing.Digraph

variable {α : Type} {g : Digraph α} {start u v w : α} {n : Nat}

/-- A vertex is reached from another by a number of arrows between vertices. -/
inductive ReachesIn (g : Digraph α) (start : α) : Nat → α → Prop
  | refl : ReachesIn g start 0 start
  | step {n : Nat} {u v : α} : ReachesIn g start n u → v ∈ g.next u → v ∈ g.vertices →
    ReachesIn g start (n + 1) v

/-- The least number of arrows by which a vertex is reached. -/
noncomputable def distance (g : Digraph α) (start v : α) : Nat := sInf {n | g.ReachesIn start n v}

theorem ReachesIn.distance_le (h : g.ReachesIn start n v) : g.distance start v ≤ n := Nat.sInf_le h

/-- A vertex that is reached is reached by as many arrows as its distance. -/
theorem ReachesIn.reachesIn_distance (h : g.ReachesIn start n v) :
    g.ReachesIn start (g.distance start v) v :=
  Nat.sInf_mem (s := {n | g.ReachesIn start n v}) ⟨n, h⟩

/-- What holds while the vertices reached from a start are explored. -/
structure InOrder (g : Digraph α) (start : α) (e : Exploration α) : Prop where
  start_mem : start ∈ e.met
  reached : ∀ v ∈ e.met, ∃ n, g.ReachesIn start n v
  expanded : g.Expanded e
  /-- What is to be expanded was met last. -/
  split : ∃ done, e.met.reverse = done ++ e.queue
  ascending : e.met.reverse.Pairwise fun a b => g.distance start a ≤ g.distance start b
  /-- What was met is at most one arrow behind what is to be expanded. -/
  near : ∀ v ∈ e.queue, ∀ w ∈ e.met, g.distance start w ≤ g.distance start v + 1

/-- In the beginning only the start has been met. -/
theorem InOrder.initial (g : Digraph α) (start : α) : g.InOrder start ⟨[start], [start]⟩ where
  start_mem := List.mem_cons_self
  reached v hv := by
    obtain rfl := List.mem_singleton.1 hv
    exact ⟨0, .refl⟩
  expanded v hv := .inl hv
  split := ⟨[], rfl⟩
  ascending := List.pairwise_singleton _ _
  near v hv w hw := by
    obtain rfl := List.mem_singleton.1 hv
    obtain rfl := List.mem_singleton.1 hw
    exact Nat.le_succ _

section Expansion

variable {queue met : List α} (he : g.InOrder start ⟨v :: queue, met⟩)

include he

/-- The first vertex of the queue is a nearest one. -/
theorem InOrder.queue_le (hu : u ∈ v :: queue) : g.distance start v ≤ g.distance start u := by
  obtain ⟨done, hdone⟩ := he.split
  have hascending := he.ascending
  rw [hdone, List.pairwise_append] at hascending
  rcases List.mem_cons.1 hu with rfl | hu
  · exact Nat.le_refl _
  · exact (List.pairwise_cons.1 hascending.2.1).1 u hu

/-- What is as near as the first vertex to be expanded has been met. -/
theorem InOrder.mem_met (hw : g.ReachesIn start n w) (hle : n ≤ g.distance start v) : w ∈ met := by
  induction hw with
  | refl => exact he.start_mem
  | @step n u w hu hnext hvertex ih =>
    have hlt : g.distance start u < g.distance start v := Nat.lt_of_le_of_lt hu.distance_le hle
    rcases he.expanded u (ih (Nat.le_of_succ_le hle)) with hqueue | hclosed
    · exact absurd hlt (Nat.not_lt.2 (he.queue_le hqueue))
    · exact hclosed w hnext hvertex

/-- A vertex that is new is one arrow behind the one that is expanded. -/
theorem InOrder.reachesIn_new (hnext : w ∈ g.next v) (hvertex : w ∈ g.vertices) (hw : w ∉ met) :
    g.ReachesIn start (g.distance start v + 1) w ∧ g.distance start w = g.distance start v + 1 := by
  obtain ⟨done, hdone⟩ := he.split
  have hv : v ∈ met := by
    rw [← List.mem_reverse, hdone]
    simp
  obtain ⟨k, hk⟩ := he.reached v hv
  have hstep : g.ReachesIn start (g.distance start v + 1) w := hk.reachesIn_distance.step hnext hvertex
  -- with fewer arrows it would have been met
  refine ⟨hstep, Nat.le_antisymm hstep.distance_le (Nat.lt_of_not_le fun hle => hw ?_)⟩
  exact he.mem_met hstep.reachesIn_distance hle

variable [DecidableEq α]

omit he in
/-- Following arrows puts new vertices at the end of the queue, and meets them. -/
theorem discoverAll_eq (g : Digraph α) (vs : List α) (e : Exploration α) :
    ∃ new, g.discoverAll e vs = ⟨e.queue ++ new, new.reverse ++ e.met⟩ ∧
      ∀ w ∈ new, w ∈ vs ∧ w ∈ g.vertices ∧ w ∉ e.met := by
  induction vs generalizing e with
  | nil => exact ⟨[], by simp [discoverAll], by simp⟩
  | cons v vs ih =>
    obtain ⟨new, heq, hnew⟩ := ih (g.discover e v)
    change g.discoverAll e (v :: vs) = _ at heq
    unfold discover at heq hnew
    split at heq
    · rename_i hfresh
      rw [if_pos hfresh] at hnew
      refine ⟨v :: new, by rw [heq]; simp, List.forall_mem_cons.2 ⟨?_, fun w hw => ?_⟩⟩
      · exact ⟨List.mem_cons_self, hfresh.2, hfresh.1⟩
      · obtain ⟨hmem, hvertex, hmet⟩ := hnew w hw
        exact ⟨List.mem_cons_of_mem _ hmem, hvertex, fun h => hmet (List.mem_cons_of_mem _ h)⟩
    · rename_i hold
      rw [if_neg hold] at hnew
      exact ⟨new, heq, fun w hw => ⟨List.mem_cons_of_mem _ (hnew w hw).1, (hnew w hw).2⟩⟩

/-- The order is kept when a vertex is expanded. -/
theorem InOrder.expand : g.InOrder start (g.discoverAll ⟨queue, met⟩ (g.next v)) := by
  have hexpanded := he.expanded.discoverAll
  obtain ⟨new, heq, hnew⟩ := g.discoverAll_eq (g.next v) ⟨queue, met⟩
  rw [heq] at hexpanded ⊢
  obtain ⟨done, hdone⟩ := he.split
  -- what is discovered lies one step further from the start than what is expanded
  have hreached (w : α) (hw : w ∈ new) := he.reachesIn_new (hnew w hw).1 (hnew w hw).2.1 (hnew w hw).2.2
  have hdistance (w : α) (hw : w ∈ new) : g.distance start w = g.distance start v + 1 := (hreached w hw).2
  have hfirst (w : α) (hw : w ∈ met) : g.distance start w ≤ g.distance start v + 1 :=
    he.near v List.mem_cons_self w hw
  have hreverse : (new.reverse ++ met).reverse = met.reverse ++ new := by simp
  constructor
  · exact List.mem_append_right _ he.start_mem
  · intro w hw
    rcases List.mem_append.1 hw with hw | hw
    · exact ⟨_, (hreached w (List.mem_reverse.1 hw)).1⟩
    · exact he.reached w hw
  · exact hexpanded
  · refine ⟨done ++ [v], ?_⟩
    change (new.reverse ++ met).reverse = _
    rw [hreverse, show met.reverse = done ++ v :: queue from hdone]
    simp
  · change (new.reverse ++ met).reverse.Pairwise _
    rw [hreverse, List.pairwise_append]
    refine ⟨he.ascending, ?_, fun a ha b hb => ?_⟩
    · refine List.pairwise_iff_forall_sublist.2 fun {a b} hsub => ?_
      rw [hdistance a (hsub.subset (by simp)), hdistance b (hsub.subset (by simp))]
    · rw [hdistance b hb]
      exact hfirst a (List.mem_reverse.1 ha)
  · intro x hx w hw
    have hlow : g.distance start v ≤ g.distance start x := by
      rcases List.mem_append.1 hx with hx | hx
      · exact he.queue_le (List.mem_cons_of_mem _ hx)
      · rw [hdistance x hx]
        exact Nat.le_succ _
    have hhigh : g.distance start w ≤ g.distance start v + 1 := by
      rcases List.mem_append.1 hw with hw | hw
      · exact Nat.le_of_eq (hdistance w (List.mem_reverse.1 hw))
      · exact hfirst w hw
    exact Nat.le_trans hhigh (Nat.succ_le_succ hlow)

end Expansion

section

variable [DecidableEq α]

/-- What is explored in order is listed by distance. -/
theorem InOrder.pairwise_explore {e : Exploration α} (he : g.InOrder start e) :
    (g.explore e).Pairwise fun a b => g.distance start a ≤ g.distance start b := by
  fun_induction explore g e with
  | case1 met => exact he.ascending
  | case2 v queue met ih => exact ih he.expand

/-- What is reached is listed by distance. -/
theorem pairwise_reach (g : Digraph α) (start : α) :
    (g.reach start).Pairwise fun a b => g.distance start a ≤ g.distance start b :=
  (InOrder.initial g start).pairwise_explore

/-! ## Repetitions -/

variable {e : Exploration α} {vs : List α}

/-- Nothing is met twice by following arrows. -/
theorem nodup_met_discoverAll (he : e.met.Nodup) : (g.discoverAll e vs).met.Nodup := by
  induction vs generalizing e with
  | nil => exact he
  | cons v vs ih =>
    refine ih ?_
    unfold discover
    split
    · rename_i hfresh
      exact List.nodup_cons.2 ⟨hfresh.1, he⟩
    · exact he

theorem nodup_explore (he : e.met.Nodup) : (g.explore e).Nodup := by
  fun_induction explore g e with
  | case1 met => exact List.nodup_reverse.2 he
  | case2 v queue met ih => exact ih (nodup_met_discoverAll (e := ⟨queue, met⟩) he)

/-- What is reached is listed once. -/
theorem nodup_reach (g : Digraph α) (start : α) : (g.reach start).Nodup :=
  nodup_explore (List.nodup_singleton start)

/-! ## Other arrows -/

/-- The same is reached, in the same order, along arrows that discover the same. -/
theorem reach_congr {vertices : List α} {next next' : α → List α} (start : α)
    (hnext : ∀ e v, discoverAll ⟨vertices, next⟩ e (next' v) = discoverAll ⟨vertices, next⟩ e (next v)) :
    reach ⟨vertices, next'⟩ start = reach ⟨vertices, next⟩ start := by
  have hexplore (e : Exploration α) : explore ⟨vertices, next'⟩ e = explore ⟨vertices, next⟩ e := by
    fun_induction explore ⟨vertices, next⟩ e with
    | case1 met => rw [explore]
    | case2 v queue met ih =>
      have hstep : discoverAll ⟨vertices, next'⟩ ⟨queue, met⟩ (next' v) =
          discoverAll ⟨vertices, next⟩ ⟨queue, met⟩ (next v) := hnext _ v
      rw [explore, hstep, ih]
  exact hexplore _

end

/-! ## Marking at the front of the queue -/

/-- A walk that marks vertices when they come to the front of its queue: from a queue, and the
    vertices listed so far, to all that are listed in the end. -/
inductive Walk (next : α → List α) : List α → List α → List α → Prop
  | done (order : List α) : Walk next [] order order
  | seen {v : α} {queue order list : List α} :
    v ∈ order → Walk next queue order list → Walk next (v :: queue) order list
  | visit {v : α} {queue order list : List α} :
    v ∉ order → Walk next (queue ++ next v) (order ++ [v]) list → Walk next (v :: queue) order list

section Walks

variable [DecidableEq α] {queue order list vs : List α}

/-- What a queue still leads to: the vertices on it that are not listed, each once. -/
def waiting (order queue : List α) : List α :=
  (queue.filter fun v => decide (v ∉ order)).eraseDups

/-- The exploration that a walk stands for. -/
def explored (order queue : List α) : Exploration α :=
  ⟨waiting order queue, (order ++ waiting order queue).reverse⟩

/-- A listed vertex at the front of the queue is passed over. -/
theorem waiting_seen (hv : v ∈ order) : waiting order (v :: queue) = waiting order queue := by
  rw [waiting, List.filter_cons_of_neg (by simpa using hv), waiting]

/-- A vertex that comes to the front of the queue for the first time waits in front. -/
theorem waiting_visit (hv : v ∉ order) :
    waiting order (v :: queue) = v :: waiting (order ++ [v]) queue := by
  rw [waiting, List.filter_cons_of_pos (by simpa using hv), List.eraseDups_cons, List.filter_filter,
    waiting]
  congr 3
  funext w
  rw [Bool.eq_iff_iff]
  simp only [Bool.and_eq_true, Bool.not_eq_true', beq_eq_false_iff_ne,
    decide_eq_true_eq, List.mem_append, List.mem_singleton, not_or]
  tauto

/-- A vertex put on the queue waits at its end, unless it is listed or waits already. -/
theorem waiting_concat (order queue : List α) (w : α) : waiting order (queue ++ [w]) =
    if w ∈ order ++ waiting order queue then waiting order queue else waiting order queue ++ [w] := by
  by_cases hw : w ∈ order
  · rw [if_pos (List.mem_append_left _ hw), waiting, List.filter_append,
      List.filter_cons_of_neg (by simpa using hw), List.filter_nil, List.append_nil, waiting]
  · rw [waiting, List.filter_append, List.filter_cons_of_pos (by simpa using hw), List.filter_nil,
      List.eraseDups_append, waiting]
    by_cases hqueue : w ∈ queue
    · rw [if_pos (by simp [hqueue, hw])]
      simp [List.removeAll, hqueue, hw]
    · rw [if_neg (by simp [hqueue, hw])]
      simp [List.removeAll, hqueue, List.eraseDups_cons]

/-- The arrows that a walk puts on its queue are those that are explored. -/
theorem discoverAll_explored (hvs : vs ⊆ g.vertices) :
    g.discoverAll (explored order queue) vs = explored order (queue ++ vs) := by
  induction vs generalizing queue with
  | nil => rw [List.append_nil, discoverAll, List.foldl_nil]
  | cons w vs ih =>
    have hstep : g.discover (explored order queue) w = explored order (queue ++ [w]) := by
      rw [discover, explored, explored, waiting_concat]
      by_cases hw : w ∈ order ++ waiting order queue
      · rw [if_pos hw, if_neg (by simpa using fun h h' => absurd hw (by simp [h, h']))]
      · rw [if_neg hw, if_pos ⟨by simpa [and_comm] using hw, hvs List.mem_cons_self⟩]
        simp
    have hrest : g.discoverAll (explored order (queue ++ [w])) vs = explored order (queue ++ [w] ++ vs) :=
      ih (List.cons_subset.1 hvs).2
    rw [List.append_assoc, List.singleton_append, ← hstep] at hrest
    exact hrest

/-- A walk lists what is explored from where it stands. -/
theorem Walk.eq_explore (hclosed : ∀ v, g.next v ⊆ g.vertices)
    (hw : Walk g.next queue order list) : list = g.explore (explored order queue) := by
  induction hw with
  | done order => simp [explored, waiting, explore]
  | seen hv _ ih => rw [ih, explored, explored, waiting_seen hv]
  | @visit v queue order list hv _ ih =>
    -- what is listed and what waits are the same vertices before and after the step
    have hsplit : order ++ v :: waiting (order ++ [v]) queue =
        order ++ [v] ++ waiting (order ++ [v]) queue := by simp
    rw [ih, ← discoverAll_explored (hclosed v), explored, explored, waiting_visit hv, explore, hsplit]

/-- Walks in a finite graph end: the vertices not listed become fewer, or else the queue becomes
    shorter. -/
theorem exists_walk {next : α → List α} {all : List α} (hnext : ∀ v, next v ⊆ all)
    (queue order : List α) (hqueue : queue ⊆ all) : ∃ list, Walk next queue order list := by
  match queue with
  | [] => exact ⟨order, .done order⟩
  | v :: queue =>
    obtain ⟨hv, hrest⟩ := List.cons_subset.1 hqueue
    by_cases hmem : v ∈ order
    · obtain ⟨list, hlist⟩ := exists_walk hnext queue order hrest
      exact ⟨list, .seen hmem hlist⟩
    · have hfewer : (all.filter fun w => decide (w ∉ order ++ [v])).length <
          (all.filter fun w => decide (w ∉ order)).length := by
        have heq : (all.filter fun w => decide (w ∉ order ++ [v])) =
            (all.filter fun w => decide (w ∉ order)).filter fun w => decide (w ≠ v) := by
          rw [List.filter_filter]
          refine List.filter_congr fun w _ => ?_
          simp [and_comm]
        rw [heq]
        exact List.length_filter_lt_length_iff_exists.2 ⟨v, by simp [hv, hmem], by simp⟩
      obtain ⟨list, hlist⟩ := exists_walk hnext (queue ++ next v) (order ++ [v])
        (List.append_subset.2 ⟨hrest, hnext v⟩)
      exact ⟨list, .visit hmem hlist⟩
termination_by ((all.filter fun w => decide (w ∉ order)).length, queue.length)
decreasing_by
  · exact Prod.Lex.right _ (Nat.lt_succ_self _)
  · exact Prod.Lex.left _ _ hfewer

/-- If arrows lead to vertices only, the walk from a vertex ends, and lists what is reached. -/
theorem walk_iff (hclosed : ∀ v, g.next v ⊆ g.vertices) :
    Walk g.next [start] [] list ↔ list = g.reach start := by
  have hreach {list : List α} (hw : Walk g.next [start] [] list) : list = g.reach start := by
    rw [hw.eq_explore hclosed, reach, reachAll]
    simp [explored, waiting, List.eraseDups_cons]
  refine ⟨hreach, ?_⟩
  rintro rfl
  have hnext (v : α) : g.next v ⊆ start :: g.vertices := List.subset_cons_of_subset _ (hclosed v)
  obtain ⟨list, hlist⟩ := exists_walk hnext [start] [] (by simp)
  exact hreach hlist ▸ hlist

end Walks

end Slicing.Digraph
