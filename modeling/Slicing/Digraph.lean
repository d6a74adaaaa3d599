/-!
# Reachability in finite directed graphs

The analyses of the library ask, time and again, what can be reached along the
arrows of a finite graph. A graph (`Digraph`) is a list of vertices and the arrows
out of each; `Digraph.reach` lists what is reached from some starting points,
nearest first and without repetitions.

The exploration keeps a queue of vertices whose arrows are still to be followed.
Every step takes one vertex off the queue and puts on it only vertices never met
before, so the number of vertices not met plus the length of the queue falls.

What is listed is exactly what is reached along arrows (`mem_reachAll_iff`,
`mem_reach_iff`): at any time whatever was met is on the queue or has arrows only
to what was met (`Expanded`), so that nothing is left out once the queue is empty.
-/

namespace Slicing

/-- A finite directed graph: its vertices, and where the arrows out of a vertex
    lead. An arrow to something that is no vertex leads nowhere. -/
structure Digraph (α : Type) where
  vertices : List α
  next : α → List α

namespace Digraph

variable {α : Type} [DecidableEq α]

/-- The state of an exploration: the vertices to be expanded, nearest first, and
    those met so far, the latest first. -/
structure Exploration (α : Type) where
  queue : List α
  met : List α

/-- The vertices not met so far. -/
def unmet (g : Digraph α) (e : Exploration α) : List α :=
  g.vertices.filter fun v => decide (v ∉ e.met)

/-- A vertex is at the end of an arrow. -/
def discover (g : Digraph α) (e : Exploration α) (v : α) : Exploration α :=
  if v ∉ e.met ∧ v ∈ g.vertices then ⟨e.queue ++ [v], v :: e.met⟩ else e

/-- Some vertices are at the ends of arrows. -/
def discoverAll (g : Digraph α) (e : Exploration α) (vs : List α) : Exploration α :=
  vs.foldl g.discover e

/-- What is discovered goes on the queue, and is one vertex less that was not met. -/
theorem measure_discover_le (g : Digraph α) (e : Exploration α) (v : α) :
    (g.unmet (g.discover e v)).length + (g.discover e v).queue.length ≤
      (g.unmet e).length + e.queue.length := by
  unfold discover
  split
  · rename_i h
    have hlt : ((g.unmet e).filter fun w => decide (w ≠ v)).length < (g.unmet e).length :=
      List.length_filter_lt_length_iff_exists.2 ⟨v, by simp [unmet, h], by simp⟩
    have heq : g.unmet ⟨e.queue ++ [v], v :: e.met⟩ =
        (g.unmet e).filter fun w => decide (w ≠ v) := by
      simp [unmet, List.filter_filter]
    rw [heq]
    simp only [List.length_append, List.length_cons, List.length_nil]
    omega
  · exact Nat.le_refl _

/-- The measure of an exploration does not grow as arrows are followed. -/
theorem measure_discoverAll_le (g : Digraph α) (vs : List α) (e : Exploration α) :
    (g.unmet (g.discoverAll e vs)).length + (g.discoverAll e vs).queue.length ≤
      (g.unmet e).length + e.queue.length := by
  induction vs generalizing e with
  | nil => exact Nat.le_refl _
  | cons v vs ih => exact Nat.le_trans (ih _) (g.measure_discover_le e v)

/-- Explores until the queue is empty, and lists what was met, nearest first. -/
def explore (g : Digraph α) (e : Exploration α) : List α :=
  match e with
  | ⟨[], met⟩ => met.reverse
  | ⟨v :: queue, met⟩ => explore g (g.discoverAll ⟨queue, met⟩ (g.next v))
termination_by (g.unmet e).length + e.queue.length
decreasing_by
  have := g.measure_discoverAll_le (g.next v) ⟨queue, met⟩
  simp only [unmet] at this ⊢
  simp only [List.length_cons]
  omega

/-- What is reached from some starting points, these included. -/
def reachAll (g : Digraph α) (starts : List α) : List α :=
  g.explore ⟨starts, starts.reverse⟩

/-- What is reached from a starting point, this included. -/
def reach (g : Digraph α) (start : α) : List α := g.reachAll [start]

/-- A vertex is reached from another along arrows between vertices. -/
inductive Reaches (g : Digraph α) : α → α → Prop
  | refl (v : α) : Reaches g v v
  | step {u v w : α} : Reaches g u v → w ∈ g.next v → w ∈ g.vertices → Reaches g u w

/-! ## What is reached -/

omit [DecidableEq α] in
theorem Reaches.trans {g : Digraph α} {u v w : α} (huv : g.Reaches u v) (hvw : g.Reaches v w) :
    g.Reaches u w := by
  induction hvw with
  | refl => exact huv
  | step _ hnext hvertex ih => exact ih.step hnext hvertex

/-- A vertex at the end of an arrow has been met from then on. -/
theorem mem_met_discover {g : Digraph α} {e : Exploration α} {v w : α} :
    w ∈ (g.discover e v).met ↔ w ∈ e.met ∨ (w = v ∧ v ∈ g.vertices) := by
  unfold discover
  split
  · rename_i h
    simp [h.2, or_comm]
  · rename_i h
    constructor
    · exact Or.inl
    · rintro (hw | ⟨rfl, hv⟩)
      · exact hw
      · exact Classical.byContradiction fun hm => h ⟨hm, hv⟩

/-- A vertex goes on the queue when it is met for the first time. -/
theorem mem_queue_discover {g : Digraph α} {e : Exploration α} {v w : α} :
    w ∈ (g.discover e v).queue ↔ w ∈ e.queue ∨ (w = v ∧ v ∉ e.met ∧ v ∈ g.vertices) := by
  unfold discover
  split
  · rename_i h
    simp [h]
  · rename_i h
    simp [h]

/-- The vertices at the ends of arrows have been met from then on. -/
theorem mem_met_discoverAll {g : Digraph α} {vs : List α} {e : Exploration α} {w : α} :
    w ∈ (g.discoverAll e vs).met ↔ w ∈ e.met ∨ (w ∈ vs ∧ w ∈ g.vertices) := by
  induction vs generalizing e with
  | nil => simp [discoverAll]
  | cons v vs ih =>
    have h : g.discoverAll e (v :: vs) = g.discoverAll (g.discover e v) vs := rfl
    rw [h, ih, mem_met_discover, List.mem_cons]
    grind

/-- What is on the queue has been met, also after arrows were followed. -/
theorem mem_met_of_mem_queue_discoverAll {g : Digraph α} {vs : List α} {e : Exploration α}
    (he : ∀ v ∈ e.queue, v ∈ e.met) :
    ∀ w ∈ (g.discoverAll e vs).queue, w ∈ (g.discoverAll e vs).met := by
  induction vs generalizing e with
  | nil => exact he
  | cons v vs ih =>
    refine ih fun w hw => mem_met_discover.2 ?_
    rcases mem_queue_discover.1 hw with hw | ⟨hw, _, hv⟩
    · exact Or.inl (he w hw)
    · exact Or.inr ⟨hw, hv⟩

theorem mem_queue_discoverAll_of_mem {g : Digraph α} {vs : List α} {e : Exploration α} {w : α}
    (hw : w ∈ e.queue) : w ∈ (g.discoverAll e vs).queue := by
  induction vs generalizing e with
  | nil => exact hw
  | cons v vs ih => exact ih (mem_queue_discover.2 (Or.inl hw))

/-- What is met by following arrows is on the queue. -/
theorem mem_met_or_mem_queue_discoverAll {g : Digraph α} {vs : List α} {e : Exploration α} {w : α}
    (hw : w ∈ (g.discoverAll e vs).met) : w ∈ e.met ∨ w ∈ (g.discoverAll e vs).queue := by
  induction vs generalizing e with
  | nil => exact Or.inl hw
  | cons v vs ih =>
    rcases ih (e := g.discover e v) hw with hm | hq
    · rcases mem_met_discover.1 hm with hm | ⟨rfl, hv⟩
      · exact Or.inl hm
      · by_cases hmet : w ∈ e.met
        · exact Or.inl hmet
        · have hq : w ∈ (g.discover e w).queue := mem_queue_discover.2 (Or.inr ⟨rfl, hmet, hv⟩)
          have hq' : w ∈ (g.discoverAll (g.discover e w) vs).queue := mem_queue_discoverAll_of_mem hq
          exact Or.inr hq'
    · exact Or.inr hq

/-- Whatever was met is still to be expanded, or has only arrows to what was met. -/
def Expanded (g : Digraph α) (e : Exploration α) : Prop :=
  ∀ v ∈ e.met, v ∈ e.queue ∨ ∀ w ∈ g.next v, w ∈ g.vertices → w ∈ e.met

/-- A vertex is expanded by following its arrows. -/
theorem Expanded.discoverAll {g : Digraph α} {v : α} {queue met : List α}
    (h : g.Expanded ⟨v :: queue, met⟩) : g.Expanded (g.discoverAll ⟨queue, met⟩ (g.next v)) := by
  intro u hu
  rcases mem_met_or_mem_queue_discoverAll hu with hm | hq
  · rcases h u hm with hq | hnext
    · rcases List.mem_cons.1 hq with rfl | hq
      · exact Or.inr fun w hw hv => mem_met_discoverAll.2 (Or.inr ⟨hw, hv⟩)
      · exact Or.inl (mem_queue_discoverAll_of_mem hq)
    · exact Or.inr fun w hw hv => mem_met_discoverAll.2 (Or.inl (hnext w hw hv))
  · exact Or.inl hq

/-- Exploring finds exactly what is reached from what was met. -/
theorem mem_explore_iff {g : Digraph α} {e : Exploration α} {w : α} (he : g.Expanded e)
    (hq : ∀ v ∈ e.queue, v ∈ e.met) : w ∈ g.explore e ↔ ∃ v ∈ e.met, g.Reaches v w := by
  fun_induction explore g e with
  | case1 met =>
    rw [List.mem_reverse]
    constructor
    · exact fun h => ⟨w, h, .refl w⟩
    · rintro ⟨v, hv, h⟩
      induction h with
      | refl => exact hv
      | step _ hnext hvertex ih =>
        rcases he _ ih with hmem | hclosed
        · cases hmem
        · exact hclosed _ hnext hvertex
  | case2 v queue met ih =>
    rw [ih he.discoverAll
      (mem_met_of_mem_queue_discoverAll fun u hu => hq u (List.mem_cons_of_mem _ hu))]
    constructor
    · rintro ⟨u, hu, h⟩
      rcases mem_met_discoverAll.1 hu with hu | ⟨hnext, hvertex⟩
      · exact ⟨u, hu, h⟩
      · exact ⟨v, hq v List.mem_cons_self, ((Reaches.refl v).step hnext hvertex).trans h⟩
    · rintro ⟨u, hu, h⟩
      exact ⟨u, mem_met_discoverAll.2 (Or.inl hu), h⟩

/-- Exploring finds exactly what is reached from a starting point. -/
theorem mem_reachAll_iff {g : Digraph α} {starts : List α} {w : α} :
    w ∈ g.reachAll starts ↔ ∃ v ∈ starts, g.Reaches v w := by
  have h := mem_explore_iff (g := g) (e := ⟨starts, starts.reverse⟩) (w := w)
    (fun v hv => Or.inl (List.mem_reverse.1 hv)) (fun v hv => List.mem_reverse.2 hv)
  simpa [reachAll] using h

@[simp]
theorem mem_reach_iff {g : Digraph α} {v w : α} : w ∈ g.reach v ↔ g.Reaches v w := by
  simp [reach, mem_reachAll_iff]

/-- What was met comes first in the list. -/
theorem met_discoverAll_append (g : Digraph α) (vs : List α) (e : Exploration α) :
    ∃ new, (g.discoverAll e vs).met = new ++ e.met := by
  induction vs generalizing e with
  | nil => exact ⟨[], rfl⟩
  | cons v vs ih =>
    obtain ⟨new, hnew⟩ := ih (g.discover e v)
    have h : (g.discoverAll e (v :: vs)).met = new ++ (g.discover e v).met := hnew
    unfold discover at h
    split at h
    · exact ⟨new ++ [v], by rw [h]; simp⟩
    · exact ⟨new, h⟩

/-- What was met comes first in what is explored. -/
theorem explore_eq_append (g : Digraph α) (e : Exploration α) :
    ∃ rest, g.explore e = e.met.reverse ++ rest := by
  fun_induction explore g e with
  | case1 met => exact ⟨[], by simp⟩
  | case2 v queue met ih =>
    obtain ⟨rest, hrest⟩ := ih
    obtain ⟨new, hnew⟩ := g.met_discoverAll_append (g.next v) ⟨queue, met⟩
    exact ⟨new.reverse ++ rest, by rw [hrest, hnew]; simp⟩

/-- A starting point is the nearest to itself. -/
theorem reach_eq_cons (g : Digraph α) (v : α) : ∃ rest, g.reach v = v :: rest :=
  g.explore_eq_append ⟨[v], [v]⟩

end Digraph

end Slicing
