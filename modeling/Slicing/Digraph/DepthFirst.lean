import Slicing.Digraph

/-!
# Depth-first order

A depth-first exploration of a finite directed graph follows the first arrow out of a
vertex to its end before it looks at the next one. A vertex is *finished* when all its
arrows have been followed. `Digraph.reversePostorder` lists what is reached from a
start, the vertex that is finished last first.

The vertices on the way from the start to the one that is looked at are finished in the
opposite order, so that at any time they come before what is finished already
(`Descent.order`). This order is only ever extended, and by vertices behind one of their
predecessors. In the end it holds what is reached (`mem_reversePostorder_iff`), each
once, and each vertex but the start behind one that has an arrow to it
(`exists_predecessor_of_mem`).
-/

namespace Slicing.Digraph

variable {α : Type}

/-- The state of a depth-first exploration: the vertices on the way from the start,
    the latest first, with the arrows out of them that are still to be followed; the
    vertices met so far; and those that are finished, the latest first. -/
structure Descent (α : Type) where
  stack : List (α × List α)
  met : List α
  finished : List α

/-- The arrows still to be followed, where each vertex on the way counts as one more. -/
def Descent.pending (d : Descent α) : Nat :=
  d.stack.foldr (fun (_, arrows) pending => arrows.length + 1 + pending) 0

theorem length_unmet_cons_lt [DecidableEq α] {g : Digraph α} {v : α} {met : List α} (hv : v ∈ g.vertices)
    (hmet : v ∉ met) : (g.unmet ⟨[], v :: met⟩).length < (g.unmet ⟨[], met⟩).length := by
  have heq : g.unmet ⟨[], v :: met⟩ = (g.unmet ⟨[], met⟩).filter fun w => decide (w ≠ v) := by
    simp [unmet, List.filter_filter]
  rw [heq]
  exact List.length_filter_lt_length_iff_exists.2 ⟨v, by simp [unmet, hv, hmet], by simp⟩

/-- Explores until the way back to the start is done, and lists what was finished. -/
def descend [DecidableEq α] (g : Digraph α) (d : Descent α) : List α :=
  match d with
  | ⟨[], _, finished⟩ => finished
  | ⟨(v, []) :: stack, met, finished⟩ => g.descend ⟨stack, met, v :: finished⟩
  | ⟨(v, w :: arrows) :: stack, met, finished⟩ =>
    if _h : w ∉ met ∧ w ∈ g.vertices then
      g.descend ⟨(w, g.next w) :: (v, arrows) :: stack, w :: met, finished⟩
    else g.descend ⟨(v, arrows) :: stack, met, finished⟩
termination_by ((g.unmet ⟨[], d.met⟩).length, d.pending)
decreasing_by
  · exact Prod.Lex.right _ (by simp [Descent.pending])
  · exact Prod.Lex.left _ _ (length_unmet_cons_lt _h.2 _h.1)
  · exact Prod.Lex.right _ (by simp [Descent.pending])

/-- What is reached from a start, in the opposite order to that in which a depth-first
    exploration finishes it. -/
def reversePostorder [DecidableEq α] (g : Digraph α) (start : α) : List α :=
  g.descend ⟨[(start, g.next start)], [start], []⟩

/-! ## The order -/

/-- The vertices met so far, in the order in which they will be listed. -/
def Descent.order (d : Descent α) : List α := (d.stack.map (·.1)).reverse ++ d.finished

/-- What holds at any time of an exploration. -/
structure Descends (g : Digraph α) (start : α) (d : Descent α) : Prop where
  met : ∀ v, v ∈ d.met ↔ v ∈ d.order
  nodup : d.order.Nodup
  start_mem : start ∈ d.order
  reached : ∀ v ∈ d.order, g.Reaches start v
  /-- A vertex comes behind one that has an arrow to it. -/
  entered : ∀ w ∈ d.order, w = start ∨ ∃ v, [v, w].Sublist d.order ∧ w ∈ g.next v
  /-- The arrows of what is finished have been followed. -/
  finished : ∀ v ∈ d.finished, ∀ w ∈ g.next v, w ∈ g.vertices → w ∈ d.order
  /-- The arrows of what is on the way have been followed, or are still to be. -/
  stack : ∀ v arrows, (v, arrows) ∈ d.stack → ∀ w ∈ g.next v, w ∈ g.vertices →
    w ∈ arrows ∨ w ∈ d.order
  /-- What is still to be followed out of a vertex are arrows out of it. -/
  arrows : ∀ v arrows, (v, arrows) ∈ d.stack → ∀ w ∈ arrows, w ∈ g.next v

variable {g : Digraph α} {start u v w : α} {arrows met finished : List α}
  {stack : List (α × List α)}

/-- A descent starts with its first vertex, whose arrows are all to be followed. -/
theorem Descends.initial (g : Digraph α) (start : α) :
    g.Descends start ⟨[(start, g.next start)], [start], []⟩ where
  met v := by simp [Descent.order]
  nodup := by simp [Descent.order]
  start_mem := by simp [Descent.order]
  reached v hv := by
    obtain rfl : v = start := by simpa [Descent.order] using hv
    exact .refl v
  entered w hw := .inl (by simpa [Descent.order] using hw)
  finished v hv := by simp at hv
  stack v arrows hv w hw _ := by
    obtain ⟨rfl, rfl⟩ : v = start ∧ arrows = g.next start := by simpa using hv
    exact .inl hw
  arrows v arrows hv w hw := by
    obtain ⟨rfl, rfl⟩ : v = start ∧ arrows = g.next start := by simpa using hv
    exact hw

/-- A vertex that is finished keeps its place in the order. -/
theorem Descends.finish (hd : g.Descends start ⟨(v, []) :: stack, met, finished⟩) :
    g.Descends start ⟨stack, met, v :: finished⟩ := by
  have horder : Descent.order ⟨stack, met, v :: finished⟩ =
      Descent.order ⟨(v, []) :: stack, met, finished⟩ := by
    simp [Descent.order]
  constructor
  · rw [horder]; exact hd.met
  · rw [horder]; exact hd.nodup
  · rw [horder]; exact hd.start_mem
  · rw [horder]; exact hd.reached
  · rw [horder]; exact hd.entered
  · rw [horder]
    intro u hu w hw hvertex
    rcases List.mem_cons.1 hu with rfl | hu
    · exact (hd.stack u [] List.mem_cons_self w hw hvertex).resolve_left List.not_mem_nil
    · exact hd.finished u hu w hw hvertex
  · rw [horder]
    exact fun u arrows hu => hd.stack u arrows (List.mem_cons_of_mem _ hu)
  · exact fun u arrows hu => hd.arrows u arrows (List.mem_cons_of_mem _ hu)

/-- An arrow to nothing new is dropped. -/
theorem Descends.drop (hd : g.Descends start ⟨(v, w :: arrows) :: stack, met, finished⟩)
    (hw : ¬(w ∉ met ∧ w ∈ g.vertices)) :
    g.Descends start ⟨(v, arrows) :: stack, met, finished⟩ where
  met := hd.met
  nodup := hd.nodup
  start_mem := hd.start_mem
  reached := hd.reached
  entered := hd.entered
  finished := hd.finished
  stack u rest hu x hx hvertex := by
    rcases List.mem_cons.1 hu with heq | hu
    · obtain ⟨rfl, rfl⟩ := Prod.mk.inj heq
      rcases hd.stack u (w :: rest) List.mem_cons_self x hx hvertex with hmem | hmem
      · rcases List.mem_cons.1 hmem with rfl | hmem
        · refine .inr ((hd.met x).1 (Classical.byContradiction fun hn => hw ⟨hn, hvertex⟩))
        · exact .inl hmem
      · exact .inr hmem
    · exact hd.stack u rest (List.mem_cons_of_mem _ hu) x hx hvertex
  arrows u rest hu x hx := by
    rcases List.mem_cons.1 hu with heq | hu
    · obtain ⟨rfl, rfl⟩ := Prod.mk.inj heq
      exact hd.arrows u (w :: rest) List.mem_cons_self x (List.mem_cons_of_mem _ hx)
    · exact hd.arrows u rest (List.mem_cons_of_mem _ hu) x hx

/-- A vertex that is entered is put behind the one that it is entered from. -/
theorem Descent.order_enter (v w : α) (arrows arrows' : List α) (stack : List (α × List α))
    (met met' finished : List α) : ∃ way,
      Descent.order ⟨(v, arrows) :: stack, met, finished⟩ = (way ++ [v]) ++ finished ∧
      Descent.order ⟨(w, arrows') :: (v, arrows) :: stack, met', finished⟩ = (way ++ [v]) ++ w :: finished :=
  ⟨(stack.map (·.1)).reverse, by simp [Descent.order], by simp [Descent.order]⟩

/-- A new vertex has its arrows still to be followed. -/
theorem Descends.enter (hd : g.Descends start ⟨(v, w :: arrows) :: stack, met, finished⟩)
    (hw : w ∉ met) (hvertex : w ∈ g.vertices) :
    g.Descends start ⟨(w, g.next w) :: (v, arrows) :: stack, w :: met, finished⟩ := by
  have hnext := hd.arrows v (w :: arrows) List.mem_cons_self w List.mem_cons_self
  obtain ⟨hmet, hnodup, hstart, hreached, hentered, hfinished, hstack, harrows⟩ := hd
  -- the order is the same with the arrow to `w` and without it
  obtain ⟨way, hbefore, hafter⟩ := Descent.order_enter v w arrows (g.next w) stack met (w :: met) finished
  change Descent.order ⟨(v, w :: arrows) :: stack, met, finished⟩ = _ at hbefore
  rw [hbefore] at hmet hnodup hreached hentered hfinished hstack hstart
  have hsub : ((way ++ [v]) ++ finished).Sublist ((way ++ [v]) ++ w :: finished) :=
    (List.Sublist.refl _).append (List.sublist_cons_self w finished)
  have hmem (x : α) : x ∈ (way ++ [v]) ++ w :: finished ↔ x = w ∨ x ∈ (way ++ [v]) ++ finished := by
    simp only [List.mem_append, List.mem_cons]
    grind
  constructor
  all_goals try rw [hafter]
  · intro x
    rw [hmem, List.mem_cons]
    exact or_congr_right (hmet x)
  · rw [List.perm_middle.nodup_iff, List.nodup_cons]
    exact ⟨fun hold => hw ((hmet w).2 hold), hnodup⟩
  · exact hsub.subset hstart
  · intro x hx
    rcases (hmem x).1 hx with rfl | hx
    · exact (hreached v (by simp)).step hnext hvertex
    · exact hreached x hx
  · intro x hx
    rcases (hmem x).1 hx with rfl | hx
    · refine .inr ⟨v, ?_, hnext⟩
      exact (List.sublist_append_right way [v]).append (List.singleton_sublist.2 List.mem_cons_self)
    · exact (hentered x hx).imp_right fun ⟨u, hu, hx⟩ => ⟨u, hu.trans hsub, hx⟩
  · exact fun u hu x hx hvertex => hsub.subset (hfinished u hu x hx hvertex)
  · intro u rest hu x hx hxvertex
    simp only [List.mem_cons, Prod.mk.injEq] at hu
    rcases hu with ⟨rfl, rfl⟩ | ⟨rfl, rfl⟩ | hu
    · exact .inl hx
    · rcases hstack u (w :: rest) List.mem_cons_self x hx hxvertex with hold | hold
      · rcases List.mem_cons.1 hold with rfl | hold
        · exact .inr ((hmem x).2 (.inl rfl))
        · exact .inl hold
      · exact .inr (hsub.subset hold)
    · exact (hstack u rest (List.mem_cons_of_mem _ hu) x hx hxvertex).imp_right (hsub.subset ·)
  · intro u rest hu x hx
    simp only [List.mem_cons, Prod.mk.injEq] at hu
    rcases hu with ⟨rfl, rfl⟩ | ⟨rfl, rfl⟩ | hu
    · exact hx
    · exact harrows u (w :: rest) List.mem_cons_self x (List.mem_cons_of_mem _ hx)
    · exact harrows u rest (List.mem_cons_of_mem _ hu) x hx

/-- What is listed in the end was in order all the time. -/
theorem Descends.descend [DecidableEq α] {d : Descent α} (hd : g.Descends start d) :
    ∃ met, g.Descends start ⟨[], met, g.descend d⟩ := by
  fun_induction Digraph.descend g d with
  | case1 met finished => exact ⟨met, hd⟩
  | case2 v stack met finished ih => exact ih hd.finish
  | case3 v w arrows stack met finished h ih => exact ih (hd.enter h.1 h.2)
  | case4 v w arrows stack met finished h ih => exact ih (hd.drop h)

section

variable [DecidableEq α]

/-- A whole descent ends with nothing left to be followed. -/
theorem reversePostorder_descends (g : Digraph α) (start : α) :
    ∃ met, g.Descends start ⟨[], met, g.reversePostorder start⟩ := (Descends.initial g start).descend

/-- No vertex is finished twice. -/
theorem nodup_reversePostorder (g : Digraph α) (start : α) : (g.reversePostorder start).Nodup := by
  obtain ⟨met, hd⟩ := g.reversePostorder_descends start
  simpa [Descent.order] using hd.nodup

/-- What is reached is listed. -/
theorem mem_reversePostorder_iff : v ∈ g.reversePostorder start ↔ g.Reaches start v := by
  obtain ⟨met, hd⟩ := g.reversePostorder_descends start
  have horder : Descent.order ⟨[], met, g.reversePostorder start⟩ = g.reversePostorder start := by
    simp [Descent.order]
  have hstart := hd.start_mem
  have hreached := hd.reached
  have hfinished := hd.finished
  rw [horder] at hstart hreached hfinished
  refine ⟨hreached v, fun hv => ?_⟩
  induction hv with
  | refl => exact hstart
  | step _ hnext hvertex ih => exact hfinished _ ih _ hnext hvertex

/-- A vertex but the start is listed behind one that has an arrow to it. -/
theorem exists_predecessor_of_mem (hw : w ∈ g.reversePostorder start) (hne : w ≠ start) :
    ∃ v, [v, w].Sublist (g.reversePostorder start) ∧ w ∈ g.next v := by
  obtain ⟨met, hd⟩ := g.reversePostorder_descends start
  have hentered := hd.entered w (by simpa [Descent.order] using hw)
  simpa [Descent.order] using hentered.resolve_left hne

/-- The start is listed first. -/
theorem reversePostorder_eq_cons (g : Digraph α) (start : α) :
    ∃ rest, g.reversePostorder start = start :: rest := by
  cases hlist : g.reversePostorder start with
  | nil =>
    have hmem : start ∈ g.reversePostorder start := mem_reversePostorder_iff.2 (.refl start)
    simp [hlist] at hmem
  | cons w rest =>
    by_cases hne : w = start
    · exact ⟨rest, by rw [hne]⟩
    · -- nothing is listed before the first vertex
      obtain ⟨v, hsub, -⟩ := exists_predecessor_of_mem (hlist ▸ List.mem_cons_self) hne
      have hnodup := g.nodup_reversePostorder start
      rw [hlist] at hsub hnodup
      exact absurd (hsub.tail.subset List.mem_cons_self) (List.nodup_cons.1 hnodup).1

end

end Slicing.Digraph
