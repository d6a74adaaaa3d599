import Slicing.Proofs.Flow.Placement
import Slicing.Proofs.Flow.Sending
import Slicing.Proofs.Flow.Settling

/-!
# `finally` blocks are not bypassed

If there are nodes for the `finally` block of a `try`, then every edge out of a node of its body or
its catch clauses leads to another such node, or to the first node of the block
(`FlowGraph.build_finalizes`). This goes for jumps, for exceptions and for what inner `finally`
blocks send on.

While the body and the catch clauses are lowered, nothing gets past the `try` to the statements
around (`Shields`), as it takes in all ways out. So all that waits for a target is in the frontier
or waits for the block, and finds its target in the first node of the block. Behind the block
nothing of it is left (`tryFinally_settled`), and what settled in the run of the `try` settled in the
callable.
-/

namespace Slicing

/-- A `try` with a `finally` block is between a statement and what is around the `try`. -/
def Shields (outer : Surroundings) (a : Surroundings) : Prop :=
  ∃ handlers escapes, a = outer.inside (.tryBlock handlers true escapes)

/-- All ways out end at a `try` with a `finally` block. -/
theorem Shields.sent {h : Hierarchy} {outer a : Surroundings} (ha : Shields outer a) (p : Pending)
    (escape : Escape) : Shields outer (a.sent h p escape) := by
  obtain ⟨handlers, escapes, rfl⟩ := ha
  rw [Surroundings.inside_sent, take_tryBlock]
  by_cases htaken : (offered h p escape handlers).2
  · simp only [if_pos htaken, if_true]
    exact ⟨_, _, rfl⟩
  · simp only [if_neg htaken, if_true]
    exact ⟨_, _, rfl⟩

namespace Lowering

variable {h : Hierarchy} {s s' t u v : Lowering} {W : Pending → Prop}

/-- What is lowered in a `try` with a `finally` block changes nothing around the `try`. -/
theorem Lowered.shielded {part : Part} {outer : Surroundings} (hl : Lowered h part s s')
    (hs : Shields outer s.around) : Shields outer s'.around :=
  Run.Derived.keeps (r := part.run s s') hl (fun _ _ p escape _ _ _ ha => ha.sent p escape) hs

/-! ## `try` -/

section Try

variable {body finalizer : List Stmt} {catches : List (CatchClause Stmt)} {after : List Pending}

/-- What is around a `try` with a `finally` block stays the same up to the block. -/
theorem try_shielded (hl₁ : Lowered h (.block body) (s.entered (tryScope catches true)) t)
    (hl₂ : Lowered h (.catches t.innermost.handlers catches after)
      ((t.left.withPending []).entered t.innermost.withoutHandlers) u) :
    u.left.around = s.around := by
  have hentered : Shields s.around (s.entered (tryScope catches true)).around := ⟨_, _, rfl⟩
  obtain ⟨handlers, escapes, heq⟩ := hl₁.shielded hentered
  obtain ⟨hinner, hleft⟩ := left_of_around heq
  have hturned : Shields s.around
      ((t.left.withPending []).entered t.innermost.withoutHandlers).around := by
    rw [hinner]
    exact ⟨[], escapes, congrArg (·.inside (.tryBlock [] true escapes)) hleft⟩
  obtain ⟨handlers', escapes', heq'⟩ := hl₂.shielded hturned
  exact (left_of_around heq').2

/-- Nothing has been watched so far. -/
def idleMarks (s : Lowering) : List Mark :=
  (s.scopes.flatMap Scope.handlers).map fun handler => (handler.exceptionType, fun _ => False)

/-- Arcs that do not wait have left no marks. -/
theorem Tracked.of_collected (hold : ∀ p, W p → p.source.number < s.nextId)
    (hno : ∀ p ∈ s.collected, ¬W p) :
    Tracked W (· ∈ s.graph.edges) s.idleMarks (fun _ => False) s where
  old := hold
  edges _ _ := Iff.rfl
  handlers := by
    refine List.forall₂_map_right_iff.2 (List.forall₂_same.2 fun handler hmem => ⟨rfl, fun p hw => ?_⟩)
    exact iff_false_intro fun hp => hno p (mem_collected_iff.2 (.inl ⟨handler, hmem, hp⟩)) hw
  strays p hp := hno p (mem_collected_iff.2 (.inr (.inl hp)))
  returns p hw := iff_false_intro fun hp => hno p (mem_collected_iff.2 (.inr (.inr hp))) hw

/-- Where nothing has been watched nothing has been led to a handler. -/
theorem not_led_idleMarks {gs : Guards} {e : NodeId × NodeId × FlowEdge} : ¬Led gs s.idleMarks e := by
  rintro ⟨m, hm, -, hmark⟩
  obtain ⟨handler, -, heq⟩ := List.mem_map.1 (List.of_mem_zip hm).2
  rw [← heq] at hmark
  exact hmark

/-- A node of a `try` up to its `finally` block is none of the block. -/
theorem Made.disjoint {x : NodeId} (hu : u.Below) (hm : Made s u x) : ¬Made u v x := fun hm' =>
  hm'.not_mem hu hm.1

/-- An arc that waits did so before, or starts at a new node. -/
theorem Extends.mem_collected {P H : NodeId → Prop} {p : Pending} (he : Extends P H s t)
    (hp : p ∈ t.collected) : p ∈ s.collected ∨ Made s t p.source := by
  rcases List.mem_append.1 hp with hp | hp
  · exact (forall₂_flatMap_mem_or (fun _ _ hg _ => hg.waiting_mem_or) he.scopes hp).imp_left
      (List.mem_append_left _)
  · exact (he.returns.mem_or hp).imp_left (List.mem_append_right _)

/-- Behind a `finally` block with nodes, nothing waits that starts at a node before it. -/
theorem tryFinally_settled {source : Element} (hs : s.Sound)
    (hl₁ : Lowered h (.block body) (s.entered (tryScope catches true)) t)
    (hl₂ : Lowered h (.catches t.innermost.handlers catches after)
      ((t.left.withPending []).entered t.innermost.withoutHandlers) u)
    (hl₃ : Lowered h (.block finalizer)
      (u.left.withPending (t.pending ++ after ++ u.innermost.escapes.map (·.1))) v)
    (hsize : v.graph.size ≠ u.graph.size) :
    Settled (fun p => Made s u p.source) (· ∈ v.graph.edges) v.idleMarks (fun _ => False)
      ((Part.stmt (.tryBlock source body catches (some finalizer))).run s
        ((v.withPending (if (t.pending ++ after).isEmpty then [] else v.pending)).sentAll h
          (redirected u.innermost.escapes v.pending))) := by
  have hbelow : u.Below := (try_grown hl₁.grown hl₂.grown).1.sound.below
  -- the ends of the block are nodes of the block
  have hends (p : Pending) (hp : p ∈ v.pending) : ¬Made s u p.source := fun hm =>
    hm.disjoint hbelow ((hl₃.grown.outputs p hp).resolve_right fun hsame => hsize hsame.2)
  have hcollected (p : Pending) (hp : p ∈ v.collected) : ¬Made s u p.source := by
    intro hm
    have hold : p ∈ u.left.collected := (hl₃.grown.ext.mem_collected hp).resolve_right
      (hm.disjoint hbelow)
    have hsame : u.left.collected = s.collected :=
      congrArg (fun a : Surroundings => a.scopes.flatMap Scope.waiting ++ a.returns)
        (try_shielded hl₁ hl₂)
    exact hm.not_mem hs.below (hs.collected p (hsame ▸ hold))
  have htracked : Tracked (fun p => Made s u p.source) (· ∈ v.graph.edges) v.idleMarks (fun _ => False) v :=
    .of_collected (fun p hm => Nat.lt_of_lt_of_le (hbelow _ hm.1) hl₃.nextId_le) hcollected
  refine ⟨(htracked.withPending _).sentAll fun e he => ?_, fun p hp => ?_⟩
  · obtain ⟨-, tail, htail, heq⟩ := mem_redirected he
    rw [heq]
    exact hends tail htail
  · exact hends p (pending_of_finally hp)

/-- The edges of the nodes of a `try` up to its `finally` block. -/
theorem tryFinally_edges
    (hl₁ : Lowered h (.block body) (s.entered (tryScope catches true)) t)
    (hl₂ : Lowered h (.catches t.innermost.handlers catches after)
      ((t.left.withPending []).entered t.innermost.withoutHandlers) u)
    (hl₃ : Lowered h (.block finalizer)
      (u.left.withPending (t.pending ++ after ++ u.innermost.escapes.map (·.1))) v)
    (hs : s.Sound) {e : NodeId × NodeId × FlowEdge} (he : e ∈ v.graph.edges)
    (hm : Made s u e.1) : Made s u e.2.1 ∨ First u v e.2.1 := by
  have hext := (try_grown hl₁.grown hl₂.grown).1
  rcases Adds.mem_or hl₃.springs he with he | hnew | ⟨-, hfirst⟩
  · rcases hext.edges.mem_or he with he | ⟨-, htarget⟩
    · exact absurd (FlowGraph.HasEdge.mem_left hs.inRange ⟨e.2.2, he⟩) (hm.not_mem hs.below)
    · exact .inl (htarget.resolve_right fun hf => hf)
  · exact absurd hnew (hm.disjoint hext.sound.below)
  · exact .inr hfirst

end Try

/-- The runs of the body, the catch clauses and the `finally` block of a `try`. -/
def Run.Finalizes (h : Hierarchy) (q body catches finalizer : Run) : Prop :=
  q.IsFinal ∧ (∃ gs, Consists h q [(body, gs), (catches, []), (finalizer, [])]) ∧
    body.Derived h ∧ catches.Derived h ∧ finalizer.Derived h

/-- A `try` that was reached has been lowered with its body, its clauses and its `finally` block. -/
theorem Lowered.finalizes {source : Element} {body finalizer : List Stmt}
    {catches : List (CatchClause Stmt)}
    (hl : Lowered h (.stmt (.tryBlock source body catches (some finalizer))) s s')
    (hne : s.pending ≠ []) :
    ∃ t u v after, Lowered h (.block body) (s.entered (tryScope catches true)) t ∧
      Lowered h (.block finalizer)
        (u.left.withPending (t.pending ++ after ++ u.innermost.escapes.map (·.1))) v ∧
      ((Part.stmt (.tryBlock source body catches (some finalizer))).run s s').Finalizes h
        ((Part.block body).run (s.entered (tryScope catches true)) t)
        ((Part.catches t.innermost.handlers catches after).run
          ((t.left.withPending []).entered t.innermost.withoutHandlers) u)
        ((Part.block finalizer).run
          (u.left.withPending (t.pending ++ after ++ u.innermost.escapes.map (·.1))) v) := by
  obtain ⟨t, u, after, hl₁, hl₂, v, hl₃, hlast⟩ := hl.try_inv hne
  obtain ⟨nodes, hn⟩ := hl₂.clauseNodes
  refine ⟨t, u, v, after, hl₁, hl₃, ⟨_, _, _, _, rfl⟩, ⟨catches.zip nodes, ?_⟩, hl₁, hl₂, hl₃⟩
  rcases hlast with ⟨hsize, rfl⟩ | ⟨hsize, rfl⟩
  · exact .tryNodeless hne hn hsize
  · exact .tryFinally hne hn hsize

/-- What is left of a `try` with a `finally` block that has nodes. -/
theorem Run.Finalizes.settled {q body catches finalizer : Run} (hq : q.Derived h)
    (hf : q.Finalizes h body catches finalizer)
    (hsize : finalizer.first.graph.size < finalizer.last.graph.size) :
    Watches (fun p => Made q.first catches.last p.source) q ∧
      Settled (fun p => Made q.first catches.last p.source) (· ∈ finalizer.last.graph.edges)
        finalizer.last.idleMarks (fun _ => False) q ∧
      ∀ e ∈ finalizer.last.graph.edges, Made q.first catches.last e.1 →
        Made q.first catches.last e.2.1 ∨ First finalizer.first finalizer.last e.2.1 := by
  obtain ⟨⟨source, stmts, clauses, last, htask⟩, ⟨gs, hcons⟩, hl₁, hl₂, hl₃⟩ := hf
  obtain ⟨task, first, final⟩ := q
  obtain rfl : task = _ := htask
  have hs : first.Sound := (Lowered.ready hq).sound
  refine ⟨⟨fun _ _ hm => hm, fun p hm => hm.2, nofun⟩, ?_⟩
  cases hcons with
  | tested _ hloop _ _ => cases hloop
  | endless _ hloop _ _ => cases hloop
  | tryNodeless _ _ hsame => exact absurd hsame (Nat.ne_of_gt hsize)
  | tryFinally _ _ hne =>
    exact ⟨tryFinally_settled hs hl₁ hl₂ hl₃ hne, fun e he hm => tryFinally_edges hl₁ hl₂ hl₃ hs he hm⟩

end Lowering

namespace FlowGraph

open Lowering

variable {h : Hierarchy} {decl : CallableDecl} {stmts : List Stmt} {n : Nat} {g : FlowGraph}

/-- Wherever a `try` is lowered in the body of a callable, the nodes of its body and its catch
    clauses lead to each other and to the first node of its `finally` block, if there are nodes
    for the block. -/
theorem build_finalizes (hbody : decl.body = some stmts) (hg : (build h decl n).1 = .ok g) :
    ∃ ins t s es outs u, Builds h decl stmts n ins t s es outs u g ∧
      ∀ gs q, Within h (Builds.bodyRun ins stmts t s) gs q →
        (q.IsFinal → q.first.pending ≠ [] →
          ∃ body catches finalizer, q.Finalizes h body catches finalizer) ∧
        ∀ body catches finalizer, q.Finalizes h body catches finalizer →
          finalizer.first.graph.size < finalizer.last.graph.size →
          ∀ x y edge, Made q.first catches.last x → (x, y, edge) ∈ g.edges →
            Made q.first catches.last y ∨ First finalizer.first finalizer.last y := by
  obtain ⟨ins, t, s, es, outs, u, hb⟩ := build_eq_ok hbody hg
  have hderived : (Builds.bodyRun ins stmts t s).Derived h := hb.body
  refine ⟨ins, t, s, es, outs, u, hb, fun gs q hq => ⟨fun hfinal hne => ?_, ?_⟩⟩
  · have hd := hq.derived hderived
    obtain ⟨source, body, catches, last, htask⟩ := hfinal
    obtain ⟨task, first, last⟩ := q
    obtain rfl : task = _ := htask
    obtain ⟨t, u, v, after, -, -, hf⟩ := Lowered.finalizes hd hne
    exact ⟨_, _, _, hf⟩
  · intro body catches finalizer hf hsize x y edge hx he
    obtain ⟨hW, hset, hedges⟩ := hf.settled (hq.derived hderived) hsize
    obtain ⟨hiff, -⟩ := hb.settled hq hW (fun _ _ _ _ => fun _ _ _ hm => hm) hset
    refine hedges (x, y, edge) ?_ hx
    have hsettled := ((hiff (x, y, edge) hx).1 he).resolve_right fun hno => hno.1
    exact hsettled.resolve_right not_led_idleMarks

/-- A statement that may raise an exception, and a `finally` block. -/
def guardedStep : List Stmt := [
  .tryBlock ⟨⟨0⟩, "try", none⟩ [.simple ⟨⟨1⟩, "x", none⟩ ⟨[], [], [], ["E"]⟩] []
    (some [.simple ⟨⟨2⟩, "y", none⟩ .none])]

/-- There is a node for the `finally` block. -/
theorem guardedStep_run {s s' : Lowering} (hne : s.pending ≠ [])
    (hl : Lowered h (.block guardedStep) s s') :
    ∃ gs q body catches finalizer, Within h ((Part.block guardedStep).run s s') gs q ∧
      q.Finalizes h body catches finalizer ∧
      finalizer.first.graph.size < finalizer.last.graph.size := by
  cases hl with
  | blockNext _ hl hrest =>
    have hin := Inside.within ⟨_, .blockNext, Pieces.two hl hrest, List.mem_cons_self⟩
    obtain ⟨t, u, v, after, hl₁, hl₃, hf⟩ := hl.finalizes hne
    refine ⟨_, _, _, _, _, hin, hf, Nat.lt_of_le_of_ne hl₃.size_le fun hsize => ?_⟩
    -- the end of the body leads to the block, so that there is a node for it
    obtain ⟨_, id, hc, -⟩ := hl₁.single_inv hne
    have hno := (hl₃.inert hsize.symm).2 (by simp [hc.pending_eq])
    cases hno

/-- The step in the `try` may raise an exception, and its `finally` block has a node. -/
theorem guardedStep_finalizes : ∃ g, (build ⟨[], []⟩ (callableWith guardedStep) 0).1 = .ok g ∧
    ∃ ins t s es outs u,
      Builds ⟨[], []⟩ (callableWith guardedStep) guardedStep 0 ins t s es outs u g ∧
      (∃ gs q body catches finalizer, Within ⟨[], []⟩ (Builds.bodyRun ins guardedStep t s) gs q ∧
        q.Finalizes ⟨[], []⟩ body catches finalizer ∧
        finalizer.first.graph.size < finalizer.last.graph.size) ∧
      ∀ gs q, Within ⟨[], []⟩ (Builds.bodyRun ins guardedStep t s) gs q →
        (q.IsFinal → q.first.pending ≠ [] →
          ∃ body catches finalizer, q.Finalizes ⟨[], []⟩ body catches finalizer) ∧
        ∀ body catches finalizer, q.Finalizes ⟨[], []⟩ body catches finalizer →
          finalizer.first.graph.size < finalizer.last.graph.size →
          ∀ x y edge, Made q.first catches.last x → (x, y, edge) ∈ g.edges →
            Made q.first catches.last y ∨ First finalizer.first finalizer.last y := by
  obtain ⟨g, hg⟩ := Lowering.build_ok ⟨[], []⟩ (callableWith guardedStep) 0 (by decide)
  obtain ⟨ins, t, s, es, outs, u, hb, hall⟩ := build_finalizes rfl hg
  have hne : t.pending ≠ [] := hb.opening.pending_ne_nil (by simp [start])
  exact ⟨g, hg, ins, t, s, es, outs, u, hb, guardedStep_run hne hb.body, hall⟩

end FlowGraph

end Slicing
