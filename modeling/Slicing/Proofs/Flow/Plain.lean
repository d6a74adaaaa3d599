import Slicing.Proofs.Flow.Sending

/-!
# Runs without `finally` blocks

If there is no `finally` block in the body of a callable, there is none in a run in the course of
lowering it, and no statement around the run has one (`Within.plain`). Then ways out are offered to
the statements around until one takes them in, and nothing is sent on later.
-/

namespace Slicing

/-! ## Statements without `finally` -/

mutual

/-- There is a `finally` block in a statement. -/
def Stmt.hasFinalizer : Stmt → Bool
  | .simple .. | .breakJump _ | .continueJump _ | .returnJump .. | .throwJump .. => false
  | .branch _ _ thenBranch elseBranch =>
    blockHasFinalizer thenBranch || blockHasFinalizer elseBranch
  | .whileLoop _ _ body | .doWhile _ body _ | .forEach _ _ _ body | .block _ body =>
    blockHasFinalizer body
  | .forLoop _ init _ update body =>
    blockHasFinalizer init || (blockHasFinalizer body || blockHasFinalizer update)
  | .select _ _ cases => casesHaveFinalizer cases
  | .tryBlock _ body catches none => blockHasFinalizer body || catchesHaveFinalizer catches
  | .tryBlock _ _ _ (some _) => true

/-- There is a `finally` block in the statements of a block. -/
def blockHasFinalizer : List Stmt → Bool
  | [] => false
  | stmt :: stmts => stmt.hasFinalizer || blockHasFinalizer stmts

/-- There is a `finally` block in the cases of a `switch`. -/
def casesHaveFinalizer : List (SwitchCase Stmt) → Bool
  | [] => false
  | ⟨_, _, body⟩ :: cases => blockHasFinalizer body || casesHaveFinalizer cases

/-- There is a `finally` block in the catch clauses of a `try`. -/
def catchesHaveFinalizer : List (CatchClause Stmt) → Bool
  | [] => false
  | ⟨_, _, _, body⟩ :: clauses => blockHasFinalizer body || catchesHaveFinalizer clauses

end

theorem Stmt.hasFinalizer_of_loop {stmt : Stmt} {l : Loop} (hl : stmt.loop? = some l) :
    stmt.hasFinalizer =
      (blockHasFinalizer l.init || (blockHasFinalizer l.body || blockHasFinalizer l.update)) := by
  unfold Stmt.loop? at hl
  split at hl <;> cases hl <;> simp [Stmt.hasFinalizer, blockHasFinalizer]

/-- A `try` with a `finally` block. -/
def Scope.hasFinalizer : Scope → Bool
  | .tryBlock _ hasFinalizer _ => hasFinalizer
  | _ => false

theorem Scope.Grows.hasFinalizer_eq {P : Pending → Prop} {a b : Scope} (hg : Scope.Grows P a b) :
    b.hasFinalizer = a.hasFinalizer := by
  cases hg <;> rfl

/-- No statement around has a `finally` block. -/
def Surroundings.Plain (a : Surroundings) : Prop := ∀ scope ∈ a.scopes, scope.hasFinalizer = false

/-- Statements without `finally` blocks stay so with one more. -/
theorem Surroundings.Plain.inside {a : Surroundings} (ha : a.Plain) {scope : Scope}
    (hscope : scope.hasFinalizer = false) : (a.inside scope).Plain :=
  List.forall_mem_cons.2 ⟨hscope, ha⟩

/-- A way out that is sent brings in no `finally` block. -/
theorem Surroundings.Plain.sent {h : Hierarchy} {a : Surroundings} (ha : a.Plain) (p : Pending)
    (escape : Escape) : (a.sent h p escape).Plain := by
  intro scope hscope
  obtain ⟨scope', hmem, hg⟩ := forall₂_mem_right (deliver_grows h p escape a.scopes) hscope
  rw [hg.hasFinalizer_eq]
  exact ha scope' hmem

namespace Lowering

variable {h : Hierarchy} {s s' t u : Lowering} {q r : Run} {gs : Guards}
  {pieces : List (Run × Guards)}

/-- There is a `finally` block in what is lowered. -/
def Task.hasFinalizer : Task → Bool
  | .construct .. => false
  | .part (.stmt stmt) => stmt.hasFinalizer
  | .part (.block stmts) | .part (.update stmts) => blockHasFinalizer stmts
  | .part (.rounds _ _ _ body update _) => blockHasFinalizer body || blockHasFinalizer update
  | .part (.cases _ _ _ cases) => casesHaveFinalizer cases
  | .part (.catches _ clauses _) => catchesHaveFinalizer clauses

/-- There is no `finally` block in a run or around it. -/
structure Run.Plain (r : Run) : Prop where
  task : r.task.hasFinalizer = false
  around : r.first.around.Plain

theorem Run.Plain.not_isFinal (hr : r.Plain) : ¬r.IsFinal := by
  rintro ⟨source, body, catches, finalizer, htask⟩
  have hno := hr.task
  rw [htask] at hno
  cases hno

theorem left_plain (ht : t.around.Plain) : t.left.around.Plain := fun scope hscope =>
  ht scope (List.mem_of_mem_tail hscope)

theorem innermost_plain (ht : t.around.Plain) : t.innermost.withoutHandlers.hasFinalizer = false := by
  unfold innermost
  cases heq : t.scopes with
  | nil => rfl
  | cons scope scopes =>
    have hno := ht scope (show scope ∈ t.scopes from heq ▸ List.mem_cons_self)
    cases scope with
    | loop | select => rfl
    | tryBlock => exact hno

/-- What is around stays without `finally` blocks while a part is run. -/
theorem Run.Derived.plain (hr : r.Derived h) (hs : r.first.around.Plain) : r.last.around.Plain :=
  hr.keeps (fun _ _ p escape _ _ _ ha => ha.sent p escape) hs

/-- The pieces of a run without `finally` blocks have none. -/
theorem Consists.plain_task (hc : Consists h r pieces) (hr : r.task.hasFinalizer = false) :
    ∀ piece ∈ pieces, piece.1.task.hasFinalizer = false := by
  cases hc with
  | loopUnentered _ hloop | tested _ hloop | endless _ hloop =>
    rw [Task.hasFinalizer, Stmt.hasFinalizer_of_loop hloop] at hr
    simp_all [Task.hasFinalizer]
  | tryNodeless | tryFinally => cases hr
  | construct | skip | updateUnentered | casesEnd | jump | catchesEnd | catchesUnhandled | blockEnd =>
    exact List.forall_mem_nil _
  | _ =>
    simp_all [Task.hasFinalizer, Stmt.hasFinalizer, blockHasFinalizer, casesHaveFinalizer,
      catchesHaveFinalizer]

/-- What is around stays without `finally` blocks from piece to piece. -/
theorem Consists.plain_around (hc : Consists h r pieces) (hd : r.Derived h)
    (hr : r.task.hasFinalizer = false) :
    Linked (fun s t => s.around.Plain → t.around.Plain) r.first pieces r.last := by
  cases hc with
  | construct | skip | jump | updateUnentered | casesEnd | catchesEnd | catchesUnhandled | blockEnd =>
    exact hd.plain
  | simple | loopUnentered | update | nested | catchUnentered => exact ⟨id, id⟩
  | blockNext => exact ⟨id, id, id⟩
  | branch | tested | case | «catch» => exact ⟨id, id, id, id⟩
  | endless =>
    refine ⟨id, id, id, ?_⟩
    split <;> exact id
  | rounds => exact ⟨fun hs => hs.inside rfl, left_plain, id⟩
  | footless => exact ⟨fun hs => hs.inside rfl, left_plain⟩
  | footed => exact ⟨fun hs => hs.inside rfl, left_plain, id⟩
  | select => exact ⟨id, fun ht => ht.inside rfl, left_plain⟩
  | tryPlain =>
    exact ⟨fun hs => hs.inside rfl, fun ht => (left_plain ht).inside (innermost_plain ht), left_plain⟩
  | tryNodeless | tryFinally => cases hr

theorem Inside.plain (hr : r.Derived h) (hq : Inside h r gs q) (hp : r.Plain) : q.Plain := by
  obtain ⟨pieces, hc, hd, hmem⟩ := hq
  refine ⟨hc.plain_task hp.task _ hmem, ?_⟩
  refine ((hc.plain_around hr hp.task).mem (fun h₁ h₂ hs => h₂ (h₁ hs)) ?_ _ hmem).1 hp.around
  exact fun piece hpiece => (hd piece hpiece).plain

/-- What is run inside of a run without `finally` blocks has none. -/
theorem Within.plain (hr : r.Derived h) (hq : Within h r gs q) (hp : r.Plain) : q.Plain := by
  induction hq with
  | self => exact hp
  | inside hq hin ih => exact hin.plain (hq.derived hr) ih

end Lowering

end Slicing
