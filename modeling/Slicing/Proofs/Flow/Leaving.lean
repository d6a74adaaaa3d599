import Slicing.Proofs.Flow.Derivation

/-!
# What leaves statements

Which jumps can leave a statement is seen in the statement alone (`Stmt.leftBy`): a loop
takes in the breaks and continues of its body, and a `switch` its breaks. While it is
lowered, the ways out of a statement come to the statements around, the innermost first,
and to an outer one only if the inner ones let them through. `Taken` follows what they take
in, together with a property of all that is sent.
-/

namespace Slicing

/-! ## Jumps -/

mutual

/-- A jump in a statement leaves it. -/
def Stmt.leftBy (escape : Escape) : Stmt → Bool
  | .simple .. | .throwJump .. => false
  | .breakJump _ => escape = .breakJump
  | .continueJump _ => escape = .continueJump
  | .returnJump .. => escape = .returnJump
  | .branch _ _ thenBranch elseBranch =>
    blockLeftBy escape thenBranch || blockLeftBy escape elseBranch
  | .whileLoop _ _ body | .doWhile _ body _ | .forEach _ _ _ body =>
    escape = .returnJump && blockLeftBy escape body
  | .forLoop _ init _ update body =>
    blockLeftBy escape init || (escape = .returnJump && blockLeftBy escape body) ||
      blockLeftBy escape update
  | .select _ _ cases => escape ≠ .breakJump && casesLeftBy escape cases
  | .tryBlock _ body catches none => blockLeftBy escape body || catchesLeftBy escape catches
  | .tryBlock _ body catches (some finalizer) =>
    blockLeftBy escape body || catchesLeftBy escape catches || blockLeftBy escape finalizer
  | .block _ body => blockLeftBy escape body

/-- A jump in a block leaves it. -/
def blockLeftBy (escape : Escape) : List Stmt → Bool
  | [] => false
  | stmt :: stmts => stmt.leftBy escape || blockLeftBy escape stmts

/-- A jump leaves the cases of a `switch`. -/
def casesLeftBy (escape : Escape) : List (SwitchCase Stmt) → Bool
  | [] => false
  | ⟨_, _, body⟩ :: cases => blockLeftBy escape body || casesLeftBy escape cases

/-- A jump leaves the catch clauses of a `try`. -/
def catchesLeftBy (escape : Escape) : List (CatchClause Stmt) → Bool
  | [] => false
  | ⟨_, _, _, body⟩ :: clauses => blockLeftBy escape body || catchesLeftBy escape clauses

end

/-- A `break`, `continue` or `return` leaves the body or the catch clauses of a `try`. -/
def jumpsOut (body : List Stmt) (catches : List (CatchClause Stmt)) : Bool :=
  [Escape.breakJump, .continueJump, .returnJump].any fun escape =>
    blockLeftBy escape body || catchesLeftBy escape catches

/-- The way out is an exception. -/
def Escape.IsThrow (escape : Escape) : Prop := ∃ exceptionType, escape = .throwJump exceptionType

/-- What leaves a loop leaves its start or its update, or returns from its body. -/
theorem Stmt.leftBy_of_loop {stmt : Stmt} {l : Loop} {escape : Escape}
    (hl : stmt.loop? = some l) : stmt.leftBy escape =
    (blockLeftBy escape l.init || (escape = .returnJump && blockLeftBy escape l.body) ||
      blockLeftBy escape l.update) := by
  cases stmt <;> cases hl <;> simp [leftBy, blockLeftBy]

/-- If no jump leaves a `try`, only exceptions do. -/
theorem not_leftBy_of_jumpsOut {body : List Stmt} {catches : List (CatchClause Stmt)}
    {escape : Escape} (hj : jumpsOut body catches = false) (hno : ¬escape.IsThrow) :
    (blockLeftBy escape body || catchesLeftBy escape catches) = false := by
  simp only [jumpsOut, List.any_cons, List.any_nil, Bool.or_eq_false_iff] at hj ⊢
  cases escape with
  | breakJump => exact hj.1
  | continueJump => exact hj.2.1
  | returnJump => exact hj.2.2.1
  | throwJump _ => exact absurd ⟨_, rfl⟩ hno

/-- A jump in a part leaves it. -/
def Lowering.Part.leftBy (escape : Escape) : Part → Bool
  | .stmt st => st.leftBy escape
  | .block stmts | .update stmts => blockLeftBy escape stmts
  | .rounds _ _ _ body after _ =>
    (escape = .returnJump && blockLeftBy escape body) || blockLeftBy escape after
  | .cases _ _ _ rest => casesLeftBy escape rest
  | .catches _ clauses _ => catchesLeftBy escape clauses

/-! ## What statements take in -/

/-- The kind of the node that a jump stands for. -/
def Escape.nodeKind : Escape → NodeKind
  | .breakJump => .breakJump
  | .continueJump => .continueJump
  | .returnJump => .returnJump
  | .throwJump _ => .throwJump

/-- A way out is none that ends at a loop or `switch`. -/
def Scope.LetsThrough (escape : Escape) : Scope → Prop
  | .loop _ _ => escape ≠ .breakJump ∧ escape ≠ .continueJump
  | .select _ => escape ≠ .breakJump
  | .tryBlock .. => True

/-- A statement has taken in ways out with a property. -/
inductive Scope.Takes (Q : Pending → Escape → Prop) : Scope → Scope → Prop
  | loop {breaks breaks' continues continues' : List Pending} :
      Adds (Q · .breakJump) breaks breaks' → Adds (Q · .continueJump) continues continues' →
        Takes Q (.loop breaks continues) (.loop breaks' continues')
  | select {breaks breaks' : List Pending} :
      Adds (Q · .breakJump) breaks breaks' → Takes Q (.select breaks) (.select breaks')
  | tryBlock {handlers handlers' : List Handler} {hasFinalizer : Bool}
      {escapes escapes' : List (Pending × Escape)} :
      Adds (fun e => Q e.1 e.2) escapes escapes' →
        Takes Q (.tryBlock handlers hasFinalizer escapes) (.tryBlock handlers' hasFinalizer escapes')

/-- Statements around each other have taken in ways out with a property, where a way out
    comes to an outer one only through the inner ones. -/
inductive Taken : (Pending → Escape → Prop) → List Scope → List Scope → Prop
  | nil (Q : Pending → Escape → Prop) : Taken Q [] []
  | cons {Q : Pending → Escape → Prop} {a b : Scope} {as bs : List Scope} :
      a.Takes Q b → Taken (fun p escape => Q p escape ∧ a.LetsThrough escape) as bs →
        Taken Q (a :: as) (b :: bs)

section Taking

variable {Q Q' : Pending → Escape → Prop} {a b c : Scope} {as bs cs : List Scope}

theorem Scope.Takes.refl (Q : Pending → Escape → Prop) : ∀ a : Scope, a.Takes Q a
  | .loop _ _ => .loop (.refl _ _) (.refl _ _)
  | .select _ => .select (.refl _ _)
  | .tryBlock _ _ _ => .tryBlock (.refl _ _)

theorem Scope.Takes.imp (hQ : ∀ p escape, Q p escape → Q' p escape) (hab : a.Takes Q b) :
    a.Takes Q' b := by
  cases hab with
  | loop hb hc => exact .loop (hb.imp fun p => hQ p _) (hc.imp fun p => hQ p _)
  | select hb => exact .select (hb.imp fun p => hQ p _)
  | tryBlock he => exact .tryBlock (he.imp fun e => hQ e.1 e.2)

/-- A statement takes in more in two steps. -/
theorem Scope.Takes.trans (hab : a.Takes Q b) (hbc : b.Takes Q c) : a.Takes Q c := by
  cases hab with
  | loop hb hc =>
    cases hbc with
    | loop hb' hc' => exact .loop (hb.trans hb') (hc.trans hc')
  | select hb =>
    cases hbc with
    | select hb' => exact .select (hb.trans hb')
  | tryBlock he =>
    cases hbc with
    | tryBlock he' => exact .tryBlock (he.trans he')

/-- A statement lets through the same, whatever it has taken in. -/
theorem Scope.Takes.letsThrough_iff {escape : Escape} (hab : a.Takes Q b) :
    b.LetsThrough escape ↔ a.LetsThrough escape := by
  cases hab <;> exact Iff.rfl

/-- What a `try` has noted was noted before, or has been taken in. -/
theorem Scope.Takes.mem_escapes {e : Pending × Escape} (hab : a.Takes Q b) (he : e ∈ b.escapes) :
    e ∈ a.escapes ∨ Q e.1 e.2 := by
  cases hab with
  | loop _ _ => cases he
  | select _ => cases he
  | tryBlock hadds => exact hadds.mem_or he

theorem Scope.escapes_withoutHandlers (a : Scope) : a.withoutHandlers.escapes = a.escapes := by
  cases a <;> rfl

theorem Scope.Takes.mem_breaks {p : Pending} (hab : a.Takes Q b) (hp : p ∈ b.breaks) :
    p ∈ a.breaks ∨ Q p .breakJump := by
  cases hab with
  | loop hb _ => exact hb.mem_or hp
  | select hb => exact hb.mem_or hp
  | tryBlock _ => cases hp

theorem Taken.refl (Q : Pending → Escape → Prop) (as : List Scope) : Taken Q as as := by
  induction as generalizing Q with
  | nil => exact .nil Q
  | cons a as ih => exact .cons (.refl Q a) (ih _)

theorem Taken.imp (hQ : ∀ p escape, Q p escape → Q' p escape) (hab : Taken Q as bs) :
    Taken Q' as bs := by
  induction hab generalizing Q' with
  | nil _ => exact .nil Q'
  | cons h₁ _ ih => exact .cons (h₁.imp hQ) (ih fun p escape hq => ⟨hQ p escape hq.1, hq.2⟩)

theorem Taken.trans (hab : Taken Q as bs) (hbc : Taken Q bs cs) : Taken Q as cs := by
  induction hab generalizing cs with
  | nil _ => exact hbc
  | cons h₁ _ ih =>
    cases hbc with
    | cons h₂ hbc =>
      exact .cons (h₁.trans h₂) (ih (hbc.imp fun p escape hq =>
        ⟨hq.1, h₁.letsThrough_iff.1 hq.2⟩))

/-- What the statements around have noted was noted before, or has been taken in. -/
theorem Taken.mem_escapes {e : Pending × Escape} (hab : Taken Q as bs) (hb : b ∈ bs)
    (he : e ∈ b.escapes) : (∃ a ∈ as, e ∈ a.escapes) ∨ Q e.1 e.2 := by
  induction hab with
  | nil _ => cases hb
  | cons h₁ _ ih =>
    rcases List.mem_cons.1 hb with rfl | hb
    · exact (h₁.mem_escapes he).imp_left fun hmem => ⟨_, List.mem_cons_self, hmem⟩
    · exact (ih hb).imp (fun ⟨a, ha, hmem⟩ => ⟨a, List.mem_cons_of_mem _ ha, hmem⟩) And.left

/-- A statement that meets a way out may take it in, and lets it through if it does not hold it for
    certain. -/
theorem take_takes (h : Hierarchy) (p : Pending) (escape : Escape) (hq : Q p escape) (a : Scope) :
    a.Takes Q (a.take h p escape).1 ∧
      ((a.take h p escape).2 = false → a.LetsThrough escape) := by
  cases a with
  | loop breaks continues =>
    cases escape with
    | breakJump => exact ⟨.loop (.single hq) (.refl _ _), by simp [Scope.take]⟩
    | continueJump => exact ⟨.loop (.refl _ _) (.single hq), by simp [Scope.take]⟩
    | returnJump => exact ⟨.refl _ _, by simp [Scope.LetsThrough]⟩
    | throwJump => exact ⟨.refl _ _, by simp [Scope.LetsThrough]⟩
  | select breaks =>
    cases escape with
    | breakJump => exact ⟨.select (.single hq), by simp [Scope.take]⟩
    | continueJump => exact ⟨.refl _ _, by simp [Scope.LetsThrough]⟩
    | returnJump => exact ⟨.refl _ _, by simp [Scope.LetsThrough]⟩
    | throwJump => exact ⟨.refl _ _, by simp [Scope.LetsThrough]⟩
  | tryBlock handlers hasFinalizer escapes =>
    refine ⟨?_, fun _ => trivial⟩
    rw [take_tryBlock]
    split
    · exact .tryBlock (.refl _ _)
    · split
      · exact .tryBlock (.single (x := (p, escape)) hq)
      · exact .tryBlock (.refl _ _)

/-- A way out is taken in by statements around. -/
theorem taken_deliver (h : Hierarchy) (p : Pending) (escape : Escape) (hq : Q p escape)
    (as : List Scope) : Taken Q as (deliver h p escape as).1 := by
  induction as generalizing Q with
  | nil => exact .nil Q
  | cons a as ih =>
    obtain ⟨htakes, hlets⟩ := take_takes h p escape hq a
    unfold deliver
    split
    · rename_i a' heq
      rw [heq] at htakes
      exact .cons htakes (.refl _ _)
    · rename_i a' heq
      rw [heq] at htakes hlets
      exact .cons htakes (ih ⟨hq, hlets rfl⟩)

end Taking

namespace Lowering

variable {h : Hierarchy} {s t : Lowering} {Q : Pending → Escape → Prop}

/-- Ways out are taken in by statements around. -/
theorem taken_sentAll {escapes : List (Pending × Escape)} (hq : ∀ e ∈ escapes, Q e.1 e.2) :
    Taken Q s.scopes (s.sentAll h escapes).scopes :=
  sentAll_induction h s escapes (motive := fun t => Taken Q s.scopes t.scopes) (.refl Q _)
    fun _ e he ht => ht.trans (taken_deliver h e.1 e.2 (hq e he) _)

/-- A statement is left: what it has taken in, and what came to the outer ones. -/
theorem taken_leave {scope : Scope} (ht : Taken Q (scope :: s.scopes) t.scopes) :
    scope.Takes Q t.innermost ∧
      Taken (fun p escape => Q p escape ∧ scope.LetsThrough escape) s.scopes t.left.scopes := by
  rw [innermost, left_scopes]
  generalize t.scopes = scopes at ht
  cases ht with
  | cons h₁ h₂ => exact ⟨h₁, h₂⟩

end Lowering

end Slicing
