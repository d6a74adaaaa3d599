import Mathlib.Data.List.Flatten
import Slicing.Proofs.Flow.Segments

/-!
# The call sites of a callable

The calls of a callable are listed in the order of their evaluation (`CallableDecl.calls`),
those in the arguments of a call in front of it. Lowering records the call sites of a flow graph
in this order as well. It leaves out the calls of statements that nothing leads to, and records
no call twice (`FlowGraph.build_sites`).

So the call sites of a flow graph have different numbers if the calls of its callable have.
-/

namespace Slicing

/-! ## Calls -/

mutual

/-- The calls in a statement. -/
def Stmt.calls : Stmt → List CallSite
  | .simple _ effects => effects.allCalls
  | .branch _ cond thenBranch elseBranch =>
    cond.allCalls ++ (blockCalls thenBranch ++ blockCalls elseBranch)
  | .whileLoop _ cond body => cond.allCalls ++ blockCalls body
  | .doWhile _ body cond => blockCalls body ++ cond.allCalls
  | .forLoop _ init (some cond) update body =>
    blockCalls init ++ (cond.allCalls ++ (blockCalls body ++ blockCalls update))
  | .forLoop _ init none update body => blockCalls init ++ (blockCalls body ++ blockCalls update)
  | .forEach _ _ iterable body => iterable.allCalls ++ blockCalls body
  | .select _ selector cases => selector.allCalls ++ casesCalls cases
  | .breakJump _ | .continueJump _ | .returnJump _ none => []
  | .returnJump _ (some value) | .throwJump _ _ value => value.allCalls
  | .tryBlock _ body catches none => blockCalls body ++ catchesCalls catches
  | .tryBlock _ body catches (some finalizer) =>
    blockCalls body ++ (catchesCalls catches ++ blockCalls finalizer)
  | .block _ body => blockCalls body

/-- The calls in a block. -/
def blockCalls : List Stmt → List CallSite
  | [] => []
  | stmt :: stmts => stmt.calls ++ blockCalls stmts

/-- The calls in the cases of a `switch`. -/
def casesCalls : List (SwitchCase Stmt) → List CallSite
  | [] => []
  | ⟨_, _, body⟩ :: cases => blockCalls body ++ casesCalls cases

/-- The calls in the catch clauses of a `try`. -/
def catchesCalls : List (CatchClause Stmt) → List CallSite
  | [] => []
  | ⟨_, _, _, body⟩ :: clauses => blockCalls body ++ catchesCalls clauses

end

/-- The calls in the body of a callable. -/
def CallableDecl.calls (decl : CallableDecl) : List CallSite :=
  match decl.body with
  | none => []
  | some body => blockCalls body

/-- The calls in a program. -/
def Program.calls (program : Program) : List CallSite := program.callables.flatMap (·.calls)

/-! ## The calls of segments -/

mutual

/-- The calls of a statement are those of its segments, in the same order. -/
theorem Stmt.flatMap_segments (stmt : Stmt) : stmt.segments.flatMap (·.calls) = stmt.calls := by
  cases stmt with
  | breakJump | continueJump => rfl
  | returnJump _ value =>
    cases value with
    | none => rfl
    | some value => exact List.append_nil _
  | simple | throwJump => exact List.append_nil _
  | branch source cond thenBranch elseBranch =>
    rw [Stmt.segments, Stmt.calls, List.flatMap_cons, List.flatMap_append,
      flatMap_blockSegments thenBranch, flatMap_blockSegments elseBranch]
    rfl
  | whileLoop source cond body | forEach source var cond body =>
    rw [Stmt.segments, Stmt.calls, List.flatMap_cons, flatMap_blockSegments body]
    rfl
  | doWhile source body cond =>
    rw [Stmt.segments, Stmt.calls, List.flatMap_append, flatMap_blockSegments body]
    exact congrArg _ (List.append_nil _)
  | forLoop source init cond update body =>
    cases cond <;>
      rw [Stmt.segments, Stmt.calls, List.flatMap_append, List.flatMap_cons, List.flatMap_append,
        flatMap_blockSegments init, flatMap_blockSegments body, flatMap_blockSegments update] <;> rfl
  | select source selector cases =>
    rw [Stmt.segments, Stmt.calls, ← flatMap_casesSegments source cases]
    cases cases with
    | nil => rfl
    | cons c cases => rw [casesSegments, Segment.select, List.flatMap_cons, List.flatMap_cons]; rfl
  | tryBlock source body catches finalizer =>
    cases finalizer with
    | none =>
      rw [Stmt.segments, Stmt.calls, List.flatMap_append, flatMap_blockSegments body,
        flatMap_catchesSegments catches]
    | some finalizer =>
      rw [Stmt.segments, Stmt.calls, List.flatMap_append, List.flatMap_append, flatMap_blockSegments body,
        flatMap_catchesSegments catches, flatMap_blockSegments finalizer]
  | block source body => rw [Stmt.segments, Stmt.calls, flatMap_blockSegments body]

/-- The calls of a block are those of its segments. -/
theorem flatMap_blockSegments (stmts : List Stmt) :
    (blockSegments stmts).flatMap (·.calls) = blockCalls stmts := by
  match stmts with
  | [] => rfl
  | stmt :: stmts =>
    rw [blockSegments, blockCalls, List.flatMap_append, stmt.flatMap_segments, flatMap_blockSegments stmts]

/-- The calls of the cases of a `switch` are those of their segments. -/
theorem flatMap_casesSegments (source : Element) (cases : List (SwitchCase Stmt)) :
    (casesSegments source cases).flatMap (·.calls) = casesCalls cases := by
  match cases with
  | [] => rfl
  | ⟨id, label, body⟩ :: cases =>
    rw [casesSegments, casesCalls, List.flatMap_cons, List.flatMap_append, flatMap_blockSegments body,
      flatMap_casesSegments source cases]
    rfl

/-- The calls of catch clauses are those of their segments. -/
theorem flatMap_catchesSegments (clauses : List (CatchClause Stmt)) :
    (catchesSegments clauses).flatMap (·.calls) = catchesCalls clauses := by
  match clauses with
  | [] => rfl
  | ⟨id, exceptionType, var, body⟩ :: clauses =>
    rw [catchesSegments, catchesCalls, List.flatMap_cons, List.flatMap_append, flatMap_blockSegments body,
      flatMap_catchesSegments clauses]
    rfl

end

namespace FlowGraph

variable {h : Hierarchy} {decl : CallableDecl} {n : Nat} {g : FlowGraph}

/-- The call sites of a graph are calls of its callable, in their order and each at most once. -/
theorem build_sites (hg : (build h decl n).1 = .ok g) : (g.callSites.map (·.site)).Sublist decl.calls := by
  cases hbody : decl.body with
  | none => simp [(build_bodyless hbody hg).2]
  | some body =>
    obtain ⟨kept, hkept, -, hcalls⟩ := build_segments hbody hg
    change g.recorded.Sublist _
    rw [hcalls, CallableDecl.calls, hbody]
    change List.Sublist _ (blockCalls body)
    rw [← flatMap_blockSegments]
    exact hkept.flatMap _

end FlowGraph

end Slicing
