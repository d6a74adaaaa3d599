import Slicing.Flow.Lowering

/-!
# Structured execution

What it means to run the body of a callable, said on its statements alone. An
execution passes *points* (`Point`): a construct first passes the points of the calls
it evaluates, which are the actual-ins, the call and the actual-outs of each call, and
then its own. This is a straight line of steps (`Effects.steps`), and at each of them
the exceptions listed for the construct or call may be raised (`Evaluates`).

Statements run in order and choose freely: conditions go either way, a `switch` enters
any of its cases, an exception that a handler only may take is taken or passed on.
`Runs` relates what is run to the points that are passed and to how it ends
(`Ending`): at its end, by a way out, or not yet, so that endless executions are
there by what they have passed at any time.

The loops with their test in front are one form (`Stmt.loop?`), and so are the
statements that only ever end by a way out (`Stmt.jump?`).
-/

namespace Slicing

/-! ## Points -/

/-- What an execution passes: a kind of node, and the source element it stands for. -/
structure Point where
  kind : NodeKind
  element : Option ElementId := none
  deriving DecidableEq, Repr

/-- The point that a node stands for. -/
def Node.point (node : Node) : Point := ⟨node.kind, node.element⟩

/-- A point that is passed, and the exceptions that may be raised there. -/
structure PointStep where
  point : Point
  throws : List String := []
  deriving DecidableEq, Repr

/-- How the parameters of the callable that a call names are passed. -/
def CallSite.passing (h : Hierarchy) (site : CallSite) : List Passing :=
  match site.declaredTarget?.bind h.callable? with
  | some decl => decl.passing
  | none => []

/-- The values that come back from a call: its result, if it is used, and the arguments
    from a position on that are variables passed by reference. -/
def writtenSlots (passing : List Passing) (position : Nat) :
    List (Argument CallSite) → List OutputSlot
  | [] => []
  | arg :: args =>
    match arg.var, passing[position]? with
    | some _, some .byReference => .param position :: writtenSlots passing (position + 1) args
    | _, _ => writtenSlots passing (position + 1) args

/-- The values that come back from a call. -/
def CallSite.outputs (h : Hierarchy) (site : CallSite) : List OutputSlot :=
  (if site.resultUsed then [.result] else []) ++ writtenSlots (site.passing h) 0 site.args

/-- The steps of a call behind its arguments. -/
def CallSite.ownSteps (h : Hierarchy) (site : CallSite) : List PointStep :=
  ⟨⟨.call site.id, none⟩, site.throws⟩ ::
    (site.outputs h).map fun slot => ⟨⟨.actualOut site.id slot, none⟩, []⟩

mutual

/-- The steps of a call: its arguments, the call, and what comes back. -/
def callSteps (h : Hierarchy) : CallSite → List PointStep
  | ⟨id, text, target, dispatch, args, resultUsed, throws⟩ =>
    argSteps h id 0 args ++
      CallSite.ownSteps h ⟨id, text, target, dispatch, args, resultUsed, throws⟩

/-- The steps of the arguments of a call from a position on, each behind the calls it
    evaluates. -/
def argSteps (h : Hierarchy) (site : CallSiteId) (position : Nat) :
    List (Argument CallSite) → List PointStep
  | [] => []
  | ⟨_, _, calls, _⟩ :: args =>
    callsSteps h calls ++ ⟨⟨.actualIn site position, none⟩, []⟩ ::
      argSteps h site (position + 1) args

/-- The steps of some calls in order. -/
def callsSteps (h : Hierarchy) : List CallSite → List PointStep
  | [] => []
  | site :: sites => callSteps h site ++ callsSteps h sites

end

/-- The steps of a construct: the calls it evaluates, and then its own point. -/
def Effects.steps (h : Hierarchy) (effects : Effects) (point : Point) : List PointStep :=
  callsSteps h effects.calls ++ [⟨point, effects.throws⟩]

/-! ## Forms of statements -/

/-- A loop with its test in front, or without one. -/
structure Loop where
  source : Element
  init : List Stmt
  /-- The variables that the test writes. -/
  vars : List String
  /-- The test; without one only a way out ends the loop. -/
  cond : Option Effects
  update : List Stmt
  body : List Stmt

namespace Loop

/-- The effects of the test. -/
def test (l : Loop) : Effects := l.cond.getD .none

/-- The point of the test. -/
def point (l : Loop) : Point := ⟨.predicate, some l.source.id⟩

end Loop

/-- The loops with their test in front. -/
def Stmt.loop? : Stmt → Option Loop
  | .whileLoop source cond body => some ⟨source, [], [], some cond, [], body⟩
  | .forEach source var iterable body => some ⟨source, [], [var], some iterable, [], body⟩
  | .forLoop source init cond update body => some ⟨source, init, [], cond, update, body⟩
  | _ => none

/-- A statement that ends by a way out. -/
structure Jump where
  source : Element
  kind : NodeKind
  escape : Escape
  /-- The variables that it writes. -/
  defs : List String
  value : Effects

/-- The statements that end by a way out. -/
def Stmt.jump? : Stmt → Option Jump
  | .breakJump source => some ⟨source, .breakJump, .breakJump, [], .none⟩
  | .continueJump source => some ⟨source, .continueJump, .continueJump, [], .none⟩
  | .returnJump source none => some ⟨source, .returnJump, .returnJump, [], .none⟩
  | .returnJump source (some value) =>
    some ⟨source, .returnJump, .returnJump, [returnVar], value⟩
  | .throwJump source exceptionType value =>
    some ⟨source, .throwJump, .throwJump exceptionType, [], value⟩
  | _ => none

/-! ## Executions -/

/-- How far an execution came. -/
inductive Ending where
  /-- To its end. -/
  | normal
  /-- To a way out. -/
  | abrupt (escape : Escape)
  /-- Not to an end so far. -/
  | unfinished
  deriving DecidableEq, Repr

namespace Ending

/-- The round of a loop is over, and the next one may begin. -/
def EndsRound (o : Ending) : Prop := o = .normal ∨ o = .abrupt .continueJump

/-- A round of a loop ends the execution of the loop as well, and not by a break. -/
def EndsLoop (o : Ending) : Prop := ¬o.EndsRound ∧ o ≠ .abrupt .breakJump

/-- What is left when a loop or `switch` has taken in its breaks. -/
def withoutBreak : Ending → Ending
  | .abrupt .breakJump => .normal
  | o => o

/-- How a `try` ends whose `finally` block has ended itself: the block's own way out
    replaces that of the `try`. -/
def resume (o : Ending) : Ending → Ending
  | .normal => o
  | block => block

/-- It ends by an exception. -/
def Raises (o : Ending) : Prop := ∃ exceptionType, o = .abrupt (.throwJump exceptionType)

end Ending

/-- Passing steps in order. -/
inductive Evaluates : List PointStep → List Point → Ending → Prop
  | finish : Evaluates [] [] .normal
  | pause (steps : List PointStep) : Evaluates steps [] .unfinished
  | next (step : PointStep) {steps : List PointStep} {τ : List Point} {o : Ending} :
      Evaluates steps τ o → Evaluates (step :: steps) (step.point :: τ) o
  | raise (step : PointStep) {steps : List PointStep} {exceptionType : String} :
      exceptionType ∈ step.throws →
        Evaluates (step :: steps) [step.point] (.abrupt (.throwJump exceptionType))

/-- A handler may take an exception: none before it takes it for certain. -/
def MayCatch (h : Hierarchy) (exceptionType : String) (catches : List (CatchClause Stmt))
    (clause : CatchClause Stmt) : Prop :=
  ∃ before after, catches = before ++ clause :: after ∧
    (∀ c ∈ before, h.exceptionMatch exceptionType c.exceptionType ≠ .definite) ∧
    h.exceptionMatch exceptionType clause.exceptionType ≠ .never

/-- All handlers may pass an exception on. -/
def MayPass (h : Hierarchy) (exceptionType : String) (catches : List (CatchClause Stmt)) : Prop :=
  ∀ c ∈ catches, h.exceptionMatch exceptionType c.exceptionType ≠ .definite

/-- What can be run. -/
inductive Code where
  | stmt (stmt : Stmt)
  | block (stmts : List Stmt)
  /-- A loop from its test on. -/
  | rounds (l : Loop)
  /-- The cases of a `switch` from one on. -/
  | cases (cases : List (SwitchCase Stmt))
  /-- A `try` up to its `finally` block. -/
  | guarded (body : List Stmt) (catches : List (CatchClause Stmt))

/-- The executions of statements, with the points they pass and their ends. -/
inductive Runs (h : Hierarchy) : Code → List Point → Ending → Prop
  | pause (c : Code) : Runs h c [] .unfinished
  | simple {source : Element} {effects : Effects} {τ : List Point} {o : Ending} :
      Evaluates (effects.steps h ⟨.statement, some source.id⟩) τ o →
        Runs h (.stmt (.simple source effects)) τ o
  | branchStops {source : Element} {cond : Effects} {thenBranch elseBranch : List Stmt}
      {τ : List Point} {o : Ending} :
      Evaluates (cond.steps h ⟨.predicate, some source.id⟩) τ o → o ≠ .normal →
        Runs h (.stmt (.branch source cond thenBranch elseBranch)) τ o
  | branchThen {source : Element} {cond : Effects} {thenBranch elseBranch : List Stmt}
      {τ τ' : List Point} {o : Ending} :
      Evaluates (cond.steps h ⟨.predicate, some source.id⟩) τ .normal →
        Runs h (.block thenBranch) τ' o →
        Runs h (.stmt (.branch source cond thenBranch elseBranch)) (τ ++ τ') o
  | branchElse {source : Element} {cond : Effects} {thenBranch elseBranch : List Stmt}
      {τ τ' : List Point} {o : Ending} :
      Evaluates (cond.steps h ⟨.predicate, some source.id⟩) τ .normal →
        Runs h (.block elseBranch) τ' o →
        Runs h (.stmt (.branch source cond thenBranch elseBranch)) (τ ++ τ') o
  | loopStops {stmt : Stmt} {l : Loop} {τ : List Point} {o : Ending} :
      stmt.loop? = some l → Runs h (.block l.init) τ o → o ≠ .normal → Runs h (.stmt stmt) τ o
  | loop {stmt : Stmt} {l : Loop} {τ τ' : List Point} {o : Ending} :
      stmt.loop? = some l → Runs h (.block l.init) τ .normal → Runs h (.rounds l) τ' o →
        Runs h (.stmt stmt) (τ ++ τ') o
  | testStops {l : Loop} {τ : List Point} {o : Ending} :
      Evaluates (l.test.steps h l.point) τ o → o ≠ .normal → Runs h (.rounds l) τ o
  | testFails {l : Loop} {τ : List Point} :
      l.cond.isSome → Evaluates (l.test.steps h l.point) τ .normal → Runs h (.rounds l) τ .normal
  | roundBreaks {l : Loop} {τ τ' : List Point} :
      Evaluates (l.test.steps h l.point) τ .normal →
        Runs h (.block l.body) τ' (.abrupt .breakJump) → Runs h (.rounds l) (τ ++ τ') .normal
  | roundStops {l : Loop} {τ τ' : List Point} {o : Ending} :
      Evaluates (l.test.steps h l.point) τ .normal → Runs h (.block l.body) τ' o → o.EndsLoop →
        Runs h (.rounds l) (τ ++ τ') o
  | updateStops {l : Loop} {τ τ' τ'' : List Point} {o o' : Ending} :
      Evaluates (l.test.steps h l.point) τ .normal → Runs h (.block l.body) τ' o →
        o.EndsRound → Runs h (.block l.update) τ'' o' → o' ≠ .normal →
        Runs h (.rounds l) (τ ++ τ' ++ τ'') o'
  | again {l : Loop} {τ τ' τ'' τ''' : List Point} {o o' : Ending} :
      Evaluates (l.test.steps h l.point) τ .normal → Runs h (.block l.body) τ' o →
        o.EndsRound → Runs h (.block l.update) τ'' .normal → Runs h (.rounds l) τ''' o' →
        Runs h (.rounds l) (τ ++ τ' ++ τ'' ++ τ''') o'
  | footBreaks {source : Element} {body : List Stmt} {cond : Effects} {τ : List Point} :
      Runs h (.block body) τ (.abrupt .breakJump) →
        Runs h (.stmt (.doWhile source body cond)) τ .normal
  | footStops {source : Element} {body : List Stmt} {cond : Effects} {τ : List Point}
      {o : Ending} :
      Runs h (.block body) τ o → o.EndsLoop → Runs h (.stmt (.doWhile source body cond)) τ o
  | footTest {source : Element} {body : List Stmt} {cond : Effects} {τ τ' : List Point}
      {o o' : Ending} :
      Runs h (.block body) τ o → o.EndsRound →
        Evaluates (cond.steps h ⟨.predicate, some source.id⟩) τ' o' →
        Runs h (.stmt (.doWhile source body cond)) (τ ++ τ') o'
  | footAgain {source : Element} {body : List Stmt} {cond : Effects} {τ τ' τ'' : List Point}
      {o o' : Ending} :
      Runs h (.block body) τ o → o.EndsRound →
        Evaluates (cond.steps h ⟨.predicate, some source.id⟩) τ' .normal →
        Runs h (.stmt (.doWhile source body cond)) τ'' o' →
        Runs h (.stmt (.doWhile source body cond)) (τ ++ τ' ++ τ'') o'
  | selectStops {source : Element} {selector : Effects} {cases : List (SwitchCase Stmt)}
      {τ : List Point} {o : Ending} :
      Evaluates (selector.steps h ⟨.predicate, some source.id⟩) τ o → o ≠ .normal →
        Runs h (.stmt (.select source selector cases)) τ o
  | selectSkips {source : Element} {selector : Effects} {cases : List (SwitchCase Stmt)}
      {τ : List Point} :
      Evaluates (selector.steps h ⟨.predicate, some source.id⟩) τ .normal →
        cases.all (·.label.isSome) → Runs h (.stmt (.select source selector cases)) τ .normal
  | selectEnters {source : Element} {selector : Effects} {before : List (SwitchCase Stmt)}
      {case : SwitchCase Stmt} {after : List (SwitchCase Stmt)} {τ τ' : List Point} {o : Ending} :
      Evaluates (selector.steps h ⟨.predicate, some source.id⟩) τ .normal →
        Runs h (.cases (case :: after)) τ' o →
        Runs h (.stmt (.select source selector (before ++ case :: after))) (τ ++ τ') o.withoutBreak
  | casesEnd : Runs h (.cases []) [] .normal
  | caseStops {case : SwitchCase Stmt} {after : List (SwitchCase Stmt)} {τ : List Point}
      {o : Ending} :
      Runs h (.block case.body) τ o → o ≠ .normal →
        Runs h (.cases (case :: after)) (⟨.caseLabel, some case.id⟩ :: τ) o
  | fallsThrough {case : SwitchCase Stmt} {after : List (SwitchCase Stmt)} {τ τ' : List Point}
      {o : Ending} :
      Runs h (.block case.body) τ .normal → Runs h (.cases after) τ' o →
        Runs h (.cases (case :: after)) (⟨.caseLabel, some case.id⟩ :: τ ++ τ') o
  | jumpStops {stmt : Stmt} {j : Jump} {τ : List Point} {o : Ending} :
      stmt.jump? = some j → Evaluates (j.value.steps h ⟨j.kind, some j.source.id⟩) τ o →
        o ≠ .normal → Runs h (.stmt stmt) τ o
  | jump {stmt : Stmt} {j : Jump} {τ : List Point} :
      stmt.jump? = some j → Evaluates (j.value.steps h ⟨j.kind, some j.source.id⟩) τ .normal →
        Runs h (.stmt stmt) τ (.abrupt j.escape)
  | guarded {body : List Stmt} {catches : List (CatchClause Stmt)} {τ : List Point} {o : Ending} :
      Runs h (.block body) τ o → ¬o.Raises → Runs h (.guarded body catches) τ o
  | passed {body : List Stmt} {catches : List (CatchClause Stmt)} {τ : List Point}
      {exceptionType : String} :
      Runs h (.block body) τ (.abrupt (.throwJump exceptionType)) →
        MayPass h exceptionType catches →
        Runs h (.guarded body catches) τ (.abrupt (.throwJump exceptionType))
  | caught {body : List Stmt} {catches : List (CatchClause Stmt)} {clause : CatchClause Stmt}
      {τ τ' : List Point} {exceptionType : String} {o : Ending} :
      Runs h (.block body) τ (.abrupt (.throwJump exceptionType)) →
        MayCatch h exceptionType catches clause → Runs h (.block clause.body) τ' o →
        Runs h (.guarded body catches) (τ ++ ⟨.catchClause, some clause.id⟩ :: τ') o
  | tryPlain {source : Element} {body : List Stmt} {catches : List (CatchClause Stmt)}
      {τ : List Point} {o : Ending} :
      Runs h (.guarded body catches) τ o → Runs h (.stmt (.tryBlock source body catches none)) τ o
  | tryStops {source : Element} {body : List Stmt} {catches : List (CatchClause Stmt)}
      {finalizer : List Stmt} {τ : List Point} :
      Runs h (.guarded body catches) τ .unfinished →
        Runs h (.stmt (.tryBlock source body catches (some finalizer))) τ .unfinished
  | tryFinally {source : Element} {body : List Stmt} {catches : List (CatchClause Stmt)}
      {finalizer : List Stmt} {τ τ' : List Point} {o o' : Ending} :
      Runs h (.guarded body catches) τ o → o ≠ .unfinished → Runs h (.block finalizer) τ' o' →
        Runs h (.stmt (.tryBlock source body catches (some finalizer))) (τ ++ τ') (o.resume o')
  | nested {source : Element} {body : List Stmt} {τ : List Point} {o : Ending} :
      Runs h (.block body) τ o → Runs h (.stmt (.block source body)) τ o
  | blockEnd : Runs h (.block []) [] .normal
  | blockStops {stmt : Stmt} {stmts : List Stmt} {τ : List Point} {o : Ending} :
      Runs h (.stmt stmt) τ o → o ≠ .normal → Runs h (.block (stmt :: stmts)) τ o
  | blockNext {stmt : Stmt} {stmts : List Stmt} {τ τ' : List Point} {o : Ending} :
      Runs h (.stmt stmt) τ .normal → Runs h (.block stmts) τ' o →
        Runs h (.block (stmt :: stmts)) (τ ++ τ') o

/-! ## Callables -/

namespace CallableDecl

/-- The points through which a callable is entered. -/
def opening (decl : CallableDecl) : List Point :=
  ⟨.entry, none⟩ :: (List.range decl.params.length).map fun position => ⟨.formalIn position, none⟩

/-- The values that leave a callable. -/
def outputs (decl : CallableDecl) : List OutputSlot :=
  (if decl.returnsValue then [.result] else []) ++
    ((List.range decl.params.length).filter decl.isByReference).map .param

/-- The points through which a callable is left. -/
def closing (decl : CallableDecl) : List Point :=
  decl.outputs.map (fun slot => ⟨.formalOut slot, none⟩) ++ [⟨.exit, none⟩]

end CallableDecl

/-- A callable is left once its body ends, returns or raises an exception. -/
inductive Ending.Leaves : Ending → Prop
  | normal : Leaves .normal
  | returned : Leaves (.abrupt .returnJump)
  | raised (exceptionType : String) : Leaves (.abrupt (.throwJump exceptionType))

/-- The executions of a callable with a body, and whether they have come to its exit. -/
inductive CallableDecl.Executes (h : Hierarchy) (decl : CallableDecl) : List Point → Bool → Prop
  | running {body : List Stmt} {τ : List Point} : decl.body = some body →
      Runs h (.block body) τ .unfinished → Executes h decl (decl.opening ++ τ) false
  | complete {body : List Stmt} {τ : List Point} {o : Ending} : decl.body = some body →
      Runs h (.block body) τ o → o.Leaves →
      Executes h decl (decl.opening ++ τ ++ decl.closing) true

end Slicing
