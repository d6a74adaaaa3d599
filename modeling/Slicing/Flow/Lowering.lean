import Slicing.Flow.Graph
import Slicing.Hierarchy

/-!
# From statements to flow graphs

The body of a callable becomes a flow graph statement by statement. At any time
there is a *frontier* of arcs that wait for their target; the next node that is
placed takes all of them and becomes the new frontier. Where the frontier is
empty nothing can run, and statements are only recorded as unreachable.

* The nodes of a callable are `entry → formal-in* → body → formal-out* → exit`.
* A call is `actual-in* → call → actual-out*`, in front of the node that
  evaluates it; the calls in an argument come in front of its actual-in.
* A jump or a raised exception is routed through the loops, `switch` and `try`
  statements around it (`Scope`): to the place that takes it in, or to the end of
  the callable.
* A `finally` block takes in whatever leaves its `try`, and what comes out at its
  end goes on to where it was headed.

Nodes are numbered when they are made, which for one that evaluates calls is
before the nodes of these calls are placed.
-/

namespace Slicing

/-- An arc that waits for its target. -/
structure Pending where
  source : NodeId
  edge : FlowEdge
  deriving DecidableEq, Repr

/-- An arc without a label. -/
def Pending.plain (source : NodeId) (kind : FlowKind) : Pending := ⟨source, ⟨kind, none⟩⟩

/-- A way out of a statement other than its end. -/
inductive Escape where
  | breakJump
  | continueJump
  | returnJump
  | throwJump (exceptionType : String)
  deriving DecidableEq, Repr

/-- The arc of a way out. -/
def Escape.edge : Escape → FlowEdge
  | .throwJump exceptionType => ⟨.exceptional, some exceptionType⟩
  | _ => ⟨.unconditional, none⟩

/-- A catch clause, with the arcs that lead to it. -/
structure Handler where
  exceptionType : Option String
  incoming : List Pending

/-- A statement around the current one, with the arcs that it took in. -/
inductive Scope where
  | loop (breaks continues : List Pending)
  | select (breaks : List Pending)
  /-- A `try`. Its handlers are empty while its catch clauses are lowered, as
      they do not handle what is raised in them. What leaves it has to run its
      `finally` block first, if it has one. -/
  | tryBlock (handlers : List Handler) (hasFinalizer : Bool) (escapes : List (Pending × Escape))

namespace Scope

/-- The arcs that leave a loop or `switch` by a break. -/
def breaks : Scope → List Pending
  | .loop breaks _ => breaks
  | .select breaks => breaks
  | .tryBlock .. => []

/-- The arcs that go on to the next round of a loop. -/
def continues : Scope → List Pending
  | .loop _ continues => continues
  | _ => []

/-- The handlers of a `try`. -/
def handlers : Scope → List Handler
  | .tryBlock handlers _ _ => handlers
  | _ => []

/-- What waits for the `finally` block of a `try`. -/
def escapes : Scope → List (Pending × Escape)
  | .tryBlock _ _ escapes => escapes
  | _ => []

/-- A `try` whose catch clauses are being lowered. -/
def withoutHandlers : Scope → Scope
  | .tryBlock _ hasFinalizer escapes => .tryBlock [] hasFinalizer escapes
  | scope => scope

end Scope

/-- An exception is offered to handlers in order. The result tells whether one of
    them takes it for certain; the ones after that are not asked. -/
def offer (h : Hierarchy) (exceptionType : String) (pending : Pending) :
    List Handler → List Handler × Bool
  | [] => ([], false)
  | handler :: rest =>
    match h.exceptionMatch exceptionType handler.exceptionType with
    | .definite => ({ handler with incoming := handler.incoming ++ [pending] } :: rest, true)
    | .possible =>
      let (rest, taken) := offer h exceptionType pending rest
      ({ handler with incoming := handler.incoming ++ [pending] } :: rest, taken)
    | .never =>
      let (rest, taken) := offer h exceptionType pending rest
      (handler :: rest, taken)

/-- A way out is offered to the statement around it. The result tells whether it
    ends there. -/
def Scope.take (h : Hierarchy) (pending : Pending) (escape : Escape) : Scope → Scope × Bool
  | .loop breaks continues =>
    match escape with
    | .breakJump => (.loop (breaks ++ [pending]) continues, true)
    | .continueJump => (.loop breaks (continues ++ [pending]), true)
    | _ => (.loop breaks continues, false)
  | .select breaks =>
    match escape with
    | .breakJump => (.select (breaks ++ [pending]), true)
    | _ => (.select breaks, false)
  | .tryBlock handlers hasFinalizer escapes =>
    let (handlers, taken) := match escape with
      | .throwJump exceptionType => offer h exceptionType pending handlers
      | _ => (handlers, false)
    if taken then (.tryBlock handlers hasFinalizer escapes, true)
    else if hasFinalizer then
      (.tryBlock handlers hasFinalizer (escapes ++ [(pending, escape)]), true)
    else (.tryBlock handlers hasFinalizer escapes, false)

/-- A way out is offered to the statements around it, the innermost first. The
    result tells whether it ends at one of them. -/
def deliver (h : Hierarchy) (pending : Pending) (escape : Escape) :
    List Scope → List Scope × Bool
  | [] => ([], false)
  | scope :: outer =>
    match scope.take h pending escape with
    | (scope, true) => (scope :: outer, true)
    | (scope, false) =>
      let (outer, taken) := deliver h pending escape outer
      (scope :: outer, taken)

/-- The state of lowering a callable. -/
structure Lowering where
  /-- The number of the next node. -/
  nextId : Nat
  graph : FlowGraph
  /-- The frontier. -/
  pending : List Pending
  /-- The statements around the current one, the innermost first. -/
  scopes : List Scope := []
  /-- The arcs that lead out of the callable. -/
  returns : List Pending := []
  /-- The heads of loops without a condition that no break leaves. -/
  loopHeads : List NodeId := []

/-- A step of lowering a callable. A step that fails still counts the nodes that
    it made. -/
abbrev Lower := EStateM Error Lowering

namespace Lowering

/-! ## Nodes -/

/-- Changes the graph. -/
def modifyGraph (f : FlowGraph → FlowGraph) : Lower Unit :=
  modify fun s => { s with graph := f s.graph }

/-- Replaces the frontier. -/
def setPending (pending : List Pending) : Lower Unit :=
  modify fun s => { s with pending }

/-- Adds arcs to the frontier. -/
def addPending (pending : List Pending) : Lower Unit :=
  modify fun s => { s with pending := s.pending ++ pending }

/-- Takes the frontier, and leaves none. -/
def takePending : Lower (List Pending) := do
  let s ← get
  setPending []
  return s.pending

/-- A node with the next number. -/
def newNode (kind : NodeKind) (text : String) : Lower Node := do
  let s ← get
  set { s with nextId := s.nextId + 1 }
  return { id := ⟨s.nextId⟩, callable := s.graph.callable, kind, text }

/-- A node for a statement. -/
def newStmtNode (kind : NodeKind) (source : Element) : Lower Node := do
  let node ← newNode kind source.text
  return { node with element := some source.id, span := source.span }

/-- Places a node: the frontier leads to it, and it becomes the frontier. -/
def place (node : Node) : Lower NodeId := do
  modify fun s =>
    { s with
      graph := s.pending.foldl (fun g p => g.addArc p.source node.id p.edge) (s.graph.addNode node)
      pending := [.plain node.id .unconditional] }
  return node.id

/-- Arcs back to the head of a loop. -/
def closeLoop (head : NodeId) (tails : List Pending) : Lower Unit :=
  modifyGraph fun g => tails.foldl (fun g p =>
    g.addArc p.source head (if p.edge.kind = .unconditional then ⟨.loopBack, none⟩ else p.edge)) g

/-- Records a statement, case or clause that nothing leads to. -/
def skip (element : ElementId) : Lower Unit :=
  modifyGraph fun g => { g with unreachable := g.unreachable ++ [element] }

/-! ## Ways out -/

/-- Sends a way out to where it leads. -/
def route (h : Hierarchy) (pending : Pending) (escape : Escape) : Lower Unit := do
  let s ← get
  match deliver h pending escape s.scopes, escape with
  | (scopes, true), _ => set { s with scopes }
  | (_, false), .breakJump =>
    throw (.structural s.graph.callable (.misplacedJump .breakJump pending.source))
  | (_, false), .continueJump =>
    throw (.structural s.graph.callable (.misplacedJump .continueJump pending.source))
  | (scopes, false), _ => set { s with scopes, returns := s.returns ++ [pending] }

/-- Sends several ways out to where they lead. -/
def routeAll (h : Hierarchy) : List (Pending × Escape) → Lower Unit
  | [] => return
  | (pending, escape) :: rest => do
    route h pending escape
    routeAll h rest

/-- A node may raise exceptions. -/
def raiseAll (h : Hierarchy) (node : NodeId) (exceptionTypes : List String) : Lower Unit :=
  routeAll h (exceptionTypes.map fun exceptionType =>
    (⟨node, (Escape.throwJump exceptionType).edge⟩, .throwJump exceptionType))

/-- Control leaves a node only by a way out. -/
def jump (h : Hierarchy) (node : NodeId) (escape : Escape) : Lower Unit := do
  setPending []
  route h ⟨node, escape.edge⟩ escape

/-- Enters a statement that takes in ways out. -/
def pushScope (scope : Scope) : Lower Unit :=
  modify fun s => { s with scopes := scope :: s.scopes }

/-- Leaves the innermost statement that takes in ways out. -/
def popScope : Lower Scope := do
  let s ← get
  match s.scopes with
  | scope :: scopes =>
    set { s with scopes }
    return scope
  | [] => return .select []

/-! ## Calls -/

/-- Places the node for a value that comes back from a call. -/
def placeActualOut (site : CallSite) (slot : OutputSlot) (var : String) :
    Lower (OutputSlot × NodeId) := do
  let node ← newNode (.actualOut site.id slot) (var ++ " <- " ++ site.text)
  return (slot, ← place { node with defs := [var] })

/-- Places the nodes for the arguments that a call may write. -/
def placeWrittenArgs (site : CallSite) (passing : List Passing) (position : Nat) :
    List (Argument CallSite) → Lower (List (OutputSlot × NodeId))
  | [] => return []
  | arg :: args => do
    match arg.var, passing[position]? with
    | some var, some .byReference =>
      let out ← placeActualOut site (.param position) var
      return out :: (← placeWrittenArgs site passing (position + 1) args)
    | _, _ => placeWrittenArgs site passing (position + 1) args

/-- Places the node for the result of a call, if it is used. -/
def placeResult (site : CallSite) : Lower (List (OutputSlot × NodeId)) := do
  if site.resultUsed then return [← placeActualOut site .result (resultVar site.id)]
  else return []

/-- Places the nodes of a call behind its arguments, and records it. -/
def placeCall (h : Hierarchy) (site : CallSite) (actualIns : List NodeId) : Lower Unit := do
  let callNode ← place (← newNode (.call site.id) site.text)
  raiseAll h callNode site.throws
  let results ← placeResult site
  let passing := match site.declaredTarget?.bind h.callable? with
    | some decl => decl.passing
    | none => []
  let written ← placeWrittenArgs site passing 0 site.args
  modifyGraph fun g =>
    { g with callSites := g.callSites ++ [⟨site, callNode, actualIns, results ++ written⟩] }

/-- The variables that hold the results of some calls. -/
def resultVars (calls : List CallSite) : List String :=
  (calls.filter (·.resultUsed)).map fun site => resultVar site.id

mutual

/-- Lowers a call. -/
def lowerCall (h : Hierarchy) : CallSite → Lower Unit
  | ⟨id, text, target, dispatch, args, resultUsed, throws⟩ => do
    let actualIns ← lowerArgs h id 0 args
    placeCall h ⟨id, text, target, dispatch, args, resultUsed, throws⟩ actualIns

/-- Lowers the arguments of a call from a position on. -/
def lowerArgs (h : Hierarchy) (site : CallSiteId) (position : Nat) :
    List (Argument CallSite) → Lower (List NodeId)
  | [] => return []
  | ⟨text, uses, calls, _⟩ :: args => do
    let node ← newNode (.actualIn site position) text
    lowerCalls h calls
    let id ← place { node with uses := uses ++ resultVars calls, calls := calls.map (·.id) }
    return id :: (← lowerArgs h site (position + 1) args)

/-- Lowers calls in order. -/
def lowerCalls (h : Hierarchy) : List CallSite → Lower Unit
  | [] => return
  | site :: sites => do
    lowerCall h site
    lowerCalls h sites

end

/-- Places a node behind the calls it evaluates. The results are the first node
    placed, where control enters, and the node itself. -/
def placeWith (h : Hierarchy) (node : Node) (effects : Effects) : Lower (NodeId × NodeId) := do
  let first := (← get).graph.size
  lowerCalls h effects.calls
  let id ← place { node with
    defs := node.defs ++ effects.defs
    uses := node.uses ++ effects.uses ++ resultVars effects.calls
    calls := node.calls ++ effects.calls.map (·.id) }
  let head := (← get).graph.idAt first
  raiseAll h id effects.throws
  return (head, id)

/-! ## Loops -/

/-- Lowers the body of a loop from a node on, and leads its end back to the head.
    The update runs behind the body and behind a `continue`. The result are the
    arcs of the breaks, which are the frontier behind the loop. -/
def lowerLoop (node head : NodeId) (enter : FlowKind) (body update : Lower Unit) :
    Lower (List Pending) := do
  setPending [.plain node enter]
  pushScope (.loop [] [])
  body
  let scope ← popScope
  addPending scope.continues
  if !(← get).pending.isEmpty then update
  closeLoop head (← takePending)
  setPending scope.breaks
  return scope.breaks

/-- Lowers a loop with its condition in front. -/
def lowerHeadedLoop (h : Hierarchy) (header : Node) (cond : Effects) (body update : Lower Unit) :
    Lower Unit := do
  let (head, node) ← placeWith h header cond
  let _ ← lowerLoop node head .trueBranch body update
  addPending [.plain node .falseBranch]

/-- Lowers a loop without a condition, which ends only by a break. -/
def lowerEndlessLoop (source : Element) (body update : Lower Unit) : Lower Unit := do
  let head ← place (← newStmtNode .predicate source)
  let breaks ← lowerLoop head head .unconditional body update
  if breaks.isEmpty then modify fun s => { s with loopHeads := s.loopHeads ++ [head] }

/-- Lowers a loop with its condition behind the body. -/
def lowerFootedLoop (h : Hierarchy) (source : Element) (body : Lower Unit) (cond : Effects) :
    Lower Unit := do
  let first := (← get).graph.size
  pushScope (.loop [] [])
  body
  let scope ← popScope
  let placed := first < (← get).graph.size
  addPending scope.continues
  if (← get).pending.isEmpty then
    skip source.id
    setPending scope.breaks
  else
    let (condHead, node) ← placeWith h (← newStmtNode .predicate source) cond
    modifyGraph fun g =>
      g.addArc node (if placed then g.idAt first else condHead) ⟨.loopBack, none⟩
    setPending (.plain node .falseBranch :: scope.breaks)

/-! ## Exceptions -/

/-- The text of a catch clause. -/
def catchText (exceptionType : Option String) (var : String) : String :=
  match exceptionType with
  | some exceptionType => "catch (" ++ exceptionType ++ " " ++ var ++ ")"
  | none => "catch (" ++ var ++ ")"

/-- Lowers a `finally` block behind a `try` that was left at its end along some
    arcs, and otherwise along others. If the block has no nodes, the ways out
    lead on as if it were not there. -/
def lowerFinalizer (h : Hierarchy) (block : Lower Unit) (normal : List Pending)
    (escapes : List (Pending × Escape)) : Lower Unit := do
  let first := (← get).graph.size
  setPending (normal ++ escapes.map (·.1))
  block
  let s ← get
  if s.graph.size = first then
    setPending (s.pending.filter fun p => !(escapes.map (·.1)).contains p)
    routeAll h escapes
  else
    let tails := s.pending
    setPending (if normal.isEmpty then [] else tails)
    let kinds := (escapes.map (·.2)).eraseDups
    routeAll h <| kinds.flatMap fun escape => tails.map fun tail =>
      match escape with
      | .throwJump _ => (⟨tail.source, escape.edge⟩, escape)
      | _ => (tail, escape)

/-! ## Statements -/

/-- The text of a case label. -/
def caseText : Option String → String
  | some label => "case " ++ label ++ ":"
  | none => "default:"

mutual

/-- Lowers a statement. -/
def lowerStmt (h : Hierarchy) (stmt : Stmt) : Lower Unit := do
  if (← get).pending.isEmpty then skip stmt.source.id
  else match stmt with
    | .simple source effects =>
      let _ ← placeWith h (← newStmtNode .statement source) effects
    | .branch source cond thenBranch elseBranch =>
      let (_, node) ← placeWith h (← newStmtNode .predicate source) cond
      setPending [.plain node .trueBranch]
      lowerBlock h thenBranch
      let afterThen ← takePending
      setPending [.plain node .falseBranch]
      lowerBlock h elseBranch
      addPending afterThen
    | .whileLoop source cond body =>
      lowerHeadedLoop h (← newStmtNode .predicate source) cond (lowerBlock h body) (pure ())
    | .forEach source var iterable body =>
      let header ← newStmtNode .predicate source
      lowerHeadedLoop h { header with defs := [var] } iterable (lowerBlock h body) (pure ())
    | .doWhile source body cond => lowerFootedLoop h source (lowerBlock h body) cond
    | .forLoop source init cond update body =>
      lowerBlock h init
      if !(← get).pending.isEmpty then
        match cond with
        | some cond =>
          lowerHeadedLoop h (← newStmtNode .predicate source) cond (lowerBlock h body)
            (lowerBlock h update)
        | none => lowerEndlessLoop source (lowerBlock h body) (lowerBlock h update)
    | .select source selector cases =>
      let (_, node) ← placeWith h (← newStmtNode .predicate source) selector
      pushScope (.select [])
      lowerCases h source node [] cases
      let scope ← popScope
      addPending scope.breaks
      if cases.all (·.label.isSome) then
        addPending [⟨node, ⟨.falseBranch, some "default"⟩⟩]
    | .breakJump source =>
      let node ← place (← newStmtNode .breakJump source)
      jump h node .breakJump
    | .continueJump source =>
      let node ← place (← newStmtNode .continueJump source)
      jump h node .continueJump
    | .returnJump source none =>
      let node ← place (← newStmtNode .returnJump source)
      jump h node .returnJump
    | .returnJump source (some value) =>
      let node ← newStmtNode .returnJump source
      let (_, node) ← placeWith h { node with defs := [returnVar] } value
      jump h node .returnJump
    | .throwJump source exceptionType value =>
      let (_, node) ← placeWith h (← newStmtNode .throwJump source) value
      jump h node (.throwJump exceptionType)
    | .tryBlock _ body catches finalizer =>
      pushScope (.tryBlock (catches.map (⟨·.exceptionType, []⟩)) finalizer.isSome [])
      lowerBlock h body
      let afterBody ← takePending
      let scope ← popScope
      pushScope scope.withoutHandlers
      let afterCatches ← lowerCatches h scope.handlers catches
      let scope ← popScope
      match finalizer with
      | none => setPending (afterBody ++ afterCatches)
      | some block =>
        lowerFinalizer h (lowerBlock h block) (afterBody ++ afterCatches) scope.escapes
    | .block _ body => lowerBlock h body

/-- Lowers the statements of a block. -/
def lowerBlock (h : Hierarchy) : List Stmt → Lower Unit
  | [] => return
  | stmt :: stmts => do
    lowerStmt h stmt
    lowerBlock h stmts

/-- Lowers the cases of a `switch`, each of which is entered from the selector
    and from the end of the case before it. The frontier behind them is the end of
    the last one. -/
def lowerCases (h : Hierarchy) (source : Element) (selector : NodeId)
    (fallthrough : List Pending) : List (SwitchCase Stmt) → Lower Unit
  | [] => setPending fallthrough
  | ⟨id, label, body⟩ :: cases => do
    setPending (fallthrough ++ [⟨selector, ⟨.trueBranch, some (label.getD "default")⟩⟩])
    let node ← newNode .caseLabel (caseText label)
    let _ ← place { node with element := some id, span := source.span }
    lowerBlock h body
    lowerCases h source selector (← takePending) cases

/-- Lowers the catch clauses of a `try` that something leads to. The result are
    the arcs at their ends. -/
def lowerCatches (h : Hierarchy) (handlers : List Handler) :
    List (CatchClause Stmt) → Lower (List Pending)
  | [] => return []
  | ⟨id, exceptionType, var, body⟩ :: clauses => do
    match handlers with
    | [] => return []
    | handler :: handlers =>
      if handler.incoming.isEmpty then
        skip id
        lowerCatches h handlers clauses
      else
        setPending handler.incoming
        let node ← newNode .catchClause (catchText exceptionType var)
        let _ ← place { node with element := some id, defs := [var] }
        lowerBlock h body
        let after ← takePending
        return after ++ (← lowerCatches h handlers clauses)

end

/-! ## Callables -/

/-- Places the nodes of the parameters, from a position on. -/
def placeFormalIns (position : Nat) : List Param → Lower Unit
  | [] => return
  | param :: params => do
    let node ← newNode (.formalIn position) ("in " ++ param.name)
    let id ← place { node with defs := [param.name] }
    modifyGraph fun g => { g with formalIns := g.formalIns ++ [id] }
    placeFormalIns (position + 1) params

/-- Places the node of a value that leaves the callable. -/
def placeFormalOut (slot : OutputSlot) (text var : String) : Lower Unit := do
  let node ← newNode (.formalOut slot) text
  let id ← place { node with uses := [var] }
  modifyGraph fun g => { g with formalOuts := g.formalOuts ++ [(slot, id)] }

/-- Places the nodes of the parameters passed by reference, from a position on. -/
def placeWrittenParams (position : Nat) : List Param → Lower Unit
  | [] => return
  | param :: params => do
    if param.passing = .byReference then
      placeFormalOut (.param position) ("out " ++ param.name) param.name
    placeWrittenParams (position + 1) params

/-- Leads the frontier and whatever leaves the body through the formal-out nodes to
    the exit, and flags the endless loops from which the exit is not reached. -/
def finish (decl : CallableDecl) : Lower Unit := do
  addPending (← get).returns
  if decl.returnsValue then placeFormalOut .result "out return" returnVar
  placeWrittenParams 0 decl.params
  let tails ← takePending
  modifyGraph fun g => tails.foldl (fun g p => g.addArc p.source g.exit.id p.edge) g
  modifyGraph fun g =>
    match g.formalOuts with
    | (_, head) :: _ => g.setExitHead head
    | [] => g
  let s ← get
  let exiting := s.graph.reaching FlowGraph.exitPosition
  let endless := s.loopHeads.filter fun head =>
    match s.graph.position? head with
    | some position => !exiting.contains position
    | none => false
  modifyGraph fun g => { g with nonTerminating := endless }

/-- Lowers a callable with a body. -/
def lowerCallable (h : Hierarchy) (decl : CallableDecl) (body : List Stmt) : Lower Unit := do
  placeFormalIns 0 decl.params
  lowerBlock h body
  finish decl

end Lowering

namespace FlowGraph

/-- The entry and exit of a callable, with the next two numbers. -/
def ofDecl (decl : CallableDecl) (nextId : Nat) : FlowGraph where
  callable := decl.id
  entry := {
    id := ⟨nextId⟩, callable := decl.id, kind := .entry
    text := "enter " ++ decl.signature.label, span := decl.span }
  exit := {
    id := ⟨nextId + 1⟩, callable := decl.id, kind := .exit, text := "exit " ++ decl.name }

/-- The flow graph of a callable, whose nodes are numbered from a number on, and the
    number after those used. Without a body, control passes from the entry to the
    exit. -/
def build (h : Hierarchy) (decl : CallableDecl) (nextId : Nat) : Except Error FlowGraph × Nat :=
  let g := ofDecl decl nextId
  match decl.body with
  | none => (.ok (g.addArc g.entry.id g.exit.id ⟨.unconditional, none⟩), nextId + 2)
  | some body =>
    let start : Lowering :=
      { nextId := nextId + 2, graph := g, pending := [.plain g.entry.id .unconditional] }
    match (Lowering.lowerCallable h decl body).run start with
    | .ok _ s => (.ok s.graph, s.nextId)
    | .error e s => (.error e, s.nextId)

/-- The flow graphs of some callables, numbered one after another, and the number
    after those used. -/
def buildAll (h : Hierarchy) (decls : List CallableDecl) (nextId : Nat) :
    List (CallableDecl × Except Error FlowGraph) × Nat :=
  match decls with
  | [] => ([], nextId)
  | decl :: decls =>
    let (graph, nextId) := build h decl nextId
    let (graphs, nextId) := buildAll h decls nextId
    ((decl, graph) :: graphs, nextId)

end FlowGraph

end Slicing
