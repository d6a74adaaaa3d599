import Slicing.Proofs.Flow.Numbers

/-!
# The segments of a callable

What a callable evaluates comes in segments (`Segment`): a simple statement, the test of a branch or
a loop, a jump, a case label or a catch clause, each with the variables and calls of its own.
`blockSegments` lists them in the order in which they are lowered.

Each segment fixes what its nodes say (`Segment.drafts`): those of its calls, in the order of
evaluation, and behind them its own. Lowering a callable places the nodes of some of its segments one
after another, and records their calls; it leaves out those that nothing leads to
(`FlowGraph.build_segments`).
-/

namespace Slicing

/-! ## Calls -/

mutual

/-- The calls that a call takes: those in its arguments, and then the call itself. -/
def CallSite.calls : CallSite → List CallSite
  | ⟨id, text, target, dispatch, args, resultUsed, throws⟩ =>
    argCalls args ++ [⟨id, text, target, dispatch, args, resultUsed, throws⟩]

/-- The calls in some arguments. -/
def argCalls : List (Argument CallSite) → List CallSite
  | [] => []
  | ⟨_, _, calls, _⟩ :: args => allCalls calls ++ argCalls args

/-- The calls that some calls take. -/
def allCalls : List CallSite → List CallSite
  | [] => []
  | site :: sites => site.calls ++ allCalls sites

end

/-- The calls that a construct evaluates. -/
def Effects.allCalls (effects : Effects) : List CallSite := Slicing.allCalls effects.calls

/-! ## Drafts -/

/-- What a node says, apart from its number and its callable. -/
structure Draft where
  kind : NodeKind
  text : String
  element : Option ElementId := none
  span : Option Span := none
  defs : List String := []
  uses : List String := []
  calls : List CallSiteId := []

/-- What a node says. -/
def Node.draft (node : Node) : Draft :=
  ⟨node.kind, node.text, node.element, node.span, node.defs, node.uses, node.calls⟩

namespace CallSite

/-- The node for a value that comes back from a call. -/
def outDraft (site : CallSite) (slot : OutputSlot) (var : String) : Draft where
  kind := .actualOut site.id slot
  text := var ++ " <- " ++ site.text
  defs := [var]

/-- The node for the result of a call. -/
def resultDraft (site : CallSite) : Draft := site.outDraft .result (resultVar site.id)

/-- The nodes for the arguments from a position on that a call may write. -/
def writtenDrafts (site : CallSite) (passing : List Passing) (position : Nat) :
    List (Argument CallSite) → List Draft
  | [] => []
  | arg :: args =>
    match arg.var, passing[position]? with
    | some var, some .byReference =>
      site.outDraft (.param position) var :: writtenDrafts site passing (position + 1) args
    | _, _ => writtenDrafts site passing (position + 1) args

/-- The nodes for the values that come back from a call. -/
def outDrafts (h : Hierarchy) (site : CallSite) : List Draft :=
  (if site.resultUsed then [site.resultDraft] else []) ++ site.writtenDrafts (site.passing h) 0 site.args

/-- The nodes of a call behind those of its arguments. -/
def ownDrafts (h : Hierarchy) (site : CallSite) : List Draft :=
  { kind := .call site.id, text := site.text } :: site.outDrafts h

end CallSite

/-- The node of an argument of a call. -/
def Argument.draft (site : CallSiteId) (position : Nat) (arg : Argument CallSite) : Draft where
  kind := .actualIn site position
  text := arg.text
  uses := arg.uses ++ Lowering.resultVars arg.calls
  calls := arg.calls.map (·.id)

mutual

/-- The nodes of a call, those of its arguments in front. -/
def CallSite.drafts (h : Hierarchy) : CallSite → List Draft
  | ⟨id, text, target, dispatch, args, resultUsed, throws⟩ =>
    argDrafts h id 0 args ++ CallSite.ownDrafts h ⟨id, text, target, dispatch, args, resultUsed, throws⟩

/-- The nodes of the arguments of a call from a position on, each behind those of its calls. -/
def argDrafts (h : Hierarchy) (site : CallSiteId) (position : Nat) : List (Argument CallSite) → List Draft
  | [] => []
  | ⟨text, uses, calls, var⟩ :: args =>
    allDrafts h calls ++
      Argument.draft site position ⟨text, uses, calls, var⟩ :: argDrafts h site (position + 1) args

/-- The nodes of some calls. -/
def allDrafts (h : Hierarchy) : List CallSite → List Draft
  | [] => []
  | site :: sites => site.drafts h ++ allDrafts h sites

end

/-! ## Segments -/

/-- A node of the kind is made for a call. -/
def NodeKind.isOfCall : NodeKind → Bool
  | .call _ | .actualIn .. | .actualOut .. => true
  | _ => false

/-- A part of a callable with a node of its own, and what is evaluated for it. -/
structure Segment where
  kind : NodeKind
  text : String
  element : ElementId
  span : Option Span
  /-- What it writes itself. -/
  defs : List String := []
  /-- What it evaluates. -/
  effects : Effects := .none
  /-- The label of the first case of a `switch` by its element and text. It stands right behind the
      selector. -/
  label : Option (ElementId × String) := none
  /-- The own node is not one of a call. -/
  plain : kind.isOfCall = false := by rfl

namespace Segment

/-- The segment of a statement. -/
def ofStmt (kind : NodeKind) (source : Element) (effects : Effects)
    (plain : kind.isOfCall = false := by rfl) : Segment :=
  { kind, text := source.text, element := source.id, span := source.span, effects, plain }

/-- The own node of a segment. -/
def own (c : Segment) : Draft where
  kind := c.kind
  text := c.text
  element := some c.element
  span := c.span
  defs := c.defs ++ c.effects.defs
  uses := c.effects.uses ++ Lowering.resultVars c.effects.calls
  calls := c.effects.calls.map (·.id)

/-- The node of a case label behind a selector. It has the span of the `switch`. -/
def labelDraft (c : Segment) (label : ElementId × String) : Draft where
  kind := .caseLabel
  text := label.2
  element := some label.1
  span := c.span

/-- The nodes of a segment, those of its calls in front. -/
def drafts (h : Hierarchy) (c : Segment) : List Draft :=
  allDrafts h c.effects.calls ++ (c.own :: (c.label.map c.labelDraft).toList)

/-- The calls that a segment evaluates. -/
def calls (c : Segment) : List CallSite := c.effects.allCalls

/-- The selector of a `switch` in front of its cases. -/
def select (selector : Segment) : List Segment → List Segment
  | [] => [selector]
  | label :: cases => { selector with label := some (label.element, label.text) } :: cases

end Segment

mutual

/-- The segments of a statement. -/
def Stmt.segments : Stmt → List Segment
  | .simple source effects => [.ofStmt .statement source effects]
  | .branch source cond thenBranch elseBranch =>
    .ofStmt .predicate source cond :: (blockSegments thenBranch ++ blockSegments elseBranch)
  | .whileLoop source cond body => .ofStmt .predicate source cond :: blockSegments body
  | .doWhile source body cond => blockSegments body ++ [.ofStmt .predicate source cond]
  | .forLoop source init (some cond) update body =>
    blockSegments init ++ .ofStmt .predicate source cond :: (blockSegments body ++ blockSegments update)
  | .forLoop source init none update body =>
    blockSegments init ++ .ofStmt .predicate source .none :: (blockSegments body ++ blockSegments update)
  | .forEach source var iterable body =>
    { Segment.ofStmt .predicate source iterable with defs := [var] } :: blockSegments body
  | .select source selector cases =>
    (Segment.ofStmt .predicate source selector).select (casesSegments source cases)
  | .breakJump source => [.ofStmt .breakJump source .none]
  | .continueJump source => [.ofStmt .continueJump source .none]
  | .returnJump source none => [.ofStmt .returnJump source .none]
  | .returnJump source (some value) =>
    [{ Segment.ofStmt .returnJump source value with defs := [returnVar] }]
  | .throwJump source _ value => [.ofStmt .throwJump source value]
  | .tryBlock _ body catches none => blockSegments body ++ catchesSegments catches
  | .tryBlock _ body catches (some finalizer) =>
    blockSegments body ++ (catchesSegments catches ++ blockSegments finalizer)
  | .block _ body => blockSegments body

/-- The segments of a block. -/
def blockSegments : List Stmt → List Segment
  | [] => []
  | stmt :: stmts => stmt.segments ++ blockSegments stmts

/-- The segments of the cases of a `switch`. Their labels have the span of the `switch`. -/
def casesSegments (source : Element) : List (SwitchCase Stmt) → List Segment
  | [] => []
  | ⟨id, label, body⟩ :: cases =>
    { kind := .caseLabel, text := Lowering.caseText label, element := id, span := source.span } ::
      (blockSegments body ++ casesSegments source cases)

/-- The segments of the catch clauses of a `try`. -/
def catchesSegments : List (CatchClause Stmt) → List Segment
  | [] => []
  | ⟨id, exceptionType, var, body⟩ :: clauses =>
    { kind := .catchClause, text := Lowering.catchText exceptionType var, element := id, span := none,
      defs := [var] } :: (blockSegments body ++ catchesSegments clauses)

end

/-- The segment of a case of a `switch`. -/
def Segment.ofCase (source : Element) (c : SwitchCase Stmt) : Segment where
  kind := .caseLabel
  text := Lowering.caseText c.label
  element := c.id
  span := source.span

/-- The segment of a catch clause. -/
def Segment.ofClause (clause : CatchClause Stmt) : Segment where
  kind := .catchClause
  text := Lowering.catchText clause.exceptionType clause.var
  element := clause.id
  span := none
  defs := [clause.var]

/-- The segments of a statement without those of the statements in it. -/
def Stmt.ownSegments : Stmt → List Segment
  | .simple source effects => [.ofStmt .statement source effects]
  | .branch source cond _ _ | .whileLoop source cond _ | .doWhile source _ cond =>
    [.ofStmt .predicate source cond]
  | .forLoop source _ cond _ _ => [.ofStmt .predicate source (cond.getD .none)]
  | .forEach source var iterable _ => [{ Segment.ofStmt .predicate source iterable with defs := [var] }]
  | .select source selector cases =>
    (Segment.ofStmt .predicate source selector).select (cases.map (.ofCase source))
  | .breakJump source => [.ofStmt .breakJump source .none]
  | .continueJump source => [.ofStmt .continueJump source .none]
  | .returnJump source none => [.ofStmt .returnJump source .none]
  | .returnJump source (some value) =>
    [{ Segment.ofStmt .returnJump source value with defs := [returnVar] }]
  | .throwJump source _ value => [.ofStmt .throwJump source value]
  | .tryBlock _ _ catches _ => catches.map .ofClause
  | .block .. => []

/-! ## Parameters -/

/-- The node of a parameter. -/
def formalInDraft (position : Nat) (param : Param) : Draft where
  kind := .formalIn position
  text := "in " ++ param.name
  defs := [param.name]

/-- The nodes of the parameters from a position on. -/
def formalInDrafts (position : Nat) : List Param → List Draft
  | [] => []
  | param :: params => formalInDraft position param :: formalInDrafts (position + 1) params

/-- The node of a value that leaves a callable. -/
def formalOutDraft (slot : OutputSlot) (text var : String) : Draft where
  kind := .formalOut slot
  text := text
  uses := [var]

/-- The nodes of the parameters passed by reference, from a position on. -/
def writtenParamDrafts (position : Nat) : List Param → List Draft
  | [] => []
  | param :: params =>
    if param.passing = .byReference then
      formalOutDraft (.param position) ("out " ++ param.name) param.name ::
        writtenParamDrafts (position + 1) params
    else writtenParamDrafts (position + 1) params

namespace CallableDecl

/-- The entry and exit of a callable, and the nodes of its parameters. -/
def openingDrafts (decl : CallableDecl) : List Draft :=
  { kind := .entry, text := "enter " ++ decl.signature.label, span := decl.span } ::
    { kind := .exit, text := "exit " ++ decl.name } :: formalInDrafts 0 decl.params

/-- The nodes of the values that leave a callable. -/
def closingDrafts (decl : CallableDecl) : List Draft :=
  (if decl.returnsValue then [formalOutDraft .result "out return" returnVar] else []) ++
    writtenParamDrafts 0 decl.params

/-- The segments of a callable. -/
def segments (decl : CallableDecl) : List Segment := blockSegments (decl.body.getD [])

end CallableDecl

/-! ## What is placed -/

namespace FlowGraph

variable {g g' g'' : FlowGraph} {ds ds' : List Draft} {sites sites' : List CallSite}

/-- What the nodes of a graph say. -/
def drafts (g : FlowGraph) : List Draft := g.nodes.map (·.draft)

/-- The calls that a graph records. -/
def recorded (g : FlowGraph) : List CallSite := g.callSites.map (·.site)

/-- A graph has some more nodes than another, and records some more calls. -/
structure Adds (g g' : FlowGraph) (ds : List Draft) (sites : List CallSite) : Prop where
  drafts : g'.drafts = g.drafts ++ ds
  recorded : g'.recorded = g.recorded ++ sites

theorem Adds.refl (g : FlowGraph) : g.Adds g [] [] := ⟨by simp, by simp⟩

/-- With the same nodes and calls nothing is added. -/
theorem Adds.of_eq (hnodes : g'.nodes = g.nodes) (hcalls : g'.callSites = g.callSites) :
    g.Adds g' [] [] :=
  ⟨by simp [FlowGraph.drafts, hnodes], by simp [FlowGraph.recorded, hcalls]⟩

/-- What is added in two steps is added one behind the other. -/
theorem Adds.trans (ha : g.Adds g' ds sites) (hb : g'.Adds g'' ds' sites') :
    g.Adds g'' (ds ++ ds') (sites ++ sites') :=
  ⟨by rw [hb.drafts, ha.drafts, List.append_assoc], by rw [hb.recorded, ha.recorded, List.append_assoc]⟩

end FlowGraph

namespace Lowering

variable {h : Hierarchy} {α β : Type} {ds ds' : List Draft} {sites sites' : List CallSite}
  {c : Segment} {cs cs' : List Segment} {kind : NodeKind} {text : String}

/-- A step places some nodes and records some calls, and behind them those of segments from a
    list, in its order and each at most once. -/
def Places (h : Hierarchy) (m : Lower α) (ds : List Draft) (sites : List CallSite) (cs : List Segment) :
    Prop :=
  ∀ s a s', m s = .ok a s' → ∃ kept : List Segment, kept.Sublist cs ∧
    s.graph.Adds s'.graph (ds ++ kept.flatMap (·.drafts h)) (sites ++ kept.flatMap (·.calls))

/-- A step places no node and records no call. -/
def Still (m : Lower α) : Prop :=
  ∀ s a s', m s = .ok a s' → s'.graph.nodes = s.graph.nodes ∧ s'.graph.callSites = s.graph.callSites

namespace Still

/-- Steps that add nothing. -/
theorem bind {m : Lower α} {f : α → Lower β} (hm : Still m) (hf : ∀ a, Still (f a)) : Still (m >>= f) := by
  intro s b s' hrun
  obtain ⟨a, t, hfirst, hrest⟩ := bind_eq_ok.1 hrun
  obtain ⟨hnodes, hcalls⟩ := hm s a t hfirst
  obtain ⟨hnodes', hcalls'⟩ := hf a t b s' hrest
  exact ⟨hnodes'.trans hnodes, hcalls'.trans hcalls⟩

theorem pure (a : α) : Still (pure a : Lower α) := by
  intro s b s' hrun
  rw [(pure_eq_ok.1 hrun).2]
  exact ⟨rfl, rfl⟩

theorem ite {p : Prop} [Decidable p] {m m' : Lower α} (hm : Still m) (hm' : Still m') :
    Still (if p then m else m') := by
  split
  exacts [hm, hm']

theorem get : Still (get : Lower Lowering) := by
  intro s t s' hrun
  rw [(get_eq_ok.1 hrun).2]
  exact ⟨rfl, rfl⟩

/-- A change of the state that keeps the nodes and the call sites. -/
theorem modify {f : Lowering → Lowering} (hf : ∀ s, (f s).graph.nodes = s.graph.nodes ∧
    (f s).graph.callSites = s.graph.callSites) : Still (modify f : Lower PUnit) := by
  intro s u s' hrun
  rw [modify_eq_ok.1 hrun]
  exact hf s

/-- A change of the graph that keeps nodes and calls adds nothing. -/
theorem modifyGraph {f : FlowGraph → FlowGraph} (hf : ∀ g, (f g).nodes = g.nodes ∧
    (f g).callSites = g.callSites) : Still (modifyGraph f) :=
  .modify fun s => hf s.graph

theorem setPending (ps : List Pending) : Still (setPending ps) := .modify fun _ => ⟨rfl, rfl⟩

theorem addPending (ps : List Pending) : Still (addPending ps) := .modify fun _ => ⟨rfl, rfl⟩

theorem takePending : Still takePending := .bind .get fun _ => .bind (.setPending _) fun _ => .pure _

theorem pushScope (scope : Scope) : Still (pushScope scope) := .modify fun _ => ⟨rfl, rfl⟩

/-- Leaving a statement adds nothing. -/
theorem popScope : Still popScope := by
  intro s scope s' hrun
  rw [(popScope_eq_ok.1 hrun).2]
  exact ⟨rfl, rfl⟩

/-- Leading arcs back to the head of a loop adds nothing. -/
theorem closeLoop (head : NodeId) (tails : List Pending) : Still (closeLoop head tails) :=
  .modifyGraph fun g =>
    ⟨foldl_addArc_nodes g fun _ p => (p.source, head, backEdge p.edge),
      foldl_addArc_callSites g fun _ p => (p.source, head, backEdge p.edge)⟩

theorem skip (element : ElementId) : Still (skip element) := .modifyGraph fun _ => ⟨rfl, rfl⟩

/-- Sending ways out adds nothing. -/
theorem routeAll (h : Hierarchy) (escapes : List (Pending × Escape)) : Still (routeAll h escapes) := by
  intro s u s' hrun
  rw [routeAll_eq_ok hrun, sentAll_graph]
  exact ⟨rfl, rfl⟩

/-- Leaving by a jump adds nothing. -/
theorem jump (h : Hierarchy) (node : NodeId) (escape : Escape) : Still (jump h node escape) := by
  refine .bind (.setPending []) fun _ s u s' hrun => ?_
  rw [(route_eq_ok.1 hrun).2]
  exact ⟨rfl, rfl⟩

/-- All segments are left out. -/
theorem places {m : Lower α} (hm : Still m) (cs : List Segment) : Places h m [] [] cs :=
  fun s a s' hrun => ⟨[], List.nil_sublist _, by
    obtain ⟨hnodes, hcalls⟩ := hm s a s' hrun
    exact .of_eq hnodes hcalls⟩

end Still

namespace Places

/-- What is placed for certain comes first. -/
theorem first {m : Lower α} {f : α → Lower β} (hm : Places h m ds sites [])
    (hf : ∀ a, Places h (f a) ds' sites' cs) : Places h (m >>= f) (ds ++ ds') (sites ++ sites') cs := by
  intro s b s' hrun
  obtain ⟨a, t, hfirst, hrest⟩ := bind_eq_ok.1 hrun
  obtain ⟨none, hnone, hadds⟩ := hm s a t hfirst
  obtain ⟨kept, hkept, hadds'⟩ := hf a t b s' hrest
  obtain rfl := List.sublist_nil.1 hnone
  have hall := hadds.trans hadds'
  simp only [List.flatMap_nil, List.append_nil, ← List.append_assoc] at hall
  exact ⟨kept, hkept, hall⟩

/-- Segments are placed one after another. -/
theorem bind {m : Lower α} {f : α → Lower β} (hm : Places h m ds sites cs)
    (hf : ∀ a, Places h (f a) [] [] cs') : Places h (m >>= f) ds sites (cs ++ cs') := by
  intro s b s' hrun
  obtain ⟨a, t, hfirst, hrest⟩ := bind_eq_ok.1 hrun
  obtain ⟨kept, hkept, hadds⟩ := hm s a t hfirst
  obtain ⟨kept', hkept', hadds'⟩ := hf a t b s' hrest
  refine ⟨kept ++ kept', hkept.append hkept', ?_⟩
  have hall := hadds.trans hadds'
  simp only [List.nil_append, List.append_assoc, ← List.flatMap_append] at hall
  exact hall

/-- Segments behind what is placed for certain. -/
theorem followed {m : Lower α} {f : α → Lower β} (hm : Places h m ds sites [])
    (hf : ∀ a, Places h (f a) [] [] cs) : Places h (m >>= f) ds sites cs :=
  .bind hm hf

/-- A step that places nothing in front. -/
theorem after {m : Lower α} {f : α → Lower β} (hm : Still m) (hf : ∀ a, Places h (f a) ds sites cs) :
    Places h (m >>= f) ds sites cs :=
  .first (hm.places []) hf

/-- A step that places nothing behind. -/
theorem before {m : Lower α} {f : α → Lower β} (hm : Places h m ds sites cs) (hf : ∀ a, Still (f a)) :
    Places h (m >>= f) ds sites cs := by
  have hplaces := hm.bind fun a => (hf a).places []
  rwa [List.append_nil] at hplaces

/-- A segment that is placed for certain. -/
theorem keep {m : Lower α} (hm : Places h m (c.drafts h) c.calls cs) : Places h m [] [] (c :: cs) := by
  intro s a s' hrun
  obtain ⟨kept, hkept, hadds⟩ := hm s a s' hrun
  exact ⟨c :: kept, hkept.cons_cons c, hadds⟩

theorem ite {p : Prop} [Decidable p] {m m' : Lower α} (hm : Places h m ds sites cs)
    (hm' : Places h m' ds sites cs) : Places h (if p then m else m') ds sites cs := by
  split
  exacts [hm, hm']

/-- A new node only takes a number. -/
theorem newNode {f : Node → Lower β} (hf : ∀ s : Lowering, Places h (f (s.freshNode kind text)) ds sites cs) :
    Places h (newNode kind text >>= f) ds sites cs := by
  intro s b s' hrun
  obtain ⟨node, t, hnew, hrest⟩ := bind_eq_ok.1 hrun
  obtain ⟨rfl, rfl⟩ := newNode_eq_ok.1 hnew
  exact hf s s.numbered b s' hrest

/-- A new node for a statement only takes a number. -/
theorem newStmtNode {source : Element} {f : Node → Lower β}
    (hf : ∀ s : Lowering, Places h (f (s.stmtNode kind source)) ds sites cs) :
    Places h (newStmtNode kind source >>= f) ds sites cs := by
  intro s b s' hrun
  obtain ⟨node, t, hnew, hrest⟩ := bind_eq_ok.1 hrun
  obtain ⟨rfl, rfl⟩ := newStmtNode_eq_ok.1 hnew
  exact hf s s.numbered b s' hrest

/-- A node is placed. -/
theorem place (node : Node) : Places h (place node) [node.draft] [] [] := by
  intro s id s' hrun
  rw [(place_eq_ok.1 hrun).2]
  refine ⟨[], List.nil_sublist _, ?_, ?_⟩
  · simp [FlowGraph.drafts]
  · have hcalls : (s.placed node).graph.callSites = s.graph.callSites :=
      foldl_addArc_callSites (s.graph.addNode node) fun _ p => (p.source, node.id, p.edge)
    simp [FlowGraph.recorded, hcalls]

end Places

/-! ## Calls -/

/-- An actual-out is placed. -/
theorem placeActualOut_places (site : CallSite) (slot : OutputSlot) (var : String) :
    Places h (placeActualOut site slot var) [site.outDraft slot var] [] [] :=
  .newNode fun _ => .before (.place _) fun _ => .pure _

/-- The actual-out for the result is placed if the result is used. -/
theorem placeResult_places (site : CallSite) :
    Places h (placeResult site) (if site.resultUsed then [site.resultDraft] else []) [] [] := by
  rw [placeResult]
  split
  · exact .before (placeActualOut_places site .result (resultVar site.id)) fun _ => .pure _
  · exact (Still.pure _).places []

/-- The actual-outs for the arguments that a call may write are placed in order. -/
theorem placeWrittenArgs_places (site : CallSite) (passing : List Passing)
    (args : List (Argument CallSite)) (position : Nat) :
    Places h (placeWrittenArgs site passing position args) (site.writtenDrafts passing position args)
      [] [] := by
  induction args generalizing position with
  | nil => exact (Still.pure _).places []
  | cons arg args ih =>
    rw [placeWrittenArgs, CallSite.writtenDrafts]
    generalize arg.var = var, passing[position]? = mode
    match var, mode with
    | some var, some .byReference =>
      exact .first (placeActualOut_places _ _ _) fun _ => .before (ih _) fun _ => .pure _
    | none, _ => exact ih _
    | some _, none => exact ih _
    | some _, some .byValue => exact ih _

/-- A call is recorded when its own nodes are placed. -/
theorem placeCall_places (site : CallSite) (actualIns : List NodeId) :
    Places h (placeCall h site actualIns) (site.ownDrafts h) [site] [] := by
  have hrecord (callNode : NodeId) (outs : List (OutputSlot × NodeId)) : Places h
      (modifyGraph fun g => { g with callSites := g.callSites ++ [⟨site, callNode, actualIns, outs⟩] })
      [] [site] [] := by
    intro s u s' hrun
    rw [modifyGraph_eq_ok.1 hrun]
    exact ⟨[], List.nil_sublist _, List.append_nil _ |>.symm, List.map_append⟩
  have hwritten (callNode : NodeId) (results : List (OutputSlot × NodeId)) :=
    (placeWrittenArgs_places (h := h) site (site.passing h) site.args 0).first fun written =>
      hrecord callNode (results ++ written)
  have houts (callNode : NodeId) := (placeResult_places (h := h) site).first (hwritten callNode)
  rw [List.append_nil] at houts
  exact .newNode fun _ => .first (.place _) fun callNode => .after (.routeAll _ _) fun _ => houts callNode

mutual

/-- The nodes of a call are placed, those of its arguments first, and the calls are recorded. -/
theorem lowerCall_places (h : Hierarchy) (site : CallSite) :
    Places h (lowerCall h site) (site.drafts h) site.calls [] := by
  match site with
  | ⟨id, text, target, dispatch, args, resultUsed, throws⟩ =>
    exact .first (lowerArgs_places h id 0 args) fun _ => placeCall_places _ _

/-- The nodes of the arguments of a call are placed in order. -/
theorem lowerArgs_places (h : Hierarchy) (site : CallSiteId) (position : Nat)
    (args : List (Argument CallSite)) :
    Places h (lowerArgs h site position args) (argDrafts h site position args) (argCalls args) [] := by
  match args with
  | [] => exact (Still.pure _).places []
  | ⟨text, uses, calls, _⟩ :: args =>
    exact .newNode fun _ => .first (lowerCalls_places h calls) fun _ => .first (.place _) fun _ =>
      .before (lowerArgs_places h site (position + 1) args) fun _ => .pure _

/-- The nodes of some calls are placed in order. -/
theorem lowerCalls_places (h : Hierarchy) (sites : List CallSite) :
    Places h (lowerCalls h sites) (allDrafts h sites) (allCalls sites) [] := by
  match sites with
  | [] => exact (Still.pure _).places []
  | site :: sites => exact .first (lowerCall_places h site) fun _ => lowerCalls_places h sites

end

/-- A node behind the calls that it evaluates. -/
theorem placeWith_places (node : Node) (effects : Effects) :
    Places h (placeWith h node effects) (allDrafts h effects.calls ++ [Node.draft { node with
      defs := node.defs ++ effects.defs
      uses := node.uses ++ effects.uses ++ resultVars effects.calls
      calls := node.calls ++ effects.calls.map (·.id) }]) effects.allCalls [] := by
  rw [← List.append_nil effects.allCalls]
  exact .after .get fun _ => .first (lowerCalls_places h effects.calls) fun _ =>
    .before (.place _) fun _ => .bind .get fun _ => .bind (.routeAll _ _) fun _ => .pure _

/-! ## Statements -/

/-- The constructs of a loop behind its head are those of the body, and then of the update. -/
theorem lowerLoop_places (node head : NodeId) (enter : FlowKind) {body update : Lower Unit}
    (hbody : Places h body [] [] cs) (hupdate : Places h update [] [] cs') :
    Places h (lowerLoop node head enter body update) [] [] (cs ++ cs') := by
  refine .after (.setPending _) fun _ => .after (.pushScope _) fun _ => .bind hbody fun _ =>
    .after .popScope fun scope => .after (.addPending _) fun _ => .after .get fun _ => ?_
  have hclose : Still (do
      closeLoop head (← takePending)
      setPending scope.breaks
      pure scope.breaks) :=
    .bind .takePending fun _ => .bind (.closeLoop _ _) fun _ => .bind (.setPending _) fun _ => .pure _
  exact .ite (.before hupdate fun _ => hclose) (hclose.places _)

/-- A loop whose header is a segment. -/
theorem lowerHeadedLoop_places {header : Node} {cond : Effects} {body update : Lower Unit}
    (hheader : Places h (placeWith h header cond) (c.drafts h) c.calls [])
    (hbody : Places h body [] [] cs) (hupdate : Places h update [] [] cs') :
    Places h (lowerHeadedLoop h header cond body update) [] [] (c :: (cs ++ cs')) :=
  .keep (.followed hheader fun _ => .before (lowerLoop_places _ _ _ hbody hupdate) fun _ => .addPending _)

/-- The constructs of a loop without a test: its head, and those of the body and the update. -/
theorem lowerEndlessLoop_places (source : Element) {body update : Lower Unit}
    (hbody : Places h body [] [] cs) (hupdate : Places h update [] [] cs') :
    Places h (lowerEndlessLoop source body update) [] []
      (.ofStmt .predicate source .none :: (cs ++ cs')) :=
  .keep (.newStmtNode fun _ => .followed (.place _) fun _ =>
    .before (lowerLoop_places _ _ _ hbody hupdate) fun _ => .ite (.modify fun _ => ⟨rfl, rfl⟩) (.pure _))

/-- The constructs of a loop with its test at the end: those of the body, and then the test. -/
theorem lowerFootedLoop_places (source : Element) (cond : Effects) {body : Lower Unit}
    (hbody : Places h body [] [] cs) :
    Places h (lowerFootedLoop h source body cond) [] [] (cs ++ [.ofStmt .predicate source cond]) := by
  refine .after .get fun _ => .after (.pushScope _) fun _ => .bind hbody fun _ => .after .popScope fun _ =>
    .after .get fun _ => .after (.addPending _) fun _ => .after .get fun _ => .ite ?_ ?_
  · exact (Still.bind (.skip _) fun _ => .setPending _).places _
  · exact .keep (.newStmtNode fun _ => .before (placeWith_places _ _) fun _ =>
      .bind (.modifyGraph fun g => ⟨g.nodes_addArc _ _ _, g.callSites_addArc _ _ _⟩) fun _ =>
      .setPending _)

/-- The constructs of a `finally` block are those of its statements. -/
theorem lowerFinalizer_places {block : Lower Unit} (hblock : Places h block [] [] cs)
    (normal : List Pending) (escapes : List (Pending × Escape)) :
    Places h (lowerFinalizer h block normal escapes) [] [] cs :=
  .after .get fun _ => .after (.setPending _) fun _ => .before hblock fun _ => .bind .get fun _ =>
    .ite (.bind (.setPending _) fun _ => .routeAll _ _) (.bind (.setPending _) fun _ => .routeAll _ _)

/-- A step places segments from a list, the first of them for certain. -/
def Enters (h : Hierarchy) (m : Lower α) : List Segment → Prop
  | [] => Still m
  | c :: cs => Places h m (c.drafts h) c.calls cs

namespace Enters

/-- A step that enters constructs places their nodes. -/
theorem places {m : Lower α} (hm : Enters h m cs) : Places h m [] [] cs := by
  cases cs with
  | nil => exact Still.places hm _
  | cons c cs => exact .keep hm

/-- A step that adds nothing may come first. -/
theorem after {m : Lower α} {f : α → Lower β} (hm : Still m) (hf : ∀ a, Enters h (f a) cs) :
    Enters h (m >>= f) cs := by
  cases cs with
  | nil => exact hm.bind hf
  | cons c cs => exact .after hm hf

/-- A step that adds nothing may come last. -/
theorem before {m : Lower α} {f : α → Lower β} (hm : Enters h m cs) (hf : ∀ a, Still (f a)) :
    Enters h (m >>= f) cs := by
  cases cs with
  | nil => exact hm.bind hf
  | cons c cs => exact .before hm hf

/-- A selector with its cases, of which the first label stands right behind it. -/
theorem select {m : Lower α} {f : α → Lower β} (hlabel : c.label = none)
    (hm : Places h m (c.drafts h) c.calls []) (hf : ∀ a, Enters h (f a) cs)
    (hbare : ∀ label ∈ cs.head?,
      label.drafts h = [c.labelDraft (label.element, label.text)] ∧ label.calls = []) :
    Enters h (m >>= f) (c.select cs) := by
  cases cs with
  | nil => exact hm.before hf
  | cons label cases =>
    obtain ⟨hdrafts, hcalls⟩ := hbare label rfl
    have hplaces := hm.first hf
    rw [Segment.drafts, hlabel, hdrafts, hcalls, List.append_nil, List.append_assoc] at hplaces
    exact hplaces

end Enters

mutual

/-- Lowering a statement enters its constructs in order. -/
theorem lowerStmt_places (h : Hierarchy) (stmt : Stmt) : Places h (lowerStmt h stmt) [] [] stmt.segments := by
  rw [lowerStmt.eq_def]
  -- a statement that nothing leads to is left out with all that it encloses
  refine .after .get fun s => .ite ((Still.skip _).places _) ?_
  match stmt with
  | .simple source effects =>
    exact .keep (.newStmtNode fun _ => .before (placeWith_places _ _) fun _ => .pure _)
  | .branch source cond thenBranch elseBranch =>
    exact .keep (.newStmtNode fun _ => .followed (placeWith_places _ _) fun _ =>
      .after (.setPending _) fun _ => .bind (lowerBlock_places h thenBranch) fun _ =>
      .after .takePending fun _ => .after (.setPending _) fun _ =>
      .before (lowerBlock_places h elseBranch) fun _ => .addPending _)
  | .whileLoop source cond body | .forEach source _ cond body =>
    refine .newStmtNode fun _ => ?_
    rw [Stmt.segments, ← List.append_nil (blockSegments body)]
    exact lowerHeadedLoop_places (placeWith_places _ _) (lowerBlock_places h body) ((Still.pure _).places _)
  | .doWhile source body cond => exact lowerFootedLoop_places _ _ (lowerBlock_places h body)
  | .forLoop source init (some cond) update body =>
    refine .bind (lowerBlock_places h init) fun _ => .after .get fun _ => .ite ?_ ((Still.pure _).places _)
    exact .newStmtNode fun _ => lowerHeadedLoop_places (placeWith_places _ _)
      (lowerBlock_places h body) (lowerBlock_places h update)
  | .forLoop source init none update body =>
    refine .bind (lowerBlock_places h init) fun _ => .after .get fun _ => .ite ?_ ((Still.pure _).places _)
    exact lowerEndlessLoop_places _ (lowerBlock_places h body) (lowerBlock_places h update)
  | .select source selector cases =>
    refine .newStmtNode fun _ => (Enters.select rfl (placeWith_places _ _) (fun _ => ?_) ?_).places
    · exact .after (.pushScope _) fun _ => .before (lowerCases_enters h source _ [] cases) fun _ =>
        .bind .popScope fun _ => .bind (.addPending _) fun _ => .ite (.addPending _) (.pure _)
    · intro label hlabel
      cases cases with
      | nil => cases hlabel
      | cons c cases =>
        cases hlabel
        exact ⟨rfl, rfl⟩
  | .breakJump source | .continueJump source | .returnJump source none =>
    exact .keep (.newStmtNode fun _ => .before (.place _) fun _ => .jump _ _ _)
  | .returnJump source (some value) | .throwJump source exceptionType value =>
    exact .keep (.newStmtNode fun _ => .before (placeWith_places _ _) fun _ => .jump _ _ _)
  | .tryBlock source body catches none =>
    exact .after (.pushScope _) fun _ => .bind (lowerBlock_places h body) fun _ =>
      .after .takePending fun _ => .after .popScope fun _ => .after (.pushScope _) fun _ =>
      .before (lowerCatches_places h _ catches) fun _ => .bind .popScope fun _ => .setPending _
  | .tryBlock source body catches (some block) =>
    exact .after (.pushScope _) fun _ => .bind (lowerBlock_places h body) fun _ =>
      .after .takePending fun _ => .after .popScope fun _ => .after (.pushScope _) fun _ =>
      .bind (lowerCatches_places h _ catches) fun _ => .after .popScope fun _ =>
      lowerFinalizer_places (lowerBlock_places h block) _ _
  | .block source body => exact lowerBlock_places h body

/-- Lowering a block enters the constructs of its statements in order. -/
theorem lowerBlock_places (h : Hierarchy) (stmts : List Stmt) :
    Places h (lowerBlock h stmts) [] [] (blockSegments stmts) := by
  match stmts with
  | [] => exact (Still.pure _).places _
  | stmt :: stmts => exact .bind (lowerStmt_places h stmt) fun _ => lowerBlock_places h stmts

/-- Lowering the cases of a `switch` enters their constructs in order. -/
theorem lowerCases_enters (h : Hierarchy) (source : Element) (selector : NodeId)
    (fallthrough : List Pending) (cases : List (SwitchCase Stmt)) :
    Enters h (lowerCases h source selector fallthrough cases) (casesSegments source cases) := by
  match cases with
  | [] => exact Still.setPending _
  | ⟨id, label, body⟩ :: cases =>
    exact .after (.setPending _) fun _ => .newNode fun _ => .followed (.place _) fun _ =>
      .bind (lowerBlock_places h body) fun _ => .after .takePending fun _ =>
      (lowerCases_enters h source selector _ cases).places

/-- Lowering catch clauses enters their constructs in order. -/
theorem lowerCatches_places (h : Hierarchy) (handlers : List Handler)
    (clauses : List (CatchClause Stmt)) :
    Places h (lowerCatches h handlers clauses) [] [] (catchesSegments clauses) := by
  match clauses with
  | [] => exact (Still.pure _).places _
  | ⟨id, exceptionType, var, body⟩ :: clauses =>
    match handlers with
    | [] => exact (Still.pure _).places _
    | handler :: handlers =>
      refine .ite ?_ ?_
      · -- the clause is left out with all that it encloses
        have hrest := lowerCatches_places h handlers clauses
        exact .bind ((Still.skip _).places (_ :: blockSegments body)) fun _ => hrest
      · exact .keep (.after (.setPending _) fun _ => .newNode fun _ => .followed (.place _) fun _ =>
          .bind (lowerBlock_places h body) fun _ => .after .takePending fun _ =>
          .before (lowerCatches_places h handlers clauses) fun _ => .pure _)

end

/-! ## Callables -/

/-- The formal-ins are placed in order. -/
theorem placeFormalIns_places (params : List Param) (position : Nat) :
    Places h (placeFormalIns position params) (formalInDrafts position params) [] [] := by
  induction params generalizing position with
  | nil => exact (Still.pure _).places _
  | cons param params ih =>
    exact .newNode fun _ => .first (.place _) fun _ => .after (.modifyGraph fun _ => ⟨rfl, rfl⟩) fun _ => ih _

/-- A formal-out is placed. -/
theorem placeFormalOut_places (slot : OutputSlot) (text var : String) :
    Places h (placeFormalOut slot text var) [formalOutDraft slot text var] [] [] :=
  .newNode fun _ => .before (.place _) fun _ => .modifyGraph fun _ => ⟨rfl, rfl⟩

/-- The formal-outs for the parameters that are handed back are placed in order. -/
theorem placeWrittenParams_places (params : List Param) (position : Nat) :
    Places h (placeWrittenParams position params) (writtenParamDrafts position params) [] [] := by
  induction params generalizing position with
  | nil => exact (Still.pure _).places _
  | cons param params ih =>
    rw [placeWrittenParams, writtenParamDrafts]
    split
    · exact .first (placeFormalOut_places _ _ _) fun _ => ih _
    · exact ih _

/-- The formal-outs and the exit are placed when a callable is finished. -/
theorem finish_places (decl : CallableDecl) : Places h (finish decl) decl.closingDrafts [] [] := by
  have hleave : Places h (leave decl.params) (writtenParamDrafts 0 decl.params) [] [] := by
    refine .before (placeWrittenParams_places _ _) fun _ => .bind .takePending fun tails =>
      .bind (.modifyGraph fun g => ?_) fun _ => .bind (.modifyGraph fun g => ?_) fun _ =>
      .bind .get fun _ => .modifyGraph fun _ => ⟨rfl, rfl⟩
    · exact ⟨foldl_addArc_nodes g fun g p => (p.source, g.exit.id, p.edge),
        foldl_addArc_callSites g fun g p => (p.source, g.exit.id, p.edge)⟩
    · obtain ⟨q, hq⟩ := headed_eq g
      rw [hq]
      exact ⟨rfl, rfl⟩
  rw [finish_eq, CallableDecl.closingDrafts]
  refine .after .get fun _ => .after (.addPending _) fun _ => ?_
  split
  · exact .first (placeFormalOut_places _ _ _) fun _ => hleave
  · exact hleave

end Lowering

namespace FlowGraph

variable {h : Hierarchy} {decl : CallableDecl} {body : List Stmt} {n : Nat} {g : FlowGraph}

/-- The nodes of a graph are those of its parameters and of some of the segments of its callable,
    in their order and each at most once. Its call sites are the calls of these segments. -/
theorem build_segments (hbody : decl.body = some body) (hg : (build h decl n).1 = .ok g) :
    ∃ kept : List Segment, kept.Sublist (blockSegments body) ∧
      g.drafts = decl.openingDrafts ++ (kept.flatMap (·.drafts h) ++ decl.closingDrafts) ∧
      g.recorded = kept.flatMap (·.calls) := by
  rw [build_eq h hbody] at hg
  split at hg
  · rename_i s hrun
    cases hg
    obtain ⟨_, s₁, hins, hrest⟩ := Lowering.bind_eq_ok.1 hrun
    obtain ⟨_, s₂, hblock, hfinish⟩ := Lowering.bind_eq_ok.1 hrest
    obtain ⟨none, hnone, hadds₁⟩ := Lowering.placeFormalIns_places (h := h) _ _ _ _ _ hins
    obtain rfl := List.sublist_nil.1 hnone
    obtain ⟨kept, hkept, hadds₂⟩ := Lowering.lowerBlock_places h body _ _ _ hblock
    obtain ⟨none, hnone, hadds₃⟩ := Lowering.finish_places (h := h) decl _ _ _ hfinish
    obtain rfl := List.sublist_nil.1 hnone
    have hadds := (hadds₁.trans hadds₂).trans hadds₃
    refine ⟨kept, hkept, ?_, ?_⟩
    · rw [hadds.drafts]
      simp [CallableDecl.openingDrafts, Lowering.start, ofDecl, drafts, nodes, Node.draft]
    · rw [hadds.recorded]
      simp [Lowering.start, ofDecl, recorded]
  · cases hg

end FlowGraph

end Slicing
