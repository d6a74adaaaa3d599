import Slicing.Config.Basic
import Slicing.Dependence.System

/-!
# Summary edges

A summary edge, from an actual-in to an actual-out of a call, says that what goes
in may influence what comes out, without following the call into its callees.

At an opaque call everything that goes in may influence everything that comes
out. At other calls this is a least fixed point: a formal-out of a callee *depends
through* a formal-in if it is reached from there by edges within the callee, the
summary edges of the calls that the callee makes among them, and then so do the
actual nodes at each call of the callee. The edges are found in rounds
(`SystemGraph.summaryRound`). A round looks at the callables that may have gained
an edge in the round before, all in the state in which the round found them, and
then adds what is new. The edges only grow in number, so that there is a last
round, which adds none; a limit on the rounds guards against long runs.
-/

namespace Slicing

namespace SystemGraph

/-! ## Adding edges -/

/-- Adds an edge behind the others, if both of its ends are nodes. -/
def addEdge (g : SystemGraph) (edge : DependenceEdge) : SystemGraph :=
  if joins g.nodes edge then { g with edges := g.edges ++ [edge] } else g

/-- A summary edge, and the callable whose call it summarises. -/
structure Proposal where
  caller : CallableId
  edge : DependenceEdge
  deriving DecidableEq, Repr

/-- A graph that edges are being added to. -/
structure Growth where
  graph : SystemGraph
  /-- The number of edges added. -/
  added : Nat := 0
  /-- The callables that gained an edge. -/
  grown : List CallableId := []

/-- Adds an edge, unless it is there. -/
def Growth.add (growth : Growth) (proposal : Proposal) : Growth :=
  if growth.graph.edges.contains proposal.edge then growth
  else ⟨growth.graph.addEdge proposal.edge, growth.added + 1, proposal.caller :: growth.grown⟩

/-- Adds the edges that are not there, one after another. -/
def addAll (g : SystemGraph) (proposals : List Proposal) : Growth :=
  proposals.foldl Growth.add { graph := g }

/-! ## Opaque calls -/

/-- An edge from everything that goes into a call to everything that comes out. -/
def allThrough (i : Invocation) : List Proposal :=
  i.actualIns.flatMap fun source =>
    i.actualOuts.map fun (_, target) => ⟨i.caller, source, target, .summary i.site⟩

/-- Adds the summary edges of the opaque calls. -/
def addOpaqueSummaries (g : SystemGraph) : Growth :=
  g.addAll ((g.invocations.filter (·.isOpaque)).flatMap allThrough)

/-! ## Calls of procedures -/

/-- The sources of the edges within a callable that lead to a node. -/
def localSources (g : SystemGraph) (id : NodeId) : List NodeId :=
  (g.edges.filter fun e => e.target == id && e.dependence.isIntraprocedural).map (·.source)

/-- The nodes that a node depends on within its callable. -/
def localClosure (g : SystemGraph) (id : NodeId) : List NodeId :=
  Digraph.reach ⟨g.nodeIds, g.localSources⟩ id

/-- What passes through a procedure: the positions of formal-ins with the slots of
    the formal-outs that depend on them. -/
def transmission (g : SystemGraph) (p : Procedure) : List (Nat × OutputSlot) :=
  p.formalOuts.flatMap fun (slot, formalOut) =>
    let reached := g.localClosure formalOut
    (p.formalIns.zipIdx.filter fun (formalIn, _) => reached.contains formalIn).map
      fun (_, position) => (position, slot)

/-- What passes through a procedure, as edges at a call of it. -/
def edgesAt (i : Invocation) (pairs : List (Nat × OutputSlot)) : List Proposal :=
  pairs.filterMap fun (position, slot) => do
    return ⟨i.caller, ← i.actualIns[position]?, ← i.actualOut? slot, .summary i.site⟩

/-- What passes through a callable, as edges at all calls of it. -/
def proposals (g : SystemGraph) (callee : CallableId) : List Proposal :=
  match g.procedure? callee with
  | none => []
  | some p =>
    match g.invocations.filter (·.targets.contains callee) with
    | [] => []
    | calls =>
      let pairs := g.transmission p
      calls.flatMap (edgesAt · pairs)

/-- One round: adds the edges for some callables. -/
def summaryRound (g : SystemGraph) (callables : List CallableId) : Growth :=
  g.addAll (callables.flatMap g.proposals)

/-- A graph after some rounds, and what the rounds did, unless they were too few. -/
structure SummaryRun where
  graph : SystemGraph
  outcome : Except Error SummaryTally

/-- Runs rounds until one adds nothing, starting with some callables. The tally is
    that of the rounds before, and the fuel the number of rounds still allowed. -/
def runRounds (limit : Nat) (g : SystemGraph) (callables : List CallableId) (tally : SummaryTally) :
    Nat → SummaryRun
  | 0 => ⟨g, .error (.nontermination limit)⟩
  | fuel + 1 =>
    let growth := g.summaryRound callables
    let tally :=
      { tally with rounds := tally.rounds + 1, edgesAdded := tally.edgesAdded + growth.added }
    if growth.added = 0 then ⟨growth.graph, .ok tally⟩
    else runRounds limit growth.graph (ascending Ident.rank growth.grown) tally fuel

/-- The callables with a body. -/
def definedCallables (g : SystemGraph) : List CallableId :=
  (g.procedures.filter (·.hasBody)).map (·.callable)

/-- Computes the summary edges of the calls of procedures in at most a number of
    rounds. The edges found stay also if the rounds are too few. -/
def computeSummaries (g : SystemGraph) (maxRounds : Nat) : SummaryRun :=
  g.runRounds maxRounds g.definedCallables {} maxRounds

/-! ## Dropping summary edges -/

/-- The summary edge of a call that is not opaque, which a computation finds again. -/
def isComputed (g : SystemGraph) (edge : DependenceEdge) : Bool :=
  match edge.dependence with
  | .summary site => !g.isOpaqueAt site
  | _ => false

/-- Drops members of a list, the last first. The last one left behind a member that is
    dropped takes its place. -/
def dropFilling {α : Type} (drop : α → Bool) : List α → List α
  | [] => []
  | a :: rest =>
    let rest := dropFilling drop rest
    if drop a then rest.getLast?.toList ++ rest.dropLast else a :: rest

/-- Drops the summary edges that a computation finds again. Those of opaque calls
    stay. -/
def clearSummaries (g : SystemGraph) : SystemGraph :=
  { g with
    edges := dropFilling g.isComputed g.edges
    tally := { opaqueEdges := g.tally.opaqueEdges } }

/-- Drops the summary edges that a computation finds again, and says how many edges are gone. -/
def dropSummaries (g : SystemGraph) : Nat × SystemGraph :=
  (g.edges.length - g.clearSummaries.edges.length, g.clearSummaries)

/-! ## Building -/

/-- The dependences of a program. The summary edges of opaque calls are always among
    them, others if they are asked for. -/
def build (config : SummaryConfig) (h : Hierarchy) (calls : CallGraph)
    (graphs : List ProcedureGraph) : Except Error SystemGraph := do
  let g ← (assemble h calls graphs).mapError .resolution
  let growth := g.addOpaqueSummaries
  if config.enabled then
    let run := growth.graph.computeSummaries config.maxRounds.toNat
    let tally ← run.outcome
    return { run.graph with tally := { tally with opaqueEdges := growth.added } }
  else
    return { growth.graph with tally := { opaqueEdges := growth.added } }

end SystemGraph

end Slicing
