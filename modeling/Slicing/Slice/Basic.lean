import Slicing.Slice.Traversal

/-!
# Slices

A slice is the part of a program that may influence a criterion, or be influenced
by it; a chop is what lies between two criteria. Both are sets of nodes with all
the edges between them. A *query* (`Query`) asks for one, and `Query.answer` finds
it.
-/

namespace Slicing

/-- The answer to a query. -/
structure Slice where
  criterion : Criterion
  /-- The node that the criterion means. -/
  node : NodeId
  direction : Direction
  /-- In ascending order. -/
  nodes : List NodeId
  /-- The edges between the nodes, in the order of the graph. -/
  edges : List DependenceEdge
  /-- The source elements that the nodes stand for, in ascending order. -/
  points : List ElementId
  deriving DecidableEq, Repr

namespace Slice

/-- The slice of some nodes. -/
def ofNodes (g : SystemGraph) (criterion : Criterion) (node : NodeId) (direction : Direction)
    (found : List NodeId) : Slice where
  criterion
  node
  direction
  nodes := ascending NodeId.rank found
  edges := g.edges.filter fun e => found.contains e.source && found.contains e.target
  points := ascending Ident.rank <|
    (g.nodes.filter fun node => found.contains node.id).filterMap (·.element)

/-- A node is in a slice. -/
def contains (s : Slice) (id : NodeId) : Bool := s.nodes.contains id

/-- The JSON form of a slice, with the nodes as a graph shows them. -/
def toJson (s : Slice) (g : SystemGraph) : Json :=
  .obj [("criterion", s.criterion.toJson), ("direction", .str s.direction.word),
    ("nodes", .ofList (fun (node : Node) => .obj [("id", node.id.toJson),
      ("kind", .str node.kind.label), ("label", .str node.shortLabel),
      ("syntax", .ofOption Ident.toJson node.element),
      ("line", .ofOption (fun line => .nat line.toNat) node.line?),
      ("is_criterion", .bool (node.id == s.node))]) (s.nodes.filterMap g.node?)),
    ("edges", .ofList DependenceEdge.toJson s.edges)]

end Slice

/-- What can be asked. -/
inductive Query where
  | slice (criterion : Criterion) (direction : Direction) (includeControl : Bool)
  /-- What lies on the way from a source to a target. -/
  | chop (source target : Criterion)
  deriving DecidableEq, Repr

/-- A traversal as it is configured. -/
def SliceConfig.traversal (config : SliceConfig) (direction : Direction) (includeControl : Bool) :
    Traversal :=
  ⟨direction, config.strategy, includeControl, config.useSummaries⟩

namespace Query

/-- What may influence a criterion. -/
def backward (config : SliceConfig) (c : Criterion) : Query :=
  .slice c .backward config.includeControl

/-- What a criterion may influence. -/
def forward (config : SliceConfig) (c : Criterion) : Query :=
  .slice c .forward config.includeControl

/-- What may influence the values at a criterion, whatever decides that it runs. -/
def thin (c : Criterion) : Query := .slice c .backward false

/-- A slice in the configured direction. -/
def configured (config : SliceConfig) (c : Criterion) : Query :=
  .slice c config.direction config.includeControl

/-- Finds a slice. -/
def answerSlice (g : SystemGraph) (config : SliceConfig) (c : Criterion) (direction : Direction)
    (includeControl : Bool) : Except CriterionError Slice := do
  let node ← g.locate c
  let found ← (config.traversal direction includeControl).reach g c node
  return .ofNodes g c node direction found

/-- Finds a chop: what influences the target and is influenced by the source. -/
def answerChop (g : SystemGraph) (config : SliceConfig) (source target : Criterion) :
    Except CriterionError Slice := do
  let start ← g.locate source
  let finish ← g.locate target
  let before ← (config.traversal .backward config.includeControl).reach g target finish
  let after ← (config.traversal .forward config.includeControl).reach g source start
  return .ofNodes g target finish .backward (before.filter (after.contains ·))

/-- Finds what is asked for. -/
def answer (g : SystemGraph) (config : SliceConfig) : Query → Except CriterionError Slice
  | .slice c direction includeControl => answerSlice g config c direction includeControl
  | .chop source target => answerChop g config source target

end Query

end Slicing
