import Slicing.Error
import Slicing.Dependence.System

/-!
# Slicing criteria

A criterion is the point of a program that a slice starts from, and perhaps a
variable there. The point is named by its node, by the source element it stands
for, or by the line it starts on; it must be exactly one node of the graph
(`SystemGraph.locate`).
-/

namespace Slicing

/-- Where a slice starts. -/
inductive Location where
  | node (id : NodeId)
  | element (id : ElementId)
  | line (number : UInt32)
  deriving DecidableEq, Repr

/-- Where a slice starts, and the variable it is about. -/
structure Criterion where
  location : Location
  var : Option String := none
  deriving DecidableEq, Repr

/-- A location as messages show it. -/
def Location.label : Location → String
  | .node id => "node " ++ id.label
  | .element id => "syntax " ++ id.label
  | .line number => "line " ++ toString number.toNat

/-- A location as a document holds it. -/
def Location.toJson : Location → Json
  | .node id => .obj [("kind", .str "node"), ("id", id.toJson)]
  | .element id => .obj [("kind", .str "syntax"), ("id", id.toJson)]
  | .line number => .obj [("kind", .str "line"), ("line", .nat number.toNat)]

/-- Reads a location. -/
def Location.decode : Json.Decoder Location :=
  Json.tagged .named "kind" [
    ("node", .node <$> .required "id" NodeId.decode),
    ("syntax", .element <$> .required "id" Ident.decode),
    ("line", .line <$> .required "line" Json.decodeUInt32)]

namespace Criterion

/-- A criterion as messages show it. -/
def label (c : Criterion) : String :=
  match c.var with
  | some var => c.location.label ++ " / " ++ var
  | none => c.location.label

/-- A criterion as a document holds it. -/
def toJson (c : Criterion) : Json :=
  .obj [("location", c.location.toJson), ("variable", .ofOption .str c.var)]

/-- Reads a criterion. -/
def decode : Json.Decoder Criterion :=
  Json.Record.decode <| Criterion.mk <$> .required "location" Location.decode
    <*> .optional "variable" Json.decodeString

end Criterion

namespace SystemGraph

/-- A node reads or writes a variable. -/
def concerns (g : SystemGraph) (var : String) (id : NodeId) : Bool :=
  match g.node? id with
  | some node => node.reads var || node.defines var
  | none => false

/-- The nodes that a line criterion may mean. If there are several, a variable tells
    them apart. -/
def candidatesOnLine (g : SystemGraph) (line : UInt32) (var : Option String) : List NodeId :=
  match g.nodesOnLine line, var with
  | a :: b :: rest, some var => (a :: b :: rest).filter (g.concerns var)
  | nodes, _ => nodes

/-- The one node that a criterion means. -/
def locate (g : SystemGraph) (c : Criterion) : Except CriterionError NodeId :=
  match c.location with
  | .node id => if g.contains id then .ok id else .error (.noNode id)
  | .element id =>
    match g.nodeForElement? id with
    | some node => .ok node
    | none => .error (.noElement id)
  | .line line =>
    match g.candidatesOnLine line c.var with
    | [] => .error (.emptyLine line)
    | [id] => .ok id
    | nodes => .error (.ambiguousLine line nodes.length)

end SystemGraph

end Slicing
