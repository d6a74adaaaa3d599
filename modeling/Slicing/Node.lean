import Slicing.Ident
import Slicing.Span
import Slicing.Program.Encoding

/-!
# Nodes

The program points of a callable: where it is entered and left, its statements
and predicates, and the points at which values are handed over. A parameter
has a *formal-in* node in the callable, and what leaves the callable a
*formal-out* node; an argument of a call has an *actual-in* node in the caller,
and what comes back an *actual-out* node.

Two nodes are the same if they have the same number, whatever else they hold.
-/

namespace Slicing

/-- A value that leaves a callable. -/
inductive OutputSlot where
  /-- Its return value. -/
  | result
  /-- A parameter passed by reference. -/
  | param (position : Nat)
  deriving DecidableEq, Repr

namespace OutputSlot

/-- A slot as labels show it. -/
def label : OutputSlot → String
  | .result => "ret"
  | .param position => "arg" ++ toString position

/-- A slot as a document holds it. -/
def toJson : OutputSlot → Json
  | .result => .str "return"
  | .param position => .obj [("param", .nat position)]

/-- Reads a slot, which always stands inside a tagged value. -/
def decode : Json.Decoder OutputSlot
  | .str "return" | .obj [("return", .null)] | .obj [("return", .obj [])] => .ok .result
  | .obj [("param", position)] => OutputSlot.param <$> Json.decodeNat UInt64.size position
  | value => .error value.unexpected

end OutputSlot

/-- The kinds of nodes. -/
inductive NodeKind where
  | entry
  | exit
  | statement
  /-- The condition of a branch or a loop, or the selector of a `switch`. -/
  | predicate
  | caseLabel
  | catchClause
  | breakJump
  | continueJump
  | returnJump
  | throwJump
  | formalIn (position : Nat)
  | formalOut (slot : OutputSlot)
  | call (site : CallSiteId)
  | actualIn (site : CallSiteId) (position : Nat)
  | actualOut (site : CallSiteId) (slot : OutputSlot)
  deriving DecidableEq, Repr

namespace NodeKind

/-- A kind as labels show it. -/
def label : NodeKind → String
  | .entry => "entry"
  | .exit => "exit"
  | .statement => "statement"
  | .predicate => "predicate"
  | .caseLabel => "case"
  | .catchClause => "catch"
  | .breakJump => "break"
  | .continueJump => "continue"
  | .returnJump => "return"
  | .throwJump => "throw"
  | .formalIn _ => "formal_in"
  | .formalOut _ => "formal_out"
  | .call _ => "call"
  | .actualIn .. => "actual_in"
  | .actualOut .. => "actual_out"

/-- A node of the kind hands over a value. -/
def isParameter : NodeKind → Bool
  | .formalIn _ | .formalOut _ | .actualIn .. | .actualOut .. => true
  | _ => false

/-- A kind as a document holds it. -/
def toJson : NodeKind → Json
  | .caseLabel => .obj [("kind", .str "case_label")]
  | .formalIn position => .obj [("kind", .str "formal_in"), ("position", .nat position)]
  | .formalOut slot => .obj [("kind", .str "formal_out"), ("slot", slot.toJson)]
  | .call site => .obj [("kind", .str "call"), ("call_site", site.toJson)]
  | .actualIn site position =>
    .obj [("kind", .str "actual_in"), ("call_site", site.toJson), ("position", .nat position)]
  | .actualOut site slot =>
    .obj [("kind", .str "actual_out"), ("call_site", site.toJson), ("slot", slot.toJson)]
  | kind => .obj [("kind", .str kind.label)]

/-- Reads a kind. -/
def decode : Json.Decoder NodeKind :=
  Json.tagged .named "kind" [
    ("entry", pure .entry),
    ("exit", pure .exit),
    ("statement", pure .statement),
    ("predicate", pure .predicate),
    ("case_label", pure .caseLabel),
    ("catch", pure .catchClause),
    ("break", pure .breakJump),
    ("continue", pure .continueJump),
    ("return", pure .returnJump),
    ("throw", pure .throwJump),
    ("formal_in", .formalIn <$> position),
    ("formal_out", .formalOut <$> slot),
    ("call", .call <$> site),
    ("actual_in", .actualIn <$> site <*> position),
    ("actual_out", .actualOut <$> site <*> slot)]
where
  site : Json.Record CallSiteId := .required "call_site" Ident.decode
  position : Json.Record Nat := .required "position" (Json.decodeNat UInt64.size)
  slot : Json.Record OutputSlot := .required "slot" OutputSlot.decode

end NodeKind

/-- A program point of a callable. -/
structure Node where
  id : NodeId
  callable : CallableId
  kind : NodeKind
  text : String
  /-- The source element that the node stands for. -/
  element : Option ElementId := none
  span : Option Span := none
  /-- The variables it writes. -/
  defs : List String := []
  /-- The variables it reads. -/
  uses : List String := []
  /-- The call sites evaluated as part of it. -/
  calls : List CallSiteId := []
  deriving Repr

namespace Node

/-- A node writes a variable. -/
def defines (node : Node) (var : String) : Bool := node.defs.contains var

/-- A node reads a variable. -/
def reads (node : Node) (var : String) : Bool := node.uses.contains var

/-- A node is the call of a site or evaluates it. -/
def containsCall (node : Node) (site : CallSiteId) : Bool :=
  match node.kind with
  | .call other => other == site
  | _ => node.calls.contains site

/-- The number of characters of the text of a node that a short label shows. -/
def shortLabelLength : Nat := 32

/-- The text of a node, cut to a fixed length. -/
def shortLabel (node : Node) : String :=
  if node.text.length ≤ shortLabelLength then node.text
  else String.ofList (node.text.toList.take (shortLabelLength - 3)) ++ "..."

/-- The number, kind, text and source position of a node. -/
def longLabel (node : Node) : String :=
  node.id.label ++ " [" ++ node.kind.label ++ "] " ++ node.text ++
    match node.span with
    | some span => " @" ++ span.label
    | none => ""

/-- The source line on which a node starts. -/
def line? (node : Node) : Option UInt32 := node.span.map (·.startLine)

/-- A node as a document holds it. -/
def toJson (node : Node) : Json :=
  .obj [("id", node.id.toJson), ("callable", node.callable.toJson), ("kind", node.kind.toJson),
    ("text", .str node.text), ("syntax", .ofOption Ident.toJson node.element),
    ("span", .ofOption Span.toJson node.span), ("defs", .strings node.defs),
    ("uses", .strings node.uses), ("calls", .ofList Ident.toJson node.calls)]

/-- Reads a node. -/
def decode : Json.Decoder Node :=
  Json.Record.decode <| Node.mk <$> .required "id" NodeId.decode
    <*> .required "callable" Ident.decode
    <*> .required "kind" NodeKind.decode
    <*> .required "text" Json.decodeString
    <*> .nullable "syntax" Ident.decode
    <*> .nullable "span" Span.decode
    <*> .required "defs" (Json.decodeList Json.decodeString)
    <*> .required "uses" (Json.decodeList Json.decodeString)
    <*> .required "calls" (Json.decodeList Ident.decode)

end Node

end Slicing
