import Slicing.Node

/-!
# Edges

The labels of the two kinds of graphs: control flow within a callable
(`FlowEdge`) and dependence within and between callables (`Dependence`).
-/

namespace Slicing

/-! ## Control flow -/

/-- How control passes along an edge. -/
inductive FlowKind where
  | unconditional
  | trueBranch
  | falseBranch
  | exceptional
  | loopBack
  deriving DecidableEq, Repr

namespace FlowKind

/-- A kind as labels show it. -/
def label : FlowKind → String
  | .unconditional => "unconditional"
  | .trueBranch => "true"
  | .falseBranch => "false"
  | .exceptional => "exception"
  | .loopBack => "loop_back"

/-- A kind as a document holds it. -/
def word : FlowKind → String
  | .unconditional => "unconditional"
  | .trueBranch => "true_branch"
  | .falseBranch => "false_branch"
  | .exceptional => "exceptional"
  | .loopBack => "loop_back"

/-- Reads a kind. -/
def decode : Json.Decoder FlowKind :=
  Json.decodeWord
    ([.unconditional, .trueBranch, .falseBranch, .exceptional, .loopBack].map
      fun kind : FlowKind => (kind.word, kind))

end FlowKind

/-- An edge of control flow. -/
structure FlowEdge where
  kind : FlowKind
  /-- The case of a `switch`, or the type of an exception. -/
  text : Option String := none
  deriving DecidableEq, Repr

namespace FlowEdge

/-- The label of an edge. -/
def label (edge : FlowEdge) : String :=
  match edge.text with
  | some text => edge.kind.label ++ ":" ++ text
  | none => edge.kind.label

/-- An edge as a document holds it. -/
def toJson (edge : FlowEdge) : Json :=
  .obj [("kind", .str edge.kind.word), ("label", .ofOption .str edge.text)]

/-- Reads an edge. -/
def decode : Json.Decoder FlowEdge :=
  Json.Record.decode <| FlowEdge.mk <$> .required "kind" FlowKind.decode
    <*> .nullable "label" Json.decodeString

end FlowEdge

/-! ## Dependence -/

/-- The kinds of dependence. -/
inductive DependenceKind where
  | control
  | data
  | call
  | parameterIn
  | parameterOut
  | summary
  deriving DecidableEq, Repr

/-- All kinds. -/
def DependenceKind.all : List DependenceKind :=
  [.control, .data, .call, .parameterIn, .parameterOut, .summary]

/-- The word for a kind of dependence. -/
def DependenceKind.label : DependenceKind → String
  | .control => "control"
  | .data => "data"
  | .call => "call"
  | .parameterIn => "param_in"
  | .parameterOut => "param_out"
  | .summary => "summary"

/-- Both ends of an edge of the kind belong to one callable. -/
def DependenceKind.isIntraprocedural : DependenceKind → Bool
  | .control | .data | .summary => true
  | .call | .parameterIn | .parameterOut => false

/-- Why one node depends on another. -/
inductive Dependence where
  /-- The source decides whether the target runs. -/
  | control
  /-- What the source writes to a variable reaches a read at the target. -/
  | data (var : String)
  /-- From a call to the entry of a callee. -/
  | call (site : CallSiteId)
  /-- From an actual-in to a formal-in. -/
  | parameterIn (position : Nat)
  /-- From a formal-out to an actual-out. -/
  | parameterOut (slot : OutputSlot)
  /-- From an actual-in to an actual-out, across a call. -/
  | summary (site : CallSiteId)
  deriving DecidableEq, Repr

namespace Dependence

/-- The kind of a dependence. -/
def kind : Dependence → DependenceKind
  | .control => .control
  | .data _ => .data
  | .call _ => .call
  | .parameterIn _ => .parameterIn
  | .parameterOut _ => .parameterOut
  | .summary _ => .summary

/-- Both ends of such an edge belong to one callable. -/
def isIntraprocedural (d : Dependence) : Bool := d.kind.isIntraprocedural

/-- The variable that a data dependence carries. -/
def carried? : Dependence → Option String
  | .data var => some var
  | _ => none

/-- The label of a dependence. -/
def label : Dependence → String
  | .control => DependenceKind.label .control
  | .data var => DependenceKind.label .data ++ ":" ++ var
  | .call site => DependenceKind.label .call ++ ":" ++ site.label
  | .parameterIn position => DependenceKind.label .parameterIn ++ ":" ++ toString position
  | .parameterOut slot => DependenceKind.label .parameterOut ++ ":" ++ slot.label
  | .summary site => DependenceKind.label .summary ++ ":" ++ site.label

/-- A dependence as a document holds it. -/
def toJson : Dependence → Json
  | .control => .obj [("kind", .str "control")]
  | .data var => .obj [("kind", .str "data"), ("variable", .str var)]
  | .call site => .obj [("kind", .str "call"), ("call_site", site.toJson)]
  | .parameterIn position => .obj [("kind", .str "parameter_in"), ("position", .nat position)]
  | .parameterOut slot => .obj [("kind", .str "parameter_out"), ("slot", slot.toJson)]
  | .summary site => .obj [("kind", .str "summary"), ("call_site", site.toJson)]

/-- Reads a dependence. -/
def decode : Json.Decoder Dependence :=
  Json.tagged .named "kind" [
    ("control", pure .control),
    ("data", .data <$> .required "variable" Json.decodeString),
    ("call", .call <$> .required "call_site" Ident.decode),
    ("parameter_in", .parameterIn <$> .required "position" (Json.decodeNat UInt64.size)),
    ("parameter_out", .parameterOut <$> .required "slot" OutputSlot.decode),
    ("summary", .summary <$> .required "call_site" Ident.decode)]

end Dependence

end Slicing
