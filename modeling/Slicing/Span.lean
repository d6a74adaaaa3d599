import Slicing.Json.Decoder

/-!
# Source spans

A span is a range of a source text, from a line and column to a line and
column.
-/

namespace Slicing

/-- A range of a source text. -/
structure Span where
  startLine : UInt32
  startCol : UInt32
  endLine : UInt32
  endCol : UInt32
  deriving DecidableEq, Repr

namespace Span

/-- A span as labels show it: where it starts. -/
def label (span : Span) : String :=
  toString span.startLine.toNat ++ ":" ++ toString span.startCol.toNat

/-- A line is one of those that a span touches. -/
def containsLine (span : Span) (line : UInt32) : Bool :=
  span.startLine ≤ line && line ≤ span.endLine

/-- A span as a document holds it. -/
def toJson (span : Span) : Json :=
  .obj [("start_line", .nat span.startLine.toNat), ("start_col", .nat span.startCol.toNat),
    ("end_line", .nat span.endLine.toNat), ("end_col", .nat span.endCol.toNat)]

/-- Reads a span. -/
def decode : Json.Decoder Span :=
  Json.Record.decode <| Span.mk <$> .required "start_line" Json.decodeUInt32
    <*> .required "start_col" Json.decodeUInt32
    <*> .required "end_line" Json.decodeUInt32
    <*> .required "end_col" Json.decodeUInt32

end Span

end Slicing
