import Slicing.Json.Decoder

/-!
# Identifiers

What a front end declares or refers to (types, callables, call sites, source
elements) is numbered by it with 32 bits; the kind of the thing is part of the
type of its identifier. Nodes are numbered by the library itself as it makes
them.

In messages and labels a number stands behind a letter for its kind.
-/

namespace Slicing

/-- The kinds of things that a front end numbers. -/
inductive IdentKind where
  /-- A declared type. -/
  | type
  /-- A method, constructor or initializer. -/
  | callable
  /-- A call expression, unique across the program. -/
  | callSite
  /-- The source of a statement, a case label or a catch clause. -/
  | element
  deriving DecidableEq, Repr

/-- The number that a front end gave to a thing of a kind. -/
structure Ident (kind : IdentKind) where
  number : UInt32
  deriving DecidableEq, Repr, Inhabited, Hashable

abbrev TypeId := Ident .type
abbrev CallableId := Ident .callable
abbrev CallSiteId := Ident .callSite
abbrev ElementId := Ident .element

/-- The letter in front of the number of a thing. -/
def IdentKind.letter : IdentKind → String
  | .type => "t"
  | .callable => "m"
  | .callSite => "c"
  | .element => "s"

namespace Ident

variable {kind : IdentKind}

/-- The place of an identifier in the order of its kind. -/
def rank (id : Ident kind) : Nat := id.number.toNat

/-- An identifier as messages and labels show it. -/
def label (id : Ident kind) : String := kind.letter ++ toString id.rank

/-- An identifier as a document holds it: its bare number. -/
def toJson (id : Ident kind) : Json := .nat id.rank

/-- Reads the number of a thing. -/
def decode : Json.Decoder (Ident kind) := fun value => Ident.mk <$> Json.decodeUInt32 value

theorem rank_injective {a b : Ident kind} (h : a.rank = b.rank) : a = b := by
  cases a; cases b
  simpa [rank, UInt32.toNat_inj] using h

@[simp]
theorem decode_toJson (id : Ident kind) : decode id.toJson = .ok id := by
  rw [decode, toJson, rank, Json.decodeUInt32_nat]
  rfl

end Ident

/-- The number of a node of a flow graph. -/
structure NodeId where
  number : Nat
  deriving DecidableEq, Repr, Inhabited, Hashable

namespace NodeId

/-- The place of a node among all nodes. -/
def rank (id : NodeId) : Nat := id.number

/-- A node as messages and labels show it. -/
def label (id : NodeId) : String := "n" ++ toString id.number

/-- A node as a document holds it. -/
def toJson (id : NodeId) : Json := .nat id.number

/-- Reads the number of a node. -/
def decode : Json.Decoder NodeId := fun value => NodeId.mk <$> Json.decodeNat UInt32.size value

end NodeId

end Slicing
