import Slicing.Json.Parser

/-!
# Decoding JSON

A decoder takes a JSON value to a value of the library, or to a fault
(`Json.Fault`): the text is malformed, or it is JSON but not of the expected
shape. Of several faults in a document the one that stands first counts.

An object is decoded by a `Record`: an applicative combination of its fields,
each with its own decoder. Every field carries the place of its fault among the
members, and the earliest fault is the fault of the object:

* a field without a default that is absent is a fault at the end of the object;
* a known name that is repeated is a fault at its second occurrence;
* unknown members are ignored, but the text may break off within them.

An object may also be written as the array of its values, in the order of the
fields. Fields at its end may be left out if they have a default, and the text is
malformed if it goes on behind the last field.

A choice between several shapes is an object with a tag (`Json.tagged`), or an
array with the tag as its first item. Such a value is taken in as a whole before
its fields are looked at, so a text that breaks off inside it is malformed,
whatever else is wrong in it apart from the tag; once it is taken in, it can
only be of another shape than expected (`Json.asShape`). The tag names a shape; a
tagged value that stands inside another one may give the number of its shape
instead.
-/

namespace Slicing.Json

/-- Why a value is not decoded. -/
inductive Fault where
  /-- The text is not JSON, or it ends too early. -/
  | malformed
  /-- The text is JSON of another shape than expected. -/
  | mismatched
  deriving DecidableEq, Repr

/-- A way to decode JSON values. -/
abbrev Decoder (α : Type) := Json → Except Fault α

/-- The fault of a value of another kind than expected. -/
def unexpected : Json → Fault
  | .broken | .unvalued | .unnamed _ => .malformed
  | _ => .mismatched

/-- The outcome of decoding a value that has been read to its end: whatever is wrong
    with it, it is JSON. -/
def asShape {α : Type} (outcome : Except Fault α) : Except Fault α :=
  outcome.mapError fun _ => .mismatched

/-- A truth value. -/
def decodeBool : Decoder Bool
  | .bool b => .ok b
  | value => .error (unexpected value)

/-- A string. -/
def decodeString : Decoder String
  | .str text => .ok text
  | value => .error (unexpected value)

/-- A number below a bound, written with digits only. -/
def decodeNat (bound : Nat) : Decoder Nat
  | .nat n => if n < bound then .ok n else .error .mismatched
  | value => .error (unexpected value)

/-- A number of 32 bits. -/
def decodeUInt32 : Decoder UInt32
  | .nat n => if n < UInt32.size then .ok (UInt32.ofNat n) else .error .mismatched
  | value => .error (unexpected value)

@[simp]
theorem decodeUInt32_nat (n : UInt32) : decodeUInt32 (.nat n.toNat) = .ok n := by
  rw [decodeUInt32, if_pos n.toNat_lt, UInt32.ofNat_toNat]

/-- A number of 64 bits. -/
def decodeUInt64 : Decoder UInt64
  | .nat n => if n < UInt64.size then .ok (UInt64.ofNat n) else .error .mismatched
  | value => .error (unexpected value)

/-- What a word stands for. -/
def wordMeaning {α : Type} (words : List (String × α)) (text : String) : Except Fault α :=
  match words.lookup text with
  | some a => .ok a
  | none => .error .mismatched

/-- One of some words. It may also be written as the name of the only member of an
    object, which is `null`. The text of a word can start in these two ways only:
    where it starts in another way, it is malformed. -/
def decodeWord {α : Type} (words : List (String × α)) : Decoder α
  | .str text => wordMeaning words text
  | .obj ((_, .unnamed _) :: _) => .error .malformed
  | .obj ((name, value) :: members) => do
    let a ← wordMeaning words name
    match value, members with
    | .null, [] => return a
    | .null, _ :: _ => throw .malformed
    | value, _ => throw (unexpected value)
  | _ => .error .malformed

/-- The items of an array, in order. -/
def decodeItems {α : Type} (decode : Decoder α) : List Json → Except Fault (List α)
  | [] => .ok []
  | item :: items => do
    let a ← decode item
    let rest ← decodeItems decode items
    return a :: rest

/-- An array. -/
def decodeList {α : Type} (decode : Decoder α) : Decoder (List α)
  | .arr items => decodeItems decode items
  | value => .error (unexpected value)

/-- A value or `null`. -/
def decodeOption {α : Type} (decode : Decoder α) : Decoder (Option α)
  | .null => .ok none
  | value => some <$> decode value

/-! ## Records -/

/-- A fault with the number of members in front of it. -/
structure Located where
  place : Nat
  fault : Fault

/-- The earlier of two faults. -/
def Located.first (a b : Located) : Located :=
  if a.place ≤ b.place then a else b

/-- A way to decode an object. -/
structure Record (α : Type) where
  /-- The names it looks at. -/
  names : List String
  /-- Decodes the members of an object. -/
  read : List (String × Json) → Except Located α
  /-- Decodes the items at the front of an array, one for each field, and gives those
      behind them. -/
  readRow : List Json → Except Fault (α × List Json)

namespace Record

/-- No fields. -/
protected def pure {α : Type} (a : α) : Record α where
  names := []
  read _ := .ok a
  readRow items := .ok (a, items)

/-- The fields of both records. If both have a fault, the earlier one counts. -/
protected def seq {α β : Type} (f : Record (α → β)) (x : Record α) : Record β where
  names := f.names ++ x.names
  read members :=
    match f.read members, x.read members with
    | .ok f, .ok a => .ok (f a)
    | .error e, .ok _ => .error e
    | .ok _, .error e => .error e
    | .error e, .error e' => .error (e.first e')
  readRow items := do
    let (f, items) ← f.readRow items
    let (a, items) ← x.readRow items
    return (f a, items)

instance : Applicative Record where
  pure := Record.pure
  seq f x := Record.seq f (x ())

/-- A field, given what its absence means in an object and in an array. -/
def fieldOr {α : Type} (name : String) (absent omitted : Option α) (decode : Decoder α) :
    Record α where
  names := [name]
  read members :=
    match members.findIdx? (·.1 == name), members.lookup name with
    | some place, some value =>
      match decode value with
      | .ok a => .ok a
      | .error fault => .error ⟨place, fault⟩
    | _, _ =>
      match absent with
      | some a => .ok a
      | none => .error ⟨members.length, .mismatched⟩
  readRow
    | item :: items => do return (← decode item, items)
    | [] =>
      match omitted with
      | some a => .ok (a, [])
      | none => .error .mismatched

/-- A field that has to be present. -/
def required {α : Type} (name : String) (decode : Decoder α) : Record α :=
  fieldOr name none none decode

/-- A field with a default. -/
def defaulted {α : Type} (name : String) (default : α) (decode : Decoder α) : Record α :=
  fieldOr name (some default) (some default) decode

/-- A field that may be absent or `null`. -/
def optional {α : Type} (name : String) (decode : Decoder α) : Record (Option α) :=
  defaulted name none (decodeOption decode)

/-- A field that may be `null`, and absent from an object, but not from an array. -/
def nullable {α : Type} (name : String) (decode : Decoder α) : Record (Option α) :=
  fieldOr name (some none) none (decodeOption decode)

/-- A list that is empty if absent. -/
def listOf {α : Type} (name : String) (decode : Decoder α) : Record (List α) :=
  defaulted name [] (decodeList decode)

/-- A member may be ignored: it has a name, and the text does not break off in its
    value. -/
def isIgnorable : Json → Bool
  | .unnamed _ => false
  | value => value.isWhole

/-- The first fault of some members that is not a fault of a field: a known name
    for the second time, or an unknown member that cannot be ignored. `seen`
    holds the known names met before. -/
def memberFault? (names seen : List String) (place : Nat) :
    List (String × Json) → Option Located
  | [] => none
  | (name, value) :: members =>
    if names.contains name then
      if seen.contains name then some ⟨place, .mismatched⟩
      else memberFault? names (name :: seen) (place + 1) members
    else if isIgnorable value then memberFault? names seen (place + 1) members
    else some ⟨place, .malformed⟩

/-- Decodes the members of an object. -/
def decodeMembers {α : Type} (record : Record α) (members : List (String × Json)) :
    Except Fault α :=
  match memberFault? record.names [] 0 members, record.read members with
  | none, .ok a => .ok a
  | none, .error e => .error e.fault
  | some e, .ok _ => .error e.fault
  | some e, .error e' => .error (e.first e').fault

/-- Decodes the items of an array. -/
def decodeRow {α : Type} (record : Record α) (items : List Json) : Except Fault α := do
  let (a, rest) ← record.readRow items
  if rest.isEmpty then return a else throw .malformed

/-- Decodes an object, ignoring unknown members, or the array of its values. -/
def decode {α : Type} (record : Record α) : Decoder α
  | .obj members => record.decodeMembers members
  | .arr items => record.decodeRow items
  | value => .error (unexpected value)

end Record

/-! ## Tagged objects -/

/-- How the tag of an object may be written. -/
inductive TagForm where
  /-- By the name of a shape. -/
  | named
  /-- By the name of a shape or its number, counted from zero. -/
  | numbered

/-- The shape that a tag stands for. -/
def decodeTag {α : Type} (form : TagForm) (shapes : List (String × α)) : Decoder α
  | .str name => wordMeaning shapes name
  | .nat number =>
    match form, shapes[number]? with
    | .numbered, some (_, shape) => .ok shape
    | _, _ => .error .mismatched
  | value => .error (unexpected value)

/-- The shape of an object by its tag, which has to occur once, and whose other
    members have to be values. `found` is the shape of a tag met before. -/
def shapeOf {α : Type} (form : TagForm) (tag : String) (shapes : List (String × α))
    (found : Option α) : List (String × Json) → Except Fault α
  | [] =>
    match found with
    | some shape => .ok shape
    | none => .error .mismatched
  | (name, value) :: members =>
    if name == tag then
      match found with
      | some _ => .error .mismatched
      | none => do shapeOf form tag shapes (some (← decodeTag form shapes value)) members
    else if value.isValued then shapeOf form tag shapes found members
    else .error .malformed

/-- Decodes an object or an array whose shape depends on a tag. -/
def tagged {α : Type} (form : TagForm) (tag : String) (shapes : List (String × Record α)) :
    Decoder α
  | .obj members => do
    let record ← shapeOf form tag shapes none members
    asShape (record.decodeMembers (members.filter (·.1 != tag)))
  | .arr [] => .error .mismatched
  | .arr (item :: items) => do
    let record ← decodeTag form shapes item
    if areValued items then asShape (record.decodeRow items) else throw .malformed
  | value => .error (unexpected value)

/-- Decodes a document: nothing may follow its value. -/
def Document.decode {α : Type} (document : Document) (decode : Decoder α) : Except Fault α := do
  let a ← decode document.root
  if document.complete then return a else throw .malformed

end Slicing.Json
