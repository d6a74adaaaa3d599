import Slicing.Json.Token

/-!
# Reading JSON

A text is read token by token with a stack of the containers that are open
(`Json.Reading`). A document is the value that a text starts with, together
with the fact whether nothing but blanks follows it (`Json.Document`). Reading
never fails: where the text stops being JSON, the open containers are closed
around a `broken` mark.

Containers denote values if they nest at most `nestingLimit - 1` deep. One that is
deeper is `unvalued`: it does no harm where it is ignored.
-/

namespace Slicing.Json

/-- The depth at which a container denotes nothing. -/
def nestingLimit : Nat := 128

/-- An open container with what it holds so far, the latest first. -/
inductive Frame where
  | array (items : List Json)
  /-- An object, with the name of the member whose value is being read, if it
      denotes one. -/
  | object (members : List (String × Json)) (name : Option String)

/-- What a text may go on with. -/
inductive Expected where
  /-- A value. -/
  | value
  /-- The first item of an array, or its end. -/
  | item
  /-- The first name of an object (holding nothing yet), or its end. -/
  | firstName
  /-- The name of a member, after a comma. -/
  | name (members : List (String × Json))
  /-- The colon after the name of a member. -/
  | colon (members : List (String × Json)) (name : Option String)
  /-- A comma or the end of the innermost container, to which a value is added. -/
  | separator (value : Json)

/-- The state of reading a text: the open containers around the place reached,
    the innermost first, and what may follow. -/
structure Reading where
  frames : List Frame
  expected : Expected

/-- A member with a name, which may denote nothing. -/
def member (name : Option String) (value : Json) : String × Json :=
  match name with
  | some name => (name, value)
  | none => ("", .unnamed value)

/-- What a container within some others denotes. -/
def nested (frames : List Frame) (container : Json) : Json :=
  if frames.length + 1 < nestingLimit then container
  else if container.isWhole then .unvalued
  else .broken

/-- A value with everything that a text holds of the containers around it. -/
def plug (value : Json) : List Frame → Json
  | [] => value
  | .array items :: frames => plug (nested frames (.arr (value :: items).reverse)) frames
  | .object members name :: frames =>
    plug (nested frames (.obj (member name value :: members).reverse)) frames

/-- The document of a text that stops being JSON where reading stands. -/
def Reading.breakOff (r : Reading) : Json :=
  match r.expected with
  | .value => plug .broken r.frames
  | .item => plug .broken (.array [] :: r.frames)
  | .firstName => plug .broken (.object [] none :: r.frames)
  | .name members => plug .broken (.object members none :: r.frames)
  | .colon members name => plug .broken (.object members name :: r.frames)
  | .separator value =>
    match r.frames with
    | [] => value
    | .array items :: frames => plug .broken (.array (value :: items) :: frames)
    | .object members name :: frames =>
      plug .broken (.object (member name value :: members) none :: frames)

/-- Reading goes on behind a token; `none` if the token is none of those
    expected. -/
def Reading.step (r : Reading) (token : Token) : Option Reading :=
  match r.expected, token with
  | .value, .literal value => some ⟨r.frames, .separator value⟩
  | .value, .halfString => some ⟨r.frames, .separator .unvalued⟩
  | .value, .openArray => some ⟨r.frames, .item⟩
  | .value, .openObject => some ⟨r.frames, .firstName⟩
  | .item, .closeArray => some (closed r.frames (.arr []))
  | .item, .literal value => some ⟨.array [] :: r.frames, .separator value⟩
  | .item, .halfString => some ⟨.array [] :: r.frames, .separator .unvalued⟩
  | .item, .openArray => some ⟨.array [] :: r.frames, .item⟩
  | .item, .openObject => some ⟨.array [] :: r.frames, .firstName⟩
  | .firstName, .closeObject => some (closed r.frames (.obj []))
  | .firstName, .literal (.str name) => some ⟨r.frames, .colon [] (some name)⟩
  | .firstName, .halfString => some ⟨r.frames, .colon [] none⟩
  | .name members, .literal (.str name) => some ⟨r.frames, .colon members (some name)⟩
  | .name members, .halfString => some ⟨r.frames, .colon members none⟩
  | .colon members name, .colon => some ⟨.object members name :: r.frames, .value⟩
  | .separator value, token =>
    match r.frames, token with
    | .array items :: frames, .comma => some ⟨.array (value :: items) :: frames, .value⟩
    | .array items :: frames, .closeArray => some (closed frames (.arr (value :: items).reverse))
    | .object members name :: frames, .comma => some ⟨frames, .name (member name value :: members)⟩
    | .object members name :: frames, .closeObject =>
      some (closed frames (.obj (member name value :: members).reverse))
    | _, _ => none
  | _, _ => none
where
  /-- A container within some others is complete. -/
  closed (frames : List Frame) (container : Json) : Reading :=
    ⟨frames, .separator (nested frames container)⟩

/-- The value that a text starts with, and whether the text ends with it. -/
structure Document where
  root : Json
  complete : Bool

/-- Reads the tokens of a text. -/
def Reading.run (r : Reading) : List Token → Document
  | [] =>
    match r.frames, r.expected with
    | [], .separator value => ⟨value, true⟩
    | _, _ => ⟨r.breakOff, true⟩
  | token :: tokens =>
    match r.frames, r.expected with
    | [], .separator value => ⟨value, false⟩
    | _, _ =>
      match r.step token with
      | some next => next.run tokens
      | none => ⟨r.breakOff, true⟩

/-- Reads a text. -/
def read (text : String) : Document :=
  Reading.run ⟨[], .value⟩ (tokens text.toList)

end Slicing.Json
