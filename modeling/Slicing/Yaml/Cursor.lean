/-!
# Places in a YAML text

A text is read from left to right with a `Cursor`, which knows the `Position` it
has reached. Columns matter, because the indentation of a line says to which
collection it belongs. They count characters, while lengths are measured in bytes.

A text has only some of the characters there are (`isAllowed`). Its lines end
with a line feed, a carriage return, both, or one of three other breaks; those
that a scalar does not keep are all read as line feeds (`unifyBreaks`).
-/

namespace Slicing.Yaml

/-- The characters that a text may have. -/
def isAllowed (c : Char) : Bool :=
  let code := c.toNat
  c == '\t' || c == '\n' || c == '\r' || (0x20 ≤ code && code ≤ 0x7e) || code == 0x85 ||
    (0xa0 ≤ code && code ≤ 0xfffd) || 0x10000 ≤ code

/-- A mark that may stand at the start of a line, in front of what the line says. -/
def byteOrderMark : Char := Char.ofNat 0xfeff

/-- The characters that separate words on a line. -/
def isBlank (c : Char) : Bool := c == ' ' || c == '\t'

/-- The characters that end a line of a text with unified breaks: a line feed, a
    line separator or a paragraph separator. -/
def isBreak (c : Char) : Bool := c == '\n' || c.toNat == 0x2028 || c.toNat == 0x2029

/-- Blanks and breaks. -/
def isSpace (c : Char) : Bool := isBlank c || isBreak c

/-- A text in which line feeds stand for the carriage returns, alone or in front
    of a line feed, and for the next-line characters. -/
def unifyBreaks : List Char → List Char
  | [] => []
  | '\r' :: '\n' :: rest => '\n' :: unifyBreaks rest
  | c :: rest => (if c == '\r' || c.toNat == 0x85 then '\n' else c) :: unifyBreaks rest

/-- A text goes on with a space, or ends. -/
def isAtSpace : List Char → Bool
  | [] => true
  | c :: _ => isSpace c

/-- A text goes on with the mark in front of a document. -/
def isAtStartMark : List Char → Bool
  | '-' :: '-' :: '-' :: rest => isAtSpace rest
  | _ => false

/-- A text goes on with the mark behind a document. -/
def isAtEndMark : List Char → Bool
  | '.' :: '.' :: '.' :: rest => isAtSpace rest
  | _ => false

/-- A text goes on with the mark of a document. -/
def isAtMark (text : List Char) : Bool := isAtStartMark text || isAtEndMark text

/-- A position in a text. -/
structure Position where
  line : Nat := 0
  /-- The number of characters in front of it on its line. -/
  column : Nat := 0
  /-- The number of bytes in front of it on its line. -/
  offset : Nat := 0

namespace Position

/-- The position behind a character. -/
def past (position : Position) (c : Char) : Position :=
  if isBreak c then { line := position.line + 1 }
  else
    { line := position.line
      column := position.column + 1
      offset := position.offset + c.utf8Size }

/-- The position behind some characters. -/
def pastAll (position : Position) (text : List Char) : Position := text.foldl past position

end Position

/-- A place in a text: what follows it, and its position. -/
structure Cursor where
  rest : List Char
  position : Position := {}

namespace Cursor

/-- The place behind the next character. -/
def next : Cursor → Cursor
  | ⟨[], position⟩ => ⟨[], position⟩
  | ⟨c :: rest, position⟩ => ⟨rest, position.past c⟩

/-- The place behind some characters. -/
def skip : Nat → Cursor → Cursor
  | 0, cursor => cursor
  | count + 1, cursor => skip count cursor.next

end Cursor

end Slicing.Yaml
