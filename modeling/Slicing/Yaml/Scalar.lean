import Slicing.Yaml.Basic
import Slicing.Yaml.Cursor

/-!
# YAML scalars

A scalar is plain, or stands in single or double quotes. It may go on over
several lines, and is then folded: the blanks around a break are dropped, one
break is a blank, and of several breaks the first one is dropped (`foldBreaks`).
In double quotes a break behind a backslash joins two lines.

The characters of a scalar are read first (`scanSingle`, `scanDouble`,
`scanPlain`), as far as it goes. They are the `Piece`s from which its text is
put together (`joinPieces`).
-/

namespace Slicing.Yaml

/-! ## Folding -/

/-- A part of a scalar as it is written. -/
inductive Piece where
  /-- A character of a word. -/
  | char (c : Char)
  /-- A blank or a break between words. -/
  | space (c : Char)
  /-- A break that joins the lines around it. -/
  | joint

/-- The part that a character is by itself. -/
def Piece.ofChar (c : Char) : Piece := if isSpace c then .space c else .char c

/-- What the breaks between two words stand for. A line or paragraph separator is
    kept. -/
def foldBreaks : List Char → List Char
  | ['\n'] => [' ']
  | '\n' :: breaks => breaks
  | breaks => breaks

/-- The spaces since the last word, the latest first. -/
structure Spaces where
  /-- The blanks, up to the first break. -/
  blanks : List Char := []
  /-- The breaks. -/
  breaks : List Char := []
  /-- They follow a joint. -/
  joined : Bool := false

namespace Spaces

/-- A further space. -/
def push (spaces : Spaces) (c : Char) : Spaces :=
  if isBreak c then { spaces with breaks := c :: spaces.breaks }
  else if spaces.breaks.isEmpty && !spaces.joined then
    { spaces with blanks := c :: spaces.blanks }
  else spaces

/-- What the spaces stand for. -/
def text (spaces : Spaces) : List Char :=
  if spaces.joined then spaces.breaks.reverse
  else if spaces.breaks.isEmpty then spaces.blanks.reverse
  else foldBreaks spaces.breaks.reverse

end Spaces

/-- The text of a scalar, given the spaces in front of its parts. -/
def joinPieces (spaces : Spaces) : List Piece → List Char
  | [] => spaces.text
  | .char c :: pieces => spaces.text ++ c :: joinPieces {} pieces
  | .space c :: pieces => joinPieces (spaces.push c) pieces
  | .joint :: pieces => spaces.text ++ joinPieces { joined := true } pieces

/-! ## Quoted scalars -/

/-- The parts of a single-quoted scalar from a place behind its first quote, and the
    place behind the last one. A quote is written twice. No line of the scalar is
    the mark of a document. -/
def scanSingle (position : Position) : List Char → Option (List Piece × Cursor)
  | [] => none
  | '\'' :: '\'' :: rest =>
    (scanSingle (position.pastAll ['\'', '\'']) rest).map fun (pieces, behind) =>
      (.char '\'' :: pieces, behind)
  | '\'' :: rest => some ([], ⟨rest, position.past '\''⟩)
  | c :: rest =>
    if position.column == 0 && isAtMark (c :: rest) then none
    else
      (scanSingle (position.past c) rest).map fun (pieces, behind) => (.ofChar c :: pieces, behind)

/-- The number that some hexadecimal digits write as a character. -/
def hexChar? (digits : List Char) : Option Char := do
  let n ← numeral? 16 digits
  if n.isValidChar then return Char.ofNat n else none

/-- The character that a backslash and a character stand for. -/
def escapedChar? : Char → Option Char
  | '0' => some '\x00'
  | 'a' => some '\x07'
  | 'b' => some '\x08'
  | 't' => some '\t'
  | '\t' => some '\t'
  | 'n' => some '\n'
  | 'v' => some '\x0b'
  | 'f' => some '\x0c'
  | 'r' => some '\r'
  | 'e' => some '\x1b'
  | ' ' => some ' '
  | '"' => some '"'
  | '/' => some '/'
  | '\\' => some '\\'
  | 'N' => some (Char.ofNat 0x85)
  | '_' => some (Char.ofNat 0xa0)
  | 'L' => some (Char.ofNat 0x2028)
  | 'P' => some (Char.ofNat 0x2029)
  | _ => none

/-- The parts of a double-quoted scalar from a place behind its first quote, and the
    place behind the last one. No line of the scalar is the mark of a document. -/
def scanDouble (position : Position) : List Char → Option (List Piece × Cursor)
  | [] => none
  | '"' :: rest => some ([], ⟨rest, position.past '"'⟩)
  | '\\' :: 'x' :: a :: b :: rest => do
    let char ← hexChar? [a, b]
    let (pieces, behind) ← scanDouble (position.pastAll ['\\', 'x', a, b]) rest
    return (.char char :: pieces, behind)
  | '\\' :: 'u' :: a :: b :: c :: d :: rest => do
    let char ← hexChar? [a, b, c, d]
    let (pieces, behind) ← scanDouble (position.pastAll ['\\', 'u', a, b, c, d]) rest
    return (.char char :: pieces, behind)
  | '\\' :: 'U' :: a :: b :: c :: d :: e :: f :: g :: h :: rest => do
    let char ← hexChar? [a, b, c, d, e, f, g, h]
    let (pieces, behind) ← scanDouble (position.pastAll ['\\', 'U', a, b, c, d, e, f, g, h]) rest
    return (.char char :: pieces, behind)
  | '\\' :: e :: rest => do
    let piece ← if isBreak e then some .joint else (escapedChar? e).map .char
    let (pieces, behind) ← scanDouble (position.pastAll ['\\', e]) rest
    return (piece :: pieces, behind)
  | c :: rest =>
    if position.column == 0 && isAtMark (c :: rest) then none
    else
      (scanDouble (position.past c) rest).map fun (pieces, behind) => (.ofChar c :: pieces, behind)

/-! ## Plain scalars -/

/-- The characters that punctuate a collection in brackets. -/
def isFlowIndicator (c : Char) : Bool :=
  c == ',' || c == '[' || c == ']' || c == '\x7b' || c == '\x7d'

/-- The characters with which no plain scalar starts. -/
def isIndicator (c : Char) : Bool :=
  isFlowIndicator c || "#&*!|>'\"%@`".toList.contains c

/-- What stands in front of a character of a plain scalar. -/
inductive Before where
  | word
  | blanks
  | lineBreak
  deriving DecidableEq

/-- A plain scalar ends in front of a text: at a comment, a mark of a document, a
    colon in front of a space, the punctuation of the brackets it stands in, or
    outside of brackets a line that is not indented enough. -/
def endsPlain (flow : Bool) (indent column : Nat) (before : Before) : List Char → Bool
  | [] => true
  | c :: rest =>
    (before = .lineBreak && !flow && column < indent) ||
      (column == 0 && isAtMark (c :: rest)) ||
      (before ≠ .word && c == '#') ||
      (c == ':' && isAtSpace rest) ||
      (flow && isFlowIndicator c)

/-- A colon within brackets that neither separates a key nor belongs to a word. -/
def isStrayColon : List Char → Bool
  | ':' :: c :: _ => isFlowIndicator c || c == '?'
  | _ => false

/-- The characters of a plain scalar with the spaces behind it. The lines of the
    scalar are indented at least by `indent`, without tabs. -/
def scanPlain (flow : Bool) (indent column : Nat) (before : Before) :
    List Char → Option (List Char)
  | [] => some []
  | c :: rest =>
    if isBreak c then (scanPlain flow indent 0 .lineBreak rest).map (c :: ·)
    else if isBlank c then
      if before = .lineBreak && c == '\t' && column < indent then none
      else
        let before := if before = .lineBreak then .lineBreak else .blanks
        (scanPlain flow indent (column + 1) before rest).map (c :: ·)
    else if endsPlain flow indent column before (c :: rest) then some []
    else if flow && isStrayColon (c :: rest) then none
    else (scanPlain flow indent (column + 1) .word rest).map (c :: ·)

/-- Without the spaces at its end. -/
def trimEnd (text : List Char) : List Char :=
  (text.reverse.dropWhile isSpace).reverse

/-- The text of a plain scalar, given its characters. -/
def plainText (chars : List Char) : String :=
  String.ofList (joinPieces {} ((trimEnd chars).map .ofChar))

end Slicing.Yaml
