import Slicing.Yaml.Scalar

/-!
# YAML tokens

A text is cut into tokens (`tokens?`). Some of them are written; others follow
from the layout of the text: where a collection without brackets begins and
ends, and which scalars and brackets are the keys of a mapping.

Whether something is a key is only known at the colon behind it. So while the
text is read, each level of brackets has at most one `Candidate` for a key. A
colon gives it a `KeyMark`, for which `Layout.tokens` puts a `key` token in front
of it. A key has to stand on one line, within `keyLimit` bytes.

Collections without brackets nest by their columns: a token in a column further
to the right may begin one, a token further to the left ends those to the right
of it.
-/

namespace Slicing.Yaml

/-- A token of a text. -/
inductive Token where
  /-- The mark in front of a document. -/
  | documentStart
  /-- The mark behind a document. -/
  | documentEnd
  /-- A sequence of dashes begins. -/
  | beginSeq
  /-- A mapping without brackets begins. -/
  | beginMap
  /-- A collection without brackets ends. -/
  | endBlock
  | openSeq
  | closeSeq
  | openMap
  | closeMap
  | dash
  | comma
  /-- What follows is a key. -/
  | key
  | colon
  | scalar (text : String) (plain : Bool)

/-- What a token turned out to be the start of. -/
inductive KeyMark where
  | none
  /-- A key. -/
  | key
  /-- A mapping without brackets with its first key. -/
  | firstKey

/-- A token that a key starts with, if a colon follows it. -/
structure Candidate where
  /-- The number of tokens in front of it. -/
  index : Nat
  start : Position
  /-- It stands in the column of a mapping, which can only go on with a key. -/
  required : Bool

/-- The largest number of bytes between the start of a key and its colon. -/
def keyLimit : Nat := 1024

/-- A candidate is out of question at a position: it started on a line before, or too
    far in front. -/
def Candidate.isStale (candidate : Candidate) (position : Position) : Bool :=
  candidate.start.line < position.line || candidate.start.offset + keyLimit < position.offset

/-- The state of cutting a text into tokens. -/
structure Layout where
  cursor : Cursor
  /-- The tokens so far, with their marks. -/
  marked : Array (Token × KeyMark) := #[]
  /-- The columns of the open collections without brackets, the innermost first. -/
  columns : List Nat := []
  /-- The candidate for a key within the innermost brackets. -/
  candidate : Option Candidate := none
  /-- The candidates outside of each of the open brackets, the innermost first. -/
  outer : List (Option Candidate) := []
  /-- A key may start here. -/
  keyAllowed : Bool := true

namespace Layout

/-- The column of the place. -/
def column (s : Layout) : Nat := s.cursor.position.column

/-- The place is within brackets. -/
def inFlow (s : Layout) : Bool := !s.outer.isEmpty

/-- A token that is not written. -/
def add (token : Token) (s : Layout) : Layout := { s with marked := s.marked.push (token, .none) }

/-- A token that is written with some characters. -/
def take (token : Token) (count : Nat) (s : Layout) : Layout :=
  { s.add token with cursor := s.cursor.skip count }

/-- A collection in a column would be one inside the innermost one. -/
def isInner (s : Layout) (column : Nat) : Bool :=
  !s.inFlow &&
    match s.columns with
    | [] => true
    | innermost :: _ => innermost < column

/-- A collection begins at this place, unless it goes on with the innermost one. -/
def beginBlock (token : Token) (s : Layout) : Layout :=
  if s.isInner s.column then { s.add token with columns := s.column :: s.columns }
  else s

/-- The collections that do not reach to the left to some column end; all of them,
    if there is no column. -/
def endBlocks (column : Option Nat) (s : Layout) : Layout :=
  if s.inFlow then s
  else
    let ended := s.columns.takeWhile fun c => column.all fun column => column < c
    { ended.foldl (fun s _ => s.add .endBlock) s with columns := s.columns.drop ended.length }

/-- Without the candidate, unless it has to be a key. -/
def dropCandidate? (s : Layout) : Option Layout :=
  match s.candidate with
  | some candidate => if candidate.required then none else some { s with candidate := none }
  | none => some s

/-- The next token is a candidate, if a key may start here. -/
def saveCandidate? (s : Layout) : Option Layout :=
  if s.keyAllowed then
    s.dropCandidate?.map fun s =>
      { s with candidate := some {
          index := s.marked.size
          start := s.cursor.position
          required := !s.inFlow && s.columns.head? == some s.column } }
  else some s

/-- A candidate that is not stale, if there is one; `none` if it is stale and has to
    be a key. -/
def freshCandidate? (position : Position) (candidate : Option Candidate) :
    Option (Option Candidate) :=
  match candidate with
  | some c => if c.isStale position then (if c.required then none else some none) else some (some c)
  | none => some none

/-- Without the candidates that are stale. -/
def dropStale? (s : Layout) : Option Layout := do
  let candidate ← freshCandidate? s.cursor.position s.candidate
  let outer ← s.outer.mapM (freshCandidate? s.cursor.position)
  return { s with candidate, outer }

/-! ## Spaces and comments -/

/-- The place behind the spaces and comments at some place, and whether a key may
    start there. Where a key may start, tabs are no spaces; outside of brackets a
    key may start on every line. A line may begin with a byte order mark, which takes
    a column. -/
def skipSpaces (flow comment keyAllowed : Bool) (position : Position) :
    List Char → Cursor × Bool
  | [] => (⟨[], position⟩, keyAllowed)
  | c :: rest =>
    if isBreak c then skipSpaces flow false (keyAllowed || !flow) (position.past c) rest
    else if comment || c == ' ' || (c == '\t' && (flow || !keyAllowed)) ||
        (c == byteOrderMark && position.column == 0) then
      skipSpaces flow comment keyAllowed (position.past c) rest
    else if c == '#' then skipSpaces flow true keyAllowed (position.past c) rest
    else (⟨c :: rest, position⟩, keyAllowed)

/-- Goes on to the next token. -/
def advance? (s : Layout) : Option Layout := do
  let (cursor, keyAllowed) :=
    skipSpaces s.inFlow false s.keyAllowed s.cursor.position s.cursor.rest
  let s ← { s with cursor, keyAllowed }.dropStale?
  return s.endBlocks (some s.column)

/-! ## Tokens -/

/-- The mark of a document, which ends all collections. -/
def mark? (token : Token) (s : Layout) : Option Layout := do
  let s ← (s.endBlocks none).dropCandidate?
  return { s.take token 3 with keyAllowed := false }

/-- An opening bracket. -/
def open? (token : Token) (s : Layout) : Option Layout := do
  let s ← s.saveCandidate?
  return { s.take token 1 with
    candidate := none
    outer := s.candidate :: s.outer
    keyAllowed := true }

/-- A closing bracket. -/
def close? (token : Token) (s : Layout) : Option Layout := do
  let s ← s.dropCandidate?
  return { s.take token 1 with
    candidate := s.outer.head?.getD none
    outer := s.outer.tail
    keyAllowed := false }

/-- A comma. -/
def comma? (s : Layout) : Option Layout := do
  let s ← s.dropCandidate?
  return { s.take .comma 1 with keyAllowed := true }

/-- A dash. -/
def dash? (s : Layout) : Option Layout := do
  guard (s.inFlow || s.keyAllowed)
  let s ← (s.beginBlock .beginSeq).dropCandidate?
  return { s.take .dash 1 with keyAllowed := true }

/-- A question mark in front of a key. -/
def question? (s : Layout) : Option Layout := do
  guard (s.inFlow || s.keyAllowed)
  let s ← (s.beginBlock .beginMap).dropCandidate?
  return { s.take .key 1 with keyAllowed := !s.inFlow }

/-- A colon, which makes the candidate a key. -/
def colon? (s : Layout) : Option Layout :=
  match s.candidate with
  | some candidate =>
    let begins := s.isInner candidate.start.column
    let mark := if begins then .firstKey else .key
    let marked := s.marked.modify candidate.index fun (token, _) => (token, mark)
    some { { s with marked }.take .colon 1 with
      columns := if begins then candidate.start.column :: s.columns else s.columns
      candidate := none
      keyAllowed := false }
  | none => do
    guard (s.inFlow || s.keyAllowed)
    return { (s.beginBlock .beginMap).take .colon 1 with keyAllowed := !s.inFlow }

/-- A quoted scalar, given how to read it behind its first quote. -/
def quoted? (scan : Position → List Char → Option (List Piece × Cursor)) (s : Layout) :
    Option Layout := do
  let s ← s.saveCandidate?
  let start := s.cursor.next
  let (pieces, cursor) ← scan start.position start.rest
  return { s.add (.scalar (String.ofList (joinPieces {} pieces)) false) with
    cursor
    keyAllowed := false }

/-- A plain scalar. Behind one that ends with a break a key may start. -/
def plain? (s : Layout) : Option Layout := do
  let s ← s.saveCandidate?
  let indent := (s.columns.head?.map (· + 1)).getD 0
  let chars ← scanPlain s.inFlow indent s.column .word s.cursor.rest
  return { s.add (.scalar (plainText chars) true) with
    cursor := s.cursor.skip chars.length
    keyAllowed := (chars.drop (trimEnd chars).length).any isBreak }

/-- Takes the token that starts with a character. -/
def token? (c : Char) (rest : List Char) (s : Layout) : Option Layout :=
  if s.column == 0 && isAtStartMark (c :: rest) then s.mark? .documentStart
  else if s.column == 0 && isAtEndMark (c :: rest) then s.mark? .documentEnd
  else if c == '[' then s.open? .openSeq
  else if c == '\x7b' then s.open? .openMap
  else if c == ']' then s.close? .closeSeq
  else if c == '\x7d' then s.close? .closeMap
  else if c == ',' then s.comma?
  else if c == '-' && isAtSpace rest then s.dash?
  else if c == '?' && (s.inFlow || isAtSpace rest) then s.question?
  else if c == ':' && (s.inFlow || isAtSpace rest) then s.colon?
  else if c == '\'' then s.quoted? scanSingle
  else if c == '"' then s.quoted? scanDouble
  else if isSpace c || isIndicator c then none
  else s.plain?

/-- Cuts a text to its end, with at most so many tokens. -/
def run? : Nat → Layout → Option Layout
  | 0, _ => none
  | count + 1, s => do
    let s ← s.advance?
    match s.cursor.rest with
    | [] => (s.endBlocks none).dropCandidate?
    | c :: rest => run? count (← s.token? c rest)

/-- The tokens so far, those of keys included. -/
def tokens (s : Layout) : List Token :=
  s.marked.toList.flatMap fun (token, mark) =>
    match mark with
    | .none => [token]
    | .key => [.key, token]
    | .firstKey => [.beginMap, .key, token]

/-- The start of a text. -/
def ofText (text : List Char) : Layout := { cursor := { rest := text } }

end Layout

/-- The tokens of a text. Each of them takes at least one character. -/
def tokens? (text : String) : Option (List Token) :=
  if text.toList.all isAllowed then
    let chars := unifyBreaks text.toList
    ((Layout.ofText chars).run? (chars.length + 1)).map Layout.tokens
  else none

end Slicing.Yaml
