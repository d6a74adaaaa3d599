import Slicing.Json.Number

/-!
# JSON tokens

The lexical level of JSON: a text is cut into punctuation and literals
(`Json.tokens`). A text that is no sequence of tokens is cut up to the first
place where it fails, which becomes a `broken` token.

A literal is read as the value it denotes. Two kinds of literals are written
correctly and denote nothing: a number that is beyond the range of numbers
(`Json.unvalued`), and a string in which a `\uXXXX` escape is half of a surrogate
pair, which is a token of its own since it may also be the name of a member.
-/

namespace Slicing.Json

/-- A token of a JSON text. -/
inductive Token where
  | openObject
  | closeObject
  | openArray
  | closeArray
  | comma
  | colon
  /-- A literal, with the value it denotes. -/
  | literal (value : Json)
  /-- A string with half of a surrogate pair. -/
  | halfString
  /-- The text goes on, but not with a token. -/
  | broken

/-- The characters that may stand between two tokens. -/
def isSpace (c : Char) : Bool :=
  c == ' ' || c == '\n' || c == '\t' || c == '\r'

/-! ## Strings -/

/-- The value of a hexadecimal digit. -/
def hexDigit? (c : Char) : Option Nat :=
  if '0' ≤ c ∧ c ≤ '9' then some (c.toNat - '0'.toNat)
  else if 'a' ≤ c ∧ c ≤ 'f' then some (c.toNat - 'a'.toNat + 10)
  else if 'A' ≤ c ∧ c ≤ 'F' then some (c.toNat - 'A'.toNat + 10)
  else none

/-- The number written by four hexadecimal digits. -/
def hexUnit? (a b c d : Char) : Option Nat := do
  let a ← hexDigit? a
  let b ← hexDigit? b
  let c ← hexDigit? c
  let d ← hexDigit? d
  return ((a * 16 + b) * 16 + c) * 16 + d

/-- The character that a backslash and a letter stand for. -/
def escaped? : Char → Option Char
  | '"' => some '"'
  | '\\' => some '\\'
  | '/' => some '/'
  | 'b' => some '\x08'
  | 'f' => some '\x0c'
  | 'n' => some '\n'
  | 'r' => some '\r'
  | 't' => some '\t'
  | _ => none

/-- A part of a string literal: a character, or a unit written as `\uXXXX`. -/
inductive Piece where
  | char (c : Char)
  | unit (n : Nat)

/-- The pieces of a string literal up to its closing quote, and the text after
    it; `none` where the text holds no such literal. -/
def scanString : List Char → Option (List Piece × List Char)
  | [] => none
  | '"' :: rest => some ([], rest)
  | '\\' :: 'u' :: a :: b :: c :: d :: rest =>
    match hexUnit? a b c d, scanString rest with
    | some n, some (pieces, rest) => some (.unit n :: pieces, rest)
    | _, _ => none
  | '\\' :: e :: rest =>
    match escaped? e, scanString rest with
    | some c, some (pieces, rest) => some (.char c :: pieces, rest)
    | _, _ => none
  | c :: rest =>
    if c.toNat < 0x20 then none
    else match scanString rest with
      | some (pieces, rest) => some (.char c :: pieces, rest)
      | none => none

/-- Scanning a string takes at least the quote that ends it. -/
theorem scanString_length {text rest : List Char} {pieces : List Piece}
    (h : scanString text = some (pieces, rest)) : rest.length < text.length := by
  fun_induction scanString text generalizing pieces <;> simp at h ⊢ <;> grind

/-- A unit is the first half of a surrogate pair. -/
def isHighHalf (n : Nat) : Bool := 0xD800 ≤ n && n ≤ 0xDBFF

/-- A unit is the second half of a surrogate pair. -/
def isLowHalf (n : Nat) : Bool := 0xDC00 ≤ n && n ≤ 0xDFFF

/-- The text of a string literal; `none` if it holds half of a surrogate pair
    without the other half. -/
def joinPieces : List Piece → Option (List Char)
  | [] => some []
  | .unit hi :: .unit lo :: pieces =>
    if isHighHalf hi && isLowHalf lo then
      (joinPieces pieces).map (Char.ofNat (0x10000 + (hi - 0xD800) * 0x400 + (lo - 0xDC00)) :: ·)
    else if isHighHalf hi || isLowHalf hi then none
    else (joinPieces (.unit lo :: pieces)).map (Char.ofNat hi :: ·)
  | .unit n :: pieces =>
    if isHighHalf n || isLowHalf n then none else (joinPieces pieces).map (Char.ofNat n :: ·)
  | .char c :: pieces => (joinPieces pieces).map (c :: ·)

/-- The token of a string literal. -/
def Token.ofPieces (pieces : List Piece) : Token :=
  match joinPieces pieces with
  | some text => .literal (.str (String.ofList text))
  | none => .halfString

/-! ## Tokens -/

/-- The literal at the start of a text, and the text after it. -/
def scanLiteral : List Char → Option (Token × List Char)
  | 'n' :: 'u' :: 'l' :: 'l' :: rest => some (.literal .null, rest)
  | 't' :: 'r' :: 'u' :: 'e' :: rest => some (.literal (.bool true), rest)
  | 'f' :: 'a' :: 'l' :: 's' :: 'e' :: rest => some (.literal (.bool false), rest)
  | '"' :: rest => (scanString rest).map fun (pieces, rest) => (.ofPieces pieces, rest)
  | '-' :: rest => (scanMagnitude true rest).map fun (value, rest) => (.literal value, rest)
  | text => (scanMagnitude false text).map fun (value, rest) => (.literal value, rest)

/-- Scanning a literal takes its characters. -/
theorem scanLiteral_length {text rest : List Char} {token : Token}
    (h : scanLiteral text = some (token, rest)) : rest.length < text.length := by
  unfold scanLiteral at h
  split at h
  · simp only [Option.some.injEq, Prod.mk.injEq] at h; simp only [← h.2, List.length_cons]; omega
  · simp only [Option.some.injEq, Prod.mk.injEq] at h; simp only [← h.2, List.length_cons]; omega
  · simp only [Option.some.injEq, Prod.mk.injEq] at h; simp only [← h.2, List.length_cons]; omega
  · rename_i r
    rw [Option.map_eq_some_iff] at h
    obtain ⟨⟨pieces, r'⟩, hs, hr⟩ := h
    simp only [Prod.mk.injEq] at hr
    have := scanString_length hs
    rw [← hr.2, List.length_cons]
    omega
  · rw [Option.map_eq_some_iff] at h
    obtain ⟨⟨value, r'⟩, hs, hr⟩ := h
    simp only [Prod.mk.injEq] at hr
    have := scanMagnitude_length hs
    rw [← hr.2, List.length_cons]
    omega
  · rw [Option.map_eq_some_iff] at h
    obtain ⟨⟨value, r'⟩, hs, hr⟩ := h
    simp only [Prod.mk.injEq] at hr
    rw [← hr.2]
    exact scanMagnitude_length hs

/-- The tokens of a text, up to the end of the text or a `broken` one. -/
def tokens : List Char → List Token
  | [] => []
  | c :: rest =>
    if isSpace c then tokens rest
    else match c with
      | '{' => .openObject :: tokens rest
      | '}' => .closeObject :: tokens rest
      | '[' => .openArray :: tokens rest
      | ']' => .closeArray :: tokens rest
      | ',' => .comma :: tokens rest
      | ':' => .colon :: tokens rest
      | c =>
        match _h : scanLiteral (c :: rest) with
        | some (token, rest') => token :: tokens rest'
        | none => [.broken]
termination_by text => text.length
decreasing_by
  all_goals first
    | exact Nat.lt_succ_self _
    | exact (scanLiteral_length _h : _ < (rest.length + 1))

end Slicing.Json
