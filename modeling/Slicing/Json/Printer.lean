import Slicing.Json.Basic

/-!
# Writing JSON

Two layouts: `Json.compact` on one line without blanks, and `Json.pretty` with
one item or member a line, indented by two blanks a level, where empty
containers stay on one line. A string is written with the short escapes of the
format; the other control characters are written as `\u00xx`, and everything
else stands for itself.
-/

namespace Slicing.Json

/-- A character within a string literal. -/
def escapeChar (c : Char) : String :=
  match c with
  | '"' => "\\\""
  | '\\' => "\\\\"
  | '\n' => "\\n"
  | '\r' => "\\r"
  | '\t' => "\\t"
  | '\x08' => "\\b"
  | '\x0c' => "\\f"
  | c =>
    if c.toNat < 0x20 then
      "\\u00" ++ String.ofList [Nat.digitChar (c.toNat / 16), Nat.digitChar (c.toNat % 16)]
    else String.ofList [c]

/-- A string literal. -/
def quote (text : String) : String :=
  "\"" ++ String.join (text.toList.map escapeChar) ++ "\""

mutual

/-- A value on one line. The marks, which stand for no value, are written as
    `null`. -/
def compact : Json → String
  | .null | .unvalued | .unnamed _ | .broken => "null"
  | .bool true => "true"
  | .bool false => "false"
  | .nat n => toString n
  | .decimal literal => literal
  | .str text => quote text
  | .arr items => "[" ++ ",".intercalate (compactItems items) ++ "]"
  | .obj members => "\x7b" ++ ",".intercalate (compactMembers members) ++ "\x7d"

/-- The items of an array. -/
def compactItems : List Json → List String
  | [] => []
  | item :: items => compact item :: compactItems items

/-- The members of an object. -/
def compactMembers : List (String × Json) → List String
  | [] => []
  | (name, value) :: members => (quote name ++ ":" ++ compact value) :: compactMembers members

end

/-- The blanks in front of a line. -/
def indentation (level : Nat) : String :=
  "".pushn ' ' (2 * level)

mutual

/-- A value whose first line stands at a level of indentation. -/
def prettyAt (level : Nat) : Json → String
  | .arr [] => "[]"
  | .arr items =>
    "[\n" ++ ",\n".intercalate (prettyItems (level + 1) items) ++ "\n" ++ indentation level ++ "]"
  | .obj [] => "\x7b\x7d"
  | .obj members =>
    "\x7b\n" ++ ",\n".intercalate (prettyMembers (level + 1) members) ++ "\n" ++
      indentation level ++ "\x7d"
  | value => compact value

/-- The lines of the items of an array. -/
def prettyItems (level : Nat) : List Json → List String
  | [] => []
  | item :: items => (indentation level ++ prettyAt level item) :: prettyItems level items

/-- The lines of the members of an object. -/
def prettyMembers (level : Nat) : List (String × Json) → List String
  | [] => []
  | (name, value) :: members =>
    (indentation level ++ quote name ++ ": " ++ prettyAt level value) :: prettyMembers level members

end

/-- A value with one item or member a line. -/
def pretty (value : Json) : String := prettyAt 0 value

end Slicing.Json
