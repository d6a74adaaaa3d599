import Slicing.Yaml.Basic

/-!
# Writing YAML

Mappings are written with one key a line, each level indented by two blanks.
Scalars are written as they are: the values written by the library are numbers
and words of letters, which need no quotes. Keys are names.
-/

namespace Slicing.Yaml

mutual

/-- The text of a value behind the colon of its key, with the break in front of
    a mapping and behind a scalar. -/
def render (level : Nat) : Yaml → String
  | .scalar text _ => " " ++ text ++ "\n"
  | .seq items => "\n" ++ renderItems level items
  | .map entries => "\n" ++ renderEntries level entries

/-- The lines of the entries of a mapping. -/
def renderEntries (level : Nat) : List (Yaml × Yaml) → String
  | [] => ""
  | (key, value) :: entries =>
    "".pushn ' ' (2 * level) ++ key.text?.getD "" ++ ":" ++ render (level + 1) value ++
      renderEntries level entries

/-- The lines of the items of a sequence. -/
def renderItems (level : Nat) : List Yaml → String
  | [] => ""
  | item :: items =>
    "".pushn ' ' (2 * level) ++ "-" ++ render (level + 1) item ++ renderItems level items

end

/-- The text of a document. -/
def document : Yaml → String
  | .map entries => renderEntries 0 entries
  | .seq items => renderItems 0 items
  | .scalar text _ => text ++ "\n"

end Slicing.Yaml
