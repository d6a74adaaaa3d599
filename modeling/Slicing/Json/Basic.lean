/-!
# JSON values

The documents of the library are JSON texts. A `Json` value is a text as read
from left to right: besides the values of the format it has marks for what
a text may hold instead of a value, so that a decoder meets the faults of a
text in the order in which they stand in it.

* `unvalued` is a value that is written correctly but denotes nothing: a number
  beyond the range of numbers, a string with half of a surrogate pair, a
  container that is nested too deep;
* `broken` is the place where the text stops being JSON. It is always the last
  thing of a tree, and every container around it is one that the text never
  closes.

A member whose name denotes nothing is nameless, and keeps its value behind an
`unnamed` mark: it does no harm in an object that is ignored. An object that
breaks off before the name of its next member ends with a nameless member that
holds the mark.

The members of an object keep their order and their repetitions.
-/

namespace Slicing

/-- A JSON value, or as much of one as a text holds. -/
inductive Json where
  | null
  | bool (value : Bool)
  /-- A number written with digits only. -/
  | nat (value : Nat)
  /-- Any other number (signed, with a fraction or an exponent), as written. -/
  | decimal (literal : String)
  | str (value : String)
  | arr (items : List Json)
  | obj (members : List (String × Json))
  /-- What is written like a value and denotes none. -/
  | unvalued
  /-- The value of a member whose name denotes nothing. -/
  | unnamed (value : Json)
  /-- The place where the text stops being JSON. -/
  | broken
  deriving Inhabited

namespace Json

/-- An array of the encoded elements of a list. -/
def ofList {α : Type} (encode : α → Json) (items : List α) : Json :=
  .arr (items.map encode)

/-- A value, or `null`. -/
def ofOption {α : Type} (encode : α → Json) : Option α → Json
  | some a => encode a
  | none => .null

/-- The value of the first member with a given name. -/
def field? (name : String) : Json → Option Json
  | .obj members => members.lookup name
  | _ => none

mutual

/-- A value has no `broken` mark in it: the text goes on after it. -/
def isWhole : Json → Bool
  | .arr items => areWhole items
  | .obj members => membersWhole members
  | .unnamed value => isWhole value
  | .broken => false
  | _ => true

/-- Each of some values is whole. -/
def areWhole : List Json → Bool
  | [] => true
  | item :: items => isWhole item && areWhole items

/-- The value of each of some members is whole. -/
def membersWhole : List (String × Json) → Bool
  | [] => true
  | (_, value) :: members => isWhole value && membersWhole members

end

mutual

/-- A value has no mark in it: every part of it denotes a value. -/
def isValued : Json → Bool
  | .arr items => areValued items
  | .obj members => membersValued members
  | .broken | .unvalued | .unnamed _ => false
  | _ => true

/-- Each of some values is valued. -/
def areValued : List Json → Bool
  | [] => true
  | item :: items => isValued item && areValued items

/-- The value of each of some members is valued. -/
def membersValued : List (String × Json) → Bool
  | [] => true
  | (_, value) :: members => isValued value && membersValued members

end

mutual

/-- The number of containers around the innermost value. -/
def depth : Json → Nat
  | .arr items => itemsDepth items + 1
  | .obj members => membersDepth members + 1
  | .unnamed value => depth value
  | _ => 0

/-- The greatest depth of some values. -/
def itemsDepth : List Json → Nat
  | [] => 0
  | item :: items => max (depth item) (itemsDepth items)

/-- The greatest depth of the values of some members. -/
def membersDepth : List (String × Json) → Nat
  | [] => 0
  | (_, value) :: members => max (depth value) (membersDepth members)

end

end Json

end Slicing
