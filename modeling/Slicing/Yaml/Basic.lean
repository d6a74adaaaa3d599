/-!
# YAML values

Configuration documents are YAML texts. A value is a scalar, a sequence or a
mapping; anchors, tags and block scalars are not part of the documents that are
read. The keys of a mapping may be any values, but only scalars are names.

Which type a scalar has is decided by whoever reads it: a number or a truth value
has to be written plainly, without quotes, while every scalar has a text.
-/

namespace Slicing

/-- A YAML value. -/
inductive Yaml where
  | scalar (text : String) (plain : Bool)
  | seq (items : List Yaml)
  | map (entries : List (Yaml × Yaml))
  deriving Inhabited

namespace Yaml

/-- The value of a key without one. -/
def null : Yaml := .scalar "" true

/-- A value is written as nothing. -/
def isNull : Yaml → Bool
  | .scalar text true => ["", "~", "null", "Null", "NULL"].contains text
  | _ => false

/-- The text of a scalar. -/
def text? : Yaml → Option String
  | .scalar text _ => some text
  | _ => none

/-- The truth value that a scalar is. -/
def bool? : Yaml → Option Bool
  | .scalar text true =>
    if ["true", "True", "TRUE"].contains text then some true
    else if ["false", "False", "FALSE"].contains text then some false
    else none
  | _ => none

/-- The value of a digit in a base. -/
def digit? (base : Nat) (c : Char) : Option Nat :=
  let value :=
    if '0' ≤ c ∧ c ≤ '9' then some (c.toNat - '0'.toNat)
    else if 'a' ≤ c ∧ c ≤ 'z' then some (c.toNat - 'a'.toNat + 10)
    else if 'A' ≤ c ∧ c ≤ 'Z' then some (c.toNat - 'A'.toNat + 10)
    else none
  value.filter (· < base)

/-- The number that some digits write after others. -/
def digits? (base value : Nat) : List Char → Option Nat
  | [] => some value
  | c :: digits => (digit? base c).bind fun d => digits? base (value * base + d) digits

/-- The number that at least one digit writes. -/
def numeral? (base : Nat) (digits : List Char) : Option Nat :=
  if digits.isEmpty then none else digits? base 0 digits

/-- The number that a text writes: in decimal without leading zeros, or in
    another base behind `0x`, `0o` or `0b`; a plus sign may stand in front. -/
def natOfText? (text : List Char) : Option Nat :=
  match (match text with | '+' :: rest => rest | text => text) with
  | '0' :: 'x' :: digits => numeral? 16 digits
  | '0' :: 'o' :: digits => numeral? 8 digits
  | '0' :: 'b' :: digits => numeral? 2 digits
  | '0' :: _ :: _ => none
  | digits => numeral? 10 digits

/-- The number that a scalar is. -/
def nat? : Yaml → Option Nat
  | .scalar text true => natOfText? text.toList
  | _ => none

/-- A number of 32 bits. -/
def uint32? (value : Yaml) : Option UInt32 :=
  (value.nat?.filter (· < UInt32.size)).map UInt32.ofNat

/-- A number of 64 bits. -/
def uint64? (value : Yaml) : Option UInt64 :=
  (value.nat?.filter (· < UInt64.size)).map UInt64.ofNat

/-- One of some words. -/
def word? {α : Type} (words : List (String × α)) (value : Yaml) : Option α :=
  value.text?.bind fun text => words.lookup text

/-! ## Mappings -/

/-- The keys that are known occur at most once. -/
def uniqueKeys (known : List String) (entries : List (String × Yaml)) : Bool :=
  known.all fun key => (entries.filter (·.1 == key)).length ≤ 1

/-- A mapping with some names as keys. -/
def record (entries : List (String × Yaml)) : Yaml :=
  .map (entries.map fun (name, value) => (.scalar name true, value))

/-- The entries of a mapping with some known keys, which may have others. All keys
    have to be names. -/
def entries? (known : List String) : Yaml → Option (List (String × Yaml))
  | .map entries => (entries.mapM named?).filter (uniqueKeys known)
  | _ => none
where
  /-- An entry by its name. -/
  named? (entry : Yaml × Yaml) : Option (String × Yaml) :=
    entry.1.text?.map fun name => (name, entry.2)

/-- The entries of a mapping that has only known keys. -/
def exactEntries? (known : List String) (value : Yaml) : Option (List (String × Yaml)) :=
  (value.entries? known).filter fun entries => entries.all fun entry => known.contains entry.1

/-- The entry of a key that has to be present. -/
def required? {α : Type} (decode : Yaml → Option α) (key : String)
    (entries : List (String × Yaml)) : Option α :=
  (entries.lookup key).bind decode

/-- The entry of a key with a default. -/
def defaulted? {α : Type} (decode : Yaml → Option α) (key : String) (default : α)
    (entries : List (String × Yaml)) : Option α :=
  match entries.lookup key with
  | some value => decode value
  | none => some default

/-- The entry of a key that may be absent or null. -/
def optional? {α : Type} (decode : Yaml → Option α) (key : String)
    (entries : List (String × Yaml)) : Option (Option α) :=
  match entries.lookup key with
  | some value => if value.isNull then some none else (decode value).map some
  | none => some none

end Yaml

end Slicing
