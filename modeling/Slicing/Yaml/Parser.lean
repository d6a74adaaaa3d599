import Slicing.Yaml.Token

/-!
# Reading YAML

The tokens of a text are read by the grammar of the format: a node is a scalar,
a collection in brackets, or a collection that the layout begins and ends. What
is left out where a node may stand is null.

The functions read from the front of a list of tokens, and give what they read
and the tokens behind it. Every fourth call at the latest takes a token, so that
four times the number of tokens bounds how deep they call each other.
-/

namespace Slicing.Yaml

/-- A text goes on with one of some tokens. -/
def nextIs (p : Token → Bool) (tokens : List Token) : Bool :=
  (tokens.head?.map p).getD false

namespace Token

/-- There is nothing between a dash and this token. -/
def endsItem : Token → Bool
  | .dash | .endBlock => true
  | _ => false

/-- There is nothing between a key mark or a colon and this token. -/
def endsPart : Token → Bool
  | .key | .colon | .endBlock => true
  | _ => false

/-- There is nothing between a colon in a sequence in brackets and this token. -/
def endsSeqValue : Token → Bool
  | .comma | .closeSeq => true
  | _ => false

/-- There is nothing between a key mark in a sequence in brackets and this token. -/
def endsSeqKey : Token → Bool
  | .colon => true
  | token => token.endsSeqValue

/-- There is nothing between a colon in a mapping in brackets and this token. -/
def endsMapValue : Token → Bool
  | .comma | .closeMap => true
  | _ => false

/-- There is nothing between a key mark in a mapping in brackets and this token. -/
def endsMapKey : Token → Bool
  | .colon => true
  | token => token.endsMapValue

end Token

/-- The tokens behind a comma, which is left out in front of the first part. -/
def afterComma? (first : Bool) : List Token → Option (List Token)
  | .comma :: rest => if first then none else some rest
  | tokens => if first then some tokens else none

/-- Where a node stands, which decides the collections without brackets it may be. -/
inductive Place where
  /-- Within brackets, where it is none of them. -/
  | flow
  /-- In a document or behind a dash. -/
  | item
  /-- The key or the value of an entry. A sequence there may have its dashes in the
      column of the key: then nothing but a dash begins it. -/
  | part

/-- A collection that the layout begins may stand here. -/
def Place.isBlock : Place → Bool
  | .flow => false
  | .item | .part => true

mutual

/-- Reads a node. -/
def node? (place : Place) : Nat → List Token → Option (Yaml × List Token)
  | 0, _ => none
  | fuel + 1, tokens =>
    match tokens with
    | .scalar text plain :: rest => some (.scalar text plain, rest)
    | .openSeq :: rest => (flowItems? true fuel rest).map fun (items, rest) => (.seq items, rest)
    | .openMap :: rest =>
      (flowEntries? true fuel rest).map fun (entries, rest) => (.map entries, rest)
    | .beginSeq :: rest =>
      if place.isBlock then
        (blockItems? fuel rest).map fun (items, rest) => (.seq items, rest)
      else none
    | .beginMap :: rest =>
      if place.isBlock then
        (blockEntries? fuel rest).map fun (entries, rest) => (.map entries, rest)
      else none
    | .dash :: rest =>
      if place matches .part then
        (looseItems? fuel (.dash :: rest)).map fun (items, rest) => (.seq items, rest)
      else none
    | _ => none

/-- Reads a node that may be left out in front of some tokens. -/
def nodeUnless? (left : Token → Bool) (place : Place) :
    Nat → List Token → Option (Yaml × List Token)
  | 0, _ => none
  | fuel + 1, tokens =>
    if nextIs left tokens then some (.null, tokens) else node? place fuel tokens

/-- Reads the items of a sequence that the layout ends. -/
def blockItems? : Nat → List Token → Option (List Yaml × List Token)
  | 0, _ => none
  | fuel + 1, tokens =>
    match tokens with
    | .endBlock :: rest => some ([], rest)
    | .dash :: rest => do
      let (item, rest) ← nodeUnless? Token.endsItem .item fuel rest
      let (items, rest) ← blockItems? fuel rest
      return (item :: items, rest)
    | _ => none

/-- Reads the items of a sequence in the column of its key, up to the last dash. -/
def looseItems? : Nat → List Token → Option (List Yaml × List Token)
  | 0, _ => none
  | fuel + 1, tokens =>
    match tokens with
    | .dash :: rest => do
      let (item, rest) ←
        nodeUnless? (fun token => token.endsItem || token.endsPart) .item fuel rest
      let (items, rest) ← looseItems? fuel rest
      return (item :: items, rest)
    | tokens => some ([], tokens)

/-- Reads the entries of a mapping that the layout ends. -/
def blockEntries? : Nat → List Token → Option (List (Yaml × Yaml) × List Token)
  | 0, _ => none
  | fuel + 1, tokens =>
    match tokens with
    | .endBlock :: rest => some ([], rest)
    | .key :: rest => do
      let (key, rest) ← nodeUnless? Token.endsPart .part fuel rest
      let (value, rest) ←
        match rest with
        | .colon :: rest => nodeUnless? Token.endsPart .part fuel rest
        | rest => some (.null, rest)
      let (entries, rest) ← blockEntries? fuel rest
      return ((key, value) :: entries, rest)
    | _ => none

/-- Reads the items of a sequence in brackets, up to the closing one. An item with a
    key is a mapping of one entry; if its key is left out, so is the token behind
    it. -/
def flowItems? (first : Bool) : Nat → List Token → Option (List Yaml × List Token)
  | 0, _ => none
  | fuel + 1, tokens =>
    match tokens with
    | .closeSeq :: rest => some ([], rest)
    | tokens => do
      match ← afterComma? first tokens with
      | .closeSeq :: rest => return ([], rest)
      | .key :: rest =>
        let (key, rest) ←
          if nextIs Token.endsSeqKey rest then some (.null, rest.tail) else node? .flow fuel rest
        let (value, rest) ← flowValue? Token.endsSeqValue fuel rest
        let (items, rest) ← flowItems? false fuel rest
        return (.map [(key, value)] :: items, rest)
      | rest =>
        let (item, rest) ← node? .flow fuel rest
        let (items, rest) ← flowItems? false fuel rest
        return (item :: items, rest)

/-- Reads the entries of a mapping in brackets, up to the closing one. -/
def flowEntries? (first : Bool) : Nat → List Token → Option (List (Yaml × Yaml) × List Token)
  | 0, _ => none
  | fuel + 1, tokens =>
    match tokens with
    | .closeMap :: rest => some ([], rest)
    | tokens => do
      match ← afterComma? first tokens with
      | .closeMap :: rest => return ([], rest)
      | .key :: rest =>
        let (key, rest) ← nodeUnless? Token.endsMapKey .flow fuel rest
        let (value, rest) ← flowValue? Token.endsMapValue fuel rest
        let (entries, rest) ← flowEntries? false fuel rest
        return ((key, value) :: entries, rest)
      | rest =>
        let (key, rest) ← node? .flow fuel rest
        let (entries, rest) ← flowEntries? false fuel rest
        return ((key, .null) :: entries, rest)

/-- Reads the value of a key within brackets, which may be left out in front of some
    tokens. -/
def flowValue? (left : Token → Bool) : Nat → List Token → Option (Yaml × List Token)
  | 0, _ => none
  | fuel + 1, tokens =>
    match tokens with
    | .colon :: rest => nodeUnless? left .flow fuel rest
    | rest => some (.null, rest)

end

/-- A token is the mark of a document. -/
def Token.isMark : Token → Bool
  | .documentStart | .documentEnd => true
  | _ => false

/-- The value of the only document of a text. Its start need not be marked, unless
    it is empty. -/
def ofTokens? (tokens : List Token) : Option Yaml := do
  let fuel := 4 * tokens.length + 4
  let (value, rest) ←
    match tokens with
    | .documentStart :: rest =>
      if rest.isEmpty then some (.null, []) else nodeUnless? Token.isMark .item fuel rest
    | tokens => node? .item fuel tokens
  if rest.all (· matches .documentEnd) then some value else none

/-- The value that a text writes. -/
def parse? (text : String) : Option Yaml := (tokens? text).bind ofTokens?

end Slicing.Yaml
