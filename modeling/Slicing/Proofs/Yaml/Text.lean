import Slicing.Proofs.Yaml.Layout
import Slicing.Yaml.Parser

/-!
# Reading back YAML

A mapping that is written is read back as it was (`parse?_document`), if all its keys and
scalars are words, no key is too long, and no mapping in it is empty (`isPlain`): an empty
mapping is written as nothing, and what is no word may need quotes.

The text of such a mapping is cut into its tokens (`tokens?_document`), and the tokens of a
value are read as that value, in front of anything (`node?_tokensOf`). Reading takes at
most two calls in depth for each token.
-/

namespace Slicing.Yaml

/-- A plain value is there: its tokens do not end a part. -/
theorem nextIs_tokensOf {value : Yaml} (h : isPlain value) (rest : List Token) :
    nextIs Token.endsPart (tokensOf value ++ rest) = false := by
  cases value with
  | scalar text plain => rfl
  | seq items => simp [isPlain] at h
  | map entries => rfl

/-- A value that has to stand somewhere. -/
theorem nodeUnless?_of_node? {fuel : Nat} {value : Yaml} (h : isPlain value) {rest : List Token}
    (hnode : node? .part fuel (tokensOf value ++ rest) = some (value, rest)) :
    nodeUnless? Token.endsPart .part (fuel + 1) (tokensOf value ++ rest) = some (value, rest) := by
  rw [nodeUnless?, nextIs_tokensOf h, if_neg (by decide), hnode]

mutual

/-- The tokens of a value are read as the value. -/
theorem node?_tokensOf : ∀ (value : Yaml), isPlain value → ∀ (place : Place), place.isBlock →
    ∀ (fuel : Nat) (rest : List Token), 2 * (tokensOf value).length ≤ fuel →
    node? place fuel (tokensOf value ++ rest) = some (value, rest)
  | .scalar text plain, _, place, _, fuel, rest, hfuel => by
    rw [tokensOf, List.length_singleton] at hfuel
    obtain ⟨fuel, rfl⟩ := Nat.exists_eq_add_one.2 (show 0 < fuel by omega)
    simp [tokensOf, node?]
  | .seq _, h, _, _, _, _, _ => by simp [isPlain] at h
  | .map entries, h, place, hplace, fuel, rest, hfuel => by
    simp only [isPlain, Bool.and_eq_true] at h
    simp only [tokensOf, List.length_cons, List.length_append, List.length_nil] at hfuel
    obtain ⟨fuel, rfl⟩ := Nat.exists_eq_add_one.2 (show 0 < fuel by omega)
    have hentries := blockEntries?_entryTokens entries h.2 fuel rest (by omega)
    simp [tokensOf, node?, hplace, hentries]

/-- The tokens of the entries of a mapping and its end are read as the entries. -/
theorem blockEntries?_entryTokens : ∀ (entries : List (Yaml × Yaml)), entriesPlain entries →
    ∀ (fuel : Nat) (rest : List Token), 2 * (entryTokens entries).length + 1 ≤ fuel →
    blockEntries? fuel (entryTokens entries ++ .endBlock :: rest) = some (entries, rest)
  | [], _, fuel, rest, hfuel => by
    obtain ⟨fuel, rfl⟩ := Nat.exists_eq_add_one.2 (show 0 < fuel by omega)
    simp [entryTokens, blockEntries?]
  | (.scalar key plain, value) :: entries, h, fuel, rest, hfuel => by
    simp only [entriesPlain, Bool.and_eq_true] at h
    obtain ⟨⟨⟨⟨rfl, hkey⟩, -⟩, hvalue⟩, hentries⟩ := h
    simp only [entryTokens, tokensOf, List.length_cons, List.length_append, List.length_nil]
      at hfuel
    obtain ⟨fuel, rfl⟩ := Nat.exists_eq_add_of_le' (show 2 ≤ fuel by omega)
    have hkey' : isPlain (.scalar key true) := by simp [isPlain, hkey]
    have hreadKey := nodeUnless?_of_node? hkey' (node?_tokensOf (.scalar key true) hkey' .part rfl
      fuel (.colon :: (tokensOf value ++ (entryTokens entries ++ .endBlock :: rest)))
      (by simp [tokensOf]; omega))
    have hreadValue := nodeUnless?_of_node? hvalue (node?_tokensOf value hvalue .part rfl fuel
      (entryTokens entries ++ .endBlock :: rest) (by omega))
    have hreadEntries := blockEntries?_entryTokens entries hentries (fuel + 1) rest (by omega)
    simp only [tokensOf, List.cons_append, List.nil_append] at hreadKey
    simp only [entryTokens, tokensOf, List.cons_append, List.nil_append, List.append_assoc]
    rw [blockEntries?]
    simp [hreadKey, hreadValue, hreadEntries]

end

/-- A mapping that is written is read back as it was. -/
theorem parse?_document {entries : List (Yaml × Yaml)} (h : isPlain (.map entries)) :
    parse? (document (.map entries)) = some (.map entries) := by
  have hread := node?_tokensOf (.map entries) h .item rfl
    (4 * (tokensOf (.map entries)).length + 4) [] (by omega)
  rw [List.append_nil, tokensOf] at hread
  rw [parse?, tokens?_document h, Option.bind_some, tokensOf, ofTokens?.eq_def]
  dsimp only
  rw [hread]
  rfl

end Slicing.Yaml
