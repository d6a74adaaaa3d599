import Mathlib.Algebra.Group.Nat.Defs
import Mathlib.Data.List.TakeWhile
import Slicing.Json.Parser
import Slicing.Json.Printer

/-!
# Reading back JSON

A value that is written with one item or member a line is read back as it was
(`read_pretty`), if it has none of the marks that stand for parts of broken texts, its
numbers are small enough to be exact (`isPlain`), and it does not nest too deep.

In between stand the tokens of a value (`tokensOf`): the text of a value is cut into them,
whatever its indentation (`tokens_prettyAt`), and reading them passes from the place where a
value is expected to the place behind it (`run_tokensOf`). Both are proved for a value in
front of anything, so that items and members follow one another.
-/

namespace Slicing.Json

/-! ## Strings -/

/-- The escape of a control character is read back. -/
theorem hexUnit?_digitChar {n : Nat} (hn : n < 0x20) :
    hexUnit? '0' '0' (Nat.digitChar (n / 16)) (Nat.digitChar (n % 16)) = some n := by
  have h : ∀ n < 0x20,
      hexUnit? '0' '0' (Nat.digitChar (n / 16)) (Nat.digitChar (n % 16)) = some n := by decide
  exact h n hn

/-- A unit that is no half of a surrogate pair stands for a character. -/
theorem joinPieces_unit {n : Nat} (hn : n < 0x20) (pieces : List Piece) :
    joinPieces (.unit n :: pieces) = (joinPieces pieces).map (Char.ofNat n :: ·) := by
  have hhigh : isHighHalf n = false := by simp [isHighHalf]; omega
  have hlow : isLowHalf n = false := by simp [isLowHalf]; omega
  cases pieces with
  | nil => simp [joinPieces, hhigh, hlow]
  | cons piece pieces =>
    cases piece with
    | char c => simp [joinPieces, hhigh, hlow]
    | unit lo => simp [joinPieces, hhigh, hlow]

theorem joinPieces_char (c : Char) (pieces : List Piece) :
    joinPieces (.char c :: pieces) = (joinPieces pieces).map (c :: ·) := by
  rw [joinPieces]

/-- A character that needs no escape stands for itself. -/
theorem scanString_plain {c : Char} (hquote : c ≠ '"') (hslash : c ≠ '\\')
    (hc : ¬c.toNat < 0x20) (text : List Char) :
    scanString (c :: text) =
      (scanString text).map fun (pieces, rest) => (.char c :: pieces, rest) := by
  rw [scanString.eq_def]
  split <;> grind

/-- A character is written as a piece that stands for it. -/
theorem scanString_escapeChar (c : Char) {text rest : List Char} {pieces : List Piece}
    (h : scanString text = some (pieces, rest)) :
    ∃ piece, scanString ((escapeChar c).toList ++ text) = some (piece :: pieces, rest) ∧
      joinPieces (piece :: pieces) = (joinPieces pieces).map (c :: ·) := by
  unfold escapeChar
  split
  case h_8 hquote hslash _ _ _ _ _ =>
    split
    · rename_i hc
      refine ⟨.unit c.toNat, ?_, by rw [joinPieces_unit hc, Char.ofNat_toNat]⟩
      simp [scanString, hexUnit?_digitChar hc, h]
    · rename_i hc
      refine ⟨.char c, ?_, joinPieces_char c pieces⟩
      simp [scanString_plain hquote hslash hc, h]
  all_goals exact ⟨.char _, by simp [scanString, escaped?, h], joinPieces_char _ pieces⟩

/-- The text of a string literal behind its opening quote. -/
theorem scanString_quote (text rest : List Char) :
    ∃ pieces, scanString (text.flatMap (fun c => (escapeChar c).toList) ++ '"' :: rest) =
        some (pieces, rest) ∧ joinPieces pieces = some text := by
  induction text with
  | nil => exact ⟨[], by simp [scanString], by simp [joinPieces]⟩
  | cons c text ih =>
    obtain ⟨pieces, hscan, hjoin⟩ := ih
    obtain ⟨piece, hscan', hjoin'⟩ := scanString_escapeChar c hscan
    refine ⟨piece :: pieces, ?_, by rw [hjoin', hjoin]; rfl⟩
    rw [List.flatMap_cons, List.append_assoc, hscan']

/-! ## Tokens -/

/-- A literal is cut off in front of what follows. -/
theorem tokens_literal {c : Char} {text rest : List Char} {token : Token} (hspace : isSpace c = false)
    (hmark : c ∉ ['{', '}', '[', ']', ',', ':'])
    (h : scanLiteral (c :: text) = some (token, rest)) :
    tokens (c :: text) = token :: tokens rest := by
  simp only [List.mem_cons, List.not_mem_nil, or_false, not_or] at hmark
  rw [tokens] <;> grind

theorem tokens_space {c : Char} (hspace : isSpace c) (rest : List Char) :
    tokens (c :: rest) = tokens rest := by
  rw [tokens.eq_def]
  simp [hspace]

/-- Indentation is skipped. -/
theorem tokens_indentation (level : Nat) (rest : List Char) :
    tokens ((indentation level).toList ++ rest) = tokens rest := by
  rw [indentation, String.pushn_eq_repeat_push]
  induction 2 * level generalizing rest with
  | zero => simp [Nat.repeat]
  | succ n ih =>
    rw [Nat.repeat, String.toList_push, List.append_assoc, ih]
    exact tokens_space rfl rest

theorem toList_quote (text : String) : (quote text).toList =
    '"' :: text.toList.flatMap (fun c => (escapeChar c).toList) ++ ['"'] := by
  simp [quote, List.flatMap_map]

/-- A quoted text is one token. -/
theorem tokens_quote (text : String) (rest : List Char) :
    tokens ((quote text).toList ++ rest) = .literal (.str text) :: tokens rest := by
  obtain ⟨pieces, hscan, hjoin⟩ := scanString_quote text.toList rest
  have hliteral : scanLiteral ('"' :: (text.toList.flatMap (fun c => (escapeChar c).toList) ++
      '"' :: rest)) = some (.literal (.str text), rest) := by
    simp [scanLiteral, hscan, Token.ofPieces, hjoin]
  rw [toList_quote, List.cons_append, List.cons_append, List.append_assoc, List.singleton_append]
  exact tokens_literal rfl (by decide) hliteral

/-! ## Numbers -/

/-- Nothing that could belong to a number stands at the start of a text. -/
def Delimited (rest : List Char) : Prop := ∀ c ∈ rest.head?, c = ',' ∨ c = '\n'

/-- The digits of a number are digits. -/
theorem isDigit_of_mem_toDigits {n : Nat} {c : Char} (hc : c ∈ Nat.toDigits 10 n) :
    isDigit c = true := by
  have h : c.isDigit := Nat.isDigit_of_mem_toDigits (by decide) (by decide) hc
  simpa [Char.isDigit, isDigit, Char.le_def] using h

/-- Only the number zero starts with a zero. -/
theorem head?_toDigits {n : Nat} (hn : 0 < n) : (Nat.toDigits 10 n).head? ≠ some '0' := by
  induction n using Nat.strongRecOn with
  | ind n ih =>
    by_cases h : n < 10
    · rw [Nat.toDigits_of_lt_base h]
      simpa using Nat.ne_of_gt hn
    · rw [Nat.toDigits_of_base_le (by decide) (Nat.le_of_not_lt h), List.head?_append]
      intro hzero
      rcases Option.or_eq_some_iff.1 hzero with hzero | ⟨hnone, -⟩
      · exact ih (n / 10) (by omega) (by omega) hzero
      · exact Nat.toDigits_ne_nil (List.head?_eq_none_iff.1 hnone)

/-- Digits that fit into 64 bits are all taken in. -/
theorem takeDigits_eq {digits : List Char} {significand : Nat}
    (h : Nat.ofDigitChars 10 digits significand < UInt64.size) :
    takeDigits significand digits = (Nat.ofDigitChars 10 digits significand, []) := by
  induction digits generalizing significand with
  | nil => simp [takeDigits]
  | cons c digits ih =>
    rw [Nat.ofDigitChars_cons, Nat.mul_comm] at h ⊢
    have hnext : significand * 10 + (c.toNat - '0'.toNat) < UInt64.size := by
      rw [Nat.ofDigitChars_eq_ofDigitChars_zero] at h
      have hpow : 0 < 10 ^ digits.length := Nat.pow_pos (by decide)
      have := Nat.le_mul_of_pos_left (significand * 10 + (c.toNat - '0'.toNat)) hpow
      omega
    rw [takeDigits, if_pos hnext, ih h]

/-- Digits are read as the library reads them. -/
theorem ofDigits_eq (digits : List Char) : ofDigits digits = Nat.ofDigitChars 10 digits 0 := by
  simp only [ofDigits, Nat.ofDigitChars, Nat.mul_comm]

/-- A small power is below a difference of large ones. -/
theorem lt_of_pow_sub_pow {a b c n bound : Nat} (hbound : bound = Nat.pow 2 c - Nat.pow 2 b)
    (hab : a < b) (hbc : b < c) (hn : n < 2 ^ a) : n < bound := by
  have hdouble {a b : Nat} (h : a < b) : 2 ^ a * 2 ≤ 2 ^ b :=
    Nat.pow_succ 2 a ▸ Nat.pow_le_pow_right (by decide) h
  have hlarge := hdouble hbc
  have hsmall := hdouble hab
  rw [hbound]
  simp only [Nat.pow_eq]
  omega

/-- Small whole numbers are within the range of doubles. -/
theorem lt_numberBound {n : Nat} (hn : n < 2 ^ 53) : n < numberBound :=
  lt_of_pow_sub_pow numberBound.eq_def (by decide) (by decide) hn

theorem nearestDouble_exact {n : Nat} (hn : n < 2 ^ 53) : nearestDouble n = n := if_pos hn

theorem inRange_exact {n : Nat} (hn : n < 2 ^ 53) : inRange n 0 0 := by
  have hone : nearestDouble 1 = 1 := nearestDouble_exact (by decide)
  simp [inRange, nearestDouble_exact hn, hone, lt_numberBound hn]

/-- A small whole number is read back from its digits. -/
theorem ofNumberParts_toDigits {n : Nat} (hn : n < 2 ^ 53) :
    ofNumberParts false (Nat.toDigits 10 n) [] [] [] = .nat n := by
  have htake : takeDigits 0 (Nat.toDigits 10 n) = (n, []) := by
    rw [takeDigits_eq, Nat.ofDigitChars_ten_toDigits]
    rw [Nat.ofDigitChars_ten_toDigits]
    exact Nat.lt_trans hn (by decide)
  simp [ofNumberParts, htake, takeDigits, inRange_exact hn, ofDigits_eq]

/-- The digits of a small whole number are scanned up to where they end. -/
theorem scanMagnitude_toDigits {n : Nat} (hn : n < 2 ^ 53) {rest : List Char}
    (hrest : Delimited rest) :
    scanMagnitude false (Nat.toDigits 10 n ++ rest) = some (.nat n, rest) := by
  have hdigits : ∀ c ∈ Nat.toDigits 10 n, isDigit c := fun c hc => isDigit_of_mem_toDigits hc
  -- a delimiter stands behind the digits, so that no fraction and no exponent is read
  have htake : rest.takeWhile isDigit = [] ∧ rest.dropWhile isDigit = rest := by
    cases rest with
    | nil => simp
    | cons c rest =>
      have hc : isDigit c = false := by
        rcases hrest c rfl with rfl | rfl <;> rfl
      simp [hc]
  have hzero : ((Nat.toDigits 10 n).head? == some '0' && decide (1 < (Nat.toDigits 10 n).length)) =
      false := by
    by_cases h : n = 0
    · subst h
      rfl
    · simp [head?_toDigits (Nat.pos_of_ne_zero h)]
  have hfraction : scanFraction rest = some ([], rest) := by
    cases rest with
    | nil => rfl
    | cons c rest => rcases hrest c rfl with rfl | rfl <;> rfl
  have hexponent : scanExponent rest = some (([], []), rest) := by
    cases rest with
    | nil => rfl
    | cons c rest => rcases hrest c rfl with rfl | rfl <;> rfl
  rw [scanMagnitude, List.takeWhile_append_of_pos hdigits, List.dropWhile_append_of_pos hdigits,
    htake.1, htake.2, List.append_nil]
  simp [hzero, Nat.toDigits_ne_nil, hfraction, hexponent, ofNumberParts_toDigits hn]

/-- A literal that starts with a digit is a number. -/
theorem scanLiteral_digit {c : Char} (hc : isDigit c) (text : List Char) :
    scanLiteral (c :: text) =
      (scanMagnitude false (c :: text)).map fun (value, rest) => (.literal value, rest) := by
  rw [scanLiteral.eq_def]
  split <;> simp_all [isDigit]

/-- A small whole number is one token. -/
theorem tokens_nat {n : Nat} (hn : n < 2 ^ 53) {rest : List Char} (hrest : Delimited rest) :
    tokens ((toString n).toList ++ rest) = .literal (.nat n) :: tokens rest := by
  have hscan := scanMagnitude_toDigits hn hrest
  rw [Nat.toString_eq_repr, Nat.toList_repr]
  generalize hd : Nat.toDigits 10 n = digits at *
  cases digits with
  | nil => exact absurd hd Nat.toDigits_ne_nil
  | cons c digits =>
    have hc : isDigit c := isDigit_of_mem_toDigits (n := n) (by simp [hd])
    rw [List.cons_append] at hscan ⊢
    refine tokens_literal ?_ ?_ (by rw [scanLiteral_digit hc, hscan]; rfl)
    · simp only [isSpace, Bool.or_eq_false_iff, beq_eq_false_iff_ne]
      refine ⟨⟨⟨?_, ?_⟩, ?_⟩, ?_⟩ <;> rintro rfl <;> simp [isDigit] at hc
    · simp only [List.mem_cons, List.not_mem_nil, or_false, not_or]
      refine ⟨?_, ?_, ?_, ?_, ?_, ?_⟩ <;> rintro rfl <;> simp [isDigit] at hc

/-! ## Values -/

mutual

/-- A value has no marks and no numbers but small whole ones. -/
def isPlain : Json → Bool
  | .null | .bool _ | .str _ => true
  | .nat n => n < 2 ^ 53
  | .arr items => arePlain items
  | .obj members => membersPlain members
  | .decimal _ | .unvalued | .unnamed _ | .broken => false

/-- Each of some values is plain. -/
def arePlain : List Json → Bool
  | [] => true
  | item :: items => isPlain item && arePlain items

/-- The value of each of some members is plain. -/
def membersPlain : List (String × Json) → Bool
  | [] => true
  | (_, value) :: members => isPlain value && membersPlain members

end

mutual

/-- A plain value has no marks. -/
theorem isValued_of_isPlain : ∀ value, isPlain value → isValued value
  | .null, _ | .bool _, _ | .nat _, _ | .str _, _ => rfl
  | .arr items, h => areValued_of_arePlain items h
  | .obj members, h => membersValued_of_membersPlain members h

/-- Plain values have values. -/
theorem areValued_of_arePlain : ∀ items, arePlain items → areValued items
  | [], _ => rfl
  | item :: items, h => by
    simp only [arePlain, Bool.and_eq_true] at h
    simp [areValued, isValued_of_isPlain item h.1, areValued_of_arePlain items h.2]

theorem membersValued_of_membersPlain : ∀ members, membersPlain members → membersValued members
  | [], _ => rfl
  | (_, value) :: members, h => by
    simp only [membersPlain, Bool.and_eq_true] at h
    simp [membersValued, isValued_of_isPlain value h.1, membersValued_of_membersPlain members h.2]

end

/-- A list of plain items is plain. -/
theorem isPlain_ofList {α : Type} {encode : α → Json} {items : List α}
    (h : ∀ a ∈ items, isPlain (encode a)) : isPlain (ofList encode items) := by
  rw [ofList, isPlain]
  induction items with
  | nil => rfl
  | cons a items ih =>
    rw [List.map_cons, arePlain, h a List.mem_cons_self,
      ih fun a ha => h a (List.mem_cons_of_mem _ ha)]
    rfl

/-- A plain value that may be missing is plain. -/
theorem isPlain_ofOption {α : Type} {encode : α → Json} {value : Option α}
    (h : ∀ a ∈ value, isPlain (encode a)) : isPlain (ofOption encode value) := by
  cases value with
  | none => rfl
  | some a => exact h a rfl

mutual

/-- The tokens of a value. -/
def tokensOf : Json → List Token
  | .arr [] => [.openArray, .closeArray]
  | .arr (item :: items) =>
    .openArray :: (tokensOf item ++ (laterItems items ++ [.closeArray]))
  | .obj [] => [.openObject, .closeObject]
  | .obj ((name, value) :: members) =>
    .openObject :: .literal (.str name) :: .colon ::
      (tokensOf value ++ (laterMembers members ++ [.closeObject]))
  | value => [.literal value]

/-- The tokens of the items of an array behind the first. -/
def laterItems : List Json → List Token
  | [] => []
  | item :: items => .comma :: (tokensOf item ++ laterItems items)

/-- The tokens of the members of an object behind the first. -/
def laterMembers : List (String × Json) → List Token
  | [] => []
  | (name, value) :: members =>
    .comma :: .literal (.str name) :: .colon :: (tokensOf value ++ laterMembers members)

end

/-- The marks between literals are tokens. -/
theorem tokens_mark (rest : List Char) :
    tokens ('[' :: rest) = .openArray :: tokens rest ∧ tokens (']' :: rest) = .closeArray :: tokens rest ∧
    tokens ('{' :: rest) = .openObject :: tokens rest ∧
    tokens ('}' :: rest) = .closeObject :: tokens rest ∧
    tokens (',' :: rest) = .comma :: tokens rest ∧ tokens (':' :: rest) = .colon :: tokens rest := by
  simp [tokens, isSpace]

/-- The text of the items or members of a container behind the first. -/
def laterText (texts : List String) : List Char :=
  texts.flatMap fun text => ',' :: '\n' :: text.toList

/-- Texts with commas between them start with the first one. -/
theorem toList_intercalate_cons (text : String) (texts : List String) :
    (",\n".intercalate (text :: texts)).toList = text.toList ++ laterText texts := by
  induction texts generalizing text with
  | nil => simp [laterText]
  | cons next texts ih =>
    rw [String.intercalate_cons_cons, String.toList_append, ih]
    simp [laterText]

/-- A number in front of further items or of the end of a line ends there. -/
theorem delimited_laterText (texts : List String) (rest : List Char) :
    Delimited (laterText texts ++ '\n' :: rest) := by
  cases texts <;> simp [Delimited, laterText]

mutual

/-- The text of a value is cut into its tokens. -/
theorem tokens_prettyAt (level : Nat) {rest : List Char} (hrest : Delimited rest) : ∀ value,
    isPlain value → tokens ((prettyAt level value).toList ++ rest) = tokensOf value ++ tokens rest
  | .null, _ => by
    have h : scanLiteral ('n' :: 'u' :: 'l' :: 'l' :: rest) = some (.literal .null, rest) := rfl
    simpa [prettyAt, compact, tokensOf] using tokens_literal rfl (by decide) h
  | .bool true, _ => by
    have h : scanLiteral ('t' :: 'r' :: 'u' :: 'e' :: rest) =
        some (.literal (.bool true), rest) := rfl
    simpa [prettyAt, compact, tokensOf] using tokens_literal rfl (by decide) h
  | .bool false, _ => by
    have h : scanLiteral ('f' :: 'a' :: 'l' :: 's' :: 'e' :: rest) =
        some (.literal (.bool false), rest) := rfl
    simpa [prettyAt, compact, tokensOf] using tokens_literal rfl (by decide) h
  | .nat n, h => by
    simpa [prettyAt, compact, tokensOf] using tokens_nat (of_decide_eq_true h) hrest
  | .str text, _ => by
    simpa [prettyAt, compact, tokensOf] using tokens_quote text rest
  | .arr [], _ => by
    simp [prettyAt, tokensOf, tokens_mark]
  | .arr (item :: items), h => by
    simp only [isPlain, arePlain, Bool.and_eq_true] at h
    have hlater := tokens_laterItems (level + 1) ((indentation level).toList ++ ']' :: rest) items h.2
    have hitem := tokens_prettyAt (level + 1) (delimited_laterText (prettyItems (level + 1) items)
      ((indentation level).toList ++ ']' :: rest)) item h.1
    simp only [prettyAt, prettyItems, String.toList_append, toList_intercalate_cons]
    simp [tokensOf, tokens_mark, tokens_space, tokens_indentation, isSpace, hitem, hlater]
  | .obj [], _ => by
    simp [prettyAt, tokensOf, tokens_mark]
  | .obj ((name, value) :: members), h => by
    simp only [isPlain, membersPlain, Bool.and_eq_true] at h
    have hlater := tokens_laterMembers (level + 1) ((indentation level).toList ++ '}' :: rest)
      members h.2
    have hvalue := tokens_prettyAt (level + 1) (delimited_laterText
      (prettyMembers (level + 1) members) ((indentation level).toList ++ '}' :: rest)) value h.1
    simp only [prettyAt, prettyMembers, String.toList_append, toList_intercalate_cons]
    simp [tokensOf, tokens_mark, tokens_space, tokens_indentation, tokens_quote, isSpace, hvalue,
      hlater]

/-- The text of further items is cut into their tokens. -/
theorem tokens_laterItems (level : Nat) (rest : List Char) : ∀ items, arePlain items →
    tokens (laterText (prettyItems level items) ++ '\n' :: rest) = laterItems items ++ tokens rest
  | [], _ => by
    simp [prettyItems, laterItems, laterText, tokens_space, isSpace]
  | item :: items, h => by
    simp only [arePlain, Bool.and_eq_true] at h
    have hlater := tokens_laterItems level rest items h.2
    have hitem := tokens_prettyAt level (delimited_laterText (prettyItems level items) rest) item h.1
    rw [laterText] at hlater hitem
    simp [prettyItems, laterItems, laterText, tokens_mark, tokens_space, isSpace,
      tokens_indentation, hlater, hitem]

/-- The text of further members is cut into their tokens. -/
theorem tokens_laterMembers (level : Nat) (rest : List Char) : ∀ members, membersPlain members →
    tokens (laterText (prettyMembers level members) ++ '\n' :: rest) =
      laterMembers members ++ tokens rest
  | [], _ => by
    simp [prettyMembers, laterMembers, laterText, tokens_space, isSpace]
  | (name, value) :: members, h => by
    simp only [membersPlain, Bool.and_eq_true] at h
    have hlater := tokens_laterMembers level rest members h.2
    have hvalue := tokens_prettyAt level (delimited_laterText (prettyMembers level members) rest)
      value h.1
    rw [laterText] at hlater hvalue
    simp [prettyMembers, laterMembers, laterText, tokens_mark, tokens_space, isSpace,
      tokens_indentation, tokens_quote, hlater, hvalue]

end

/-! ## Reading -/

/-- The first item of an array stands where a value is expected. -/
theorem run_item (frames : List Frame) {tokens : List Token} (h : tokens.head? ≠ some .closeArray) :
    Reading.run ⟨frames, .item⟩ tokens = Reading.run ⟨.array [] :: frames, .value⟩ tokens := by
  cases tokens with
  | nil => simp [Reading.run, Reading.breakOff]
  | cons token tokens =>
    cases token <;> simp_all [Reading.run, Reading.step, Reading.breakOff]

/-- The tokens of a value do not start with the end of an array. -/
theorem head?_tokensOf (value : Json) (rest : List Token) :
    (tokensOf value ++ rest).head? ≠ some .closeArray := by
  cases value with
  | arr items => cases items <;> simp [tokensOf]
  | obj members => rcases members with _ | ⟨⟨name, value⟩, members⟩ <;> simp [tokensOf]
  | _ => simp [tokensOf]

/-- Containers may be nested below the limit. -/
theorem nested_eq {frames : List Frame} (h : frames.length + 1 < nestingLimit) (container : Json) :
    nested frames container = container := by
  rw [nested, if_pos h]

mutual

/-- The tokens of a value lead from the place where it is expected to the place behind it. -/
theorem run_tokensOf : ∀ (value : Json) (frames : List Frame) (rest : List Token),
    frames.length + value.depth < nestingLimit →
    Reading.run ⟨frames, .value⟩ (tokensOf value ++ rest) =
      Reading.run ⟨frames, .separator value⟩ rest
  | .null, _, _, _ | .bool _, _, _, _ | .nat _, _, _, _ | .decimal _, _, _, _ | .str _, _, _, _
  | .unvalued, _, _, _ | .unnamed _, _, _, _ | .broken, _, _, _ => by
    simp [tokensOf, Reading.run, Reading.step]
  | .arr [], frames, rest, h => by
    simp only [depth, itemsDepth] at h
    simp [tokensOf, Reading.run, Reading.step, Reading.step.closed, nested_eq h]
  | .arr (item :: items), frames, rest, h => by
    simp only [depth, itemsDepth] at h
    have hitem := run_tokensOf item (.array [] :: frames) (laterItems items ++ .closeArray :: rest)
      (by simp only [List.length_cons]; omega)
    have hlater := run_laterItems items [] item frames rest (by omega) (by omega)
    simp only [tokensOf, List.cons_append, List.append_assoc, List.nil_append]
    rw [Reading.run]
    simp only [Reading.step]
    rw [run_item frames (head?_tokensOf item _), hitem, hlater]
    simp
  | .obj [], frames, rest, h => by
    simp only [depth, membersDepth] at h
    simp [tokensOf, Reading.run, Reading.step, Reading.step.closed, nested_eq h]
  | .obj ((name, value) :: members), frames, rest, h => by
    simp only [depth, membersDepth] at h
    have hvalue := run_tokensOf value (.object [] (some name) :: frames)
      (laterMembers members ++ .closeObject :: rest) (by simp only [List.length_cons]; omega)
    have hlater := run_laterMembers members [] name value frames rest (by omega) (by omega)
    simp only [tokensOf, List.cons_append, List.append_assoc, List.nil_append]
    simp [Reading.run, Reading.step, hvalue, hlater]

/-- The tokens of further items lead to the place behind the array. -/
theorem run_laterItems : ∀ (items before : List Json) (value : Json) (frames : List Frame)
    (rest : List Token), frames.length + (itemsDepth items + 1) < nestingLimit →
    frames.length + 1 < nestingLimit →
    Reading.run ⟨.array before :: frames, .separator value⟩
        (laterItems items ++ .closeArray :: rest) =
      Reading.run ⟨frames, .separator (.arr (before.reverse ++ value :: items))⟩ rest
  | [], before, value, frames, rest, _, h => by
    simp [laterItems, Reading.run, Reading.step, Reading.step.closed, nested_eq h]
  | item :: items, before, value, frames, rest, hd, h => by
    simp only [itemsDepth] at hd
    have hitem := run_tokensOf item (.array (value :: before) :: frames)
      (laterItems items ++ .closeArray :: rest) (by simp only [List.length_cons]; omega)
    have hlater := run_laterItems items (value :: before) item frames rest (by omega) h
    simp only [laterItems, List.cons_append, List.append_assoc]
    rw [Reading.run]
    simp [Reading.step, hitem, hlater]

/-- The tokens of further members lead to the place behind the object. -/
theorem run_laterMembers : ∀ (members before : List (String × Json)) (name : String) (value : Json)
    (frames : List Frame) (rest : List Token),
    frames.length + (membersDepth members + 1) < nestingLimit →
    frames.length + 1 < nestingLimit →
    Reading.run ⟨.object before (some name) :: frames, .separator value⟩
        (laterMembers members ++ .closeObject :: rest) =
      Reading.run ⟨frames, .separator (.obj (before.reverse ++ (name, value) :: members))⟩ rest
  | [], before, name, value, frames, rest, _, h => by
    simp [laterMembers, Reading.run, Reading.step, Reading.step.closed, nested_eq h, member]
  | (next, value') :: members, before, name, value, frames, rest, hd, h => by
    simp only [membersDepth] at hd
    have hvalue := run_tokensOf value' (.object ((name, value) :: before) (some next) :: frames)
      (laterMembers members ++ .closeObject :: rest) (by simp only [List.length_cons]; omega)
    have hlater := run_laterMembers members ((name, value) :: before) next value' frames rest
      (by omega) h
    simp only [laterMembers, List.cons_append, List.append_assoc]
    simp [Reading.run, Reading.step, member, hvalue, hlater]

end

/-- A value that is written is read back as it was. -/
theorem read_pretty {value : Json} (hplain : value.isPlain) (hdepth : value.depth < nestingLimit) :
    read value.pretty = ⟨value, true⟩ := by
  have hend : Delimited [] := nofun
  have htokens := tokens_prettyAt 0 hend value hplain
  rw [List.append_nil] at htokens
  rw [read, pretty, htokens, run_tokensOf value [] _ (by simpa using hdepth), tokens, Reading.run]

end Slicing.Json
