import Mathlib
import Slicing.Yaml.Token

/-!
# Words in YAML

A word of letters, digits and underscores (`isWord`) needs no quotes: none of its
characters is a space, a mark or the start of one. So a plain scalar that starts
with a word goes on behind it (`scanPlain_word`), and one that is a word is read
as it is written (`plainText_word`). In front of a colon such a scalar ends at once;
at the end of a line it takes the break and the blanks in front of the next line
with it, if that line is not indented enough to belong to it (`scanPlain_line`).
-/

namespace Slicing.Yaml

/-! ## Characters -/

/-- The characters of words. -/
def isWordChar (c : Char) : Bool := c.isAlphanum || c == '_'

/-- A text is a word. -/
def isWord (text : String) : Bool := !text.toList.isEmpty && text.toList.all isWordChar

/-- A character of a word is none that is not. -/
theorem ne_of_isWordChar {c d : Char} (hc : isWordChar c) (hd : isWordChar d = false) :
    c ≠ d := by
  rintro rfl
  simp [hc] at hd

/-- A character of a word is no mark. -/
theorem not_mem_of_isWordChar {c : Char} {marks : List Char} (hc : isWordChar c)
    (hmarks : marks.any isWordChar = false) : c ∉ marks :=
  fun hmem => List.any_eq_false.1 hmarks c hmem hc

/-- Words are written in printable characters of one byte. -/
theorem toNat_of_isWordChar {c : Char} (hc : isWordChar c) : 0x30 ≤ c.toNat ∧ c.toNat ≤ 0x7a := by
  simp only [isWordChar, Char.isAlphanum, Char.isAlpha, Char.isUpper, Char.isLower, Char.isDigit,
    Bool.or_eq_true, Bool.and_eq_true, decide_eq_true_eq, beq_iff_eq, UInt32.le_iff_toNat_le,
    ge_iff_le] at hc
  change (((65 ≤ c.toNat ∧ c.toNat ≤ 90) ∨ (97 ≤ c.toNat ∧ c.toNat ≤ 122)) ∨
    (48 ≤ c.toNat ∧ c.toNat ≤ 57)) ∨ c = '_' at hc
  rcases hc with ((h | h) | h) | rfl
  · omega
  · omega
  · omega
  · decide

theorem utf8Size_of_isWordChar {c : Char} (hc : isWordChar c) : c.utf8Size = 1 := by
  have h := toNat_of_isWordChar hc
  rw [Char.utf8Size_eq_one_iff, UInt32.le_iff_toNat_le]
  exact Nat.le_trans h.2 (by decide)

theorem isBreak_of_isWordChar {c : Char} (hc : isWordChar c) : isBreak c = false := by
  have h := toNat_of_isWordChar hc
  have hn : c ≠ '\n' := ne_of_isWordChar hc rfl
  have hline : c.toNat ≠ 0x2028 := by omega
  have hparagraph : c.toNat ≠ 0x2029 := by omega
  simp [isBreak, hn, hline, hparagraph]

theorem isBlank_of_isWordChar {c : Char} (hc : isWordChar c) : isBlank c = false := by
  have hblank : c ≠ ' ' := ne_of_isWordChar hc rfl
  have htab : c ≠ '\t' := ne_of_isWordChar hc rfl
  simp [isBlank, hblank, htab]

theorem isSpace_of_isWordChar {c : Char} (hc : isWordChar c) : isSpace c = false := by
  rw [isSpace, isBlank_of_isWordChar hc, isBreak_of_isWordChar hc, Bool.or_false]

theorem isIndicator_of_isWordChar {c : Char} (hc : isWordChar c) : isIndicator c = false := by
  have hflow : c ∉ [',', '[', ']', '\x7b', '\x7d'] := not_mem_of_isWordChar hc rfl
  have hother : c ∉ "#&*!|>'\"%@`".toList := not_mem_of_isWordChar hc rfl
  rw [isIndicator, Bool.or_eq_false_iff]
  constructor
  · simpa [isFlowIndicator, and_assoc] using hflow
  · simpa using hother

/-- A document does not end or begin with a word. -/
theorem isAtMark_of_isWordChar {c : Char} (hc : isWordChar c) (rest : List Char) :
    isAtStartMark (c :: rest) = false ∧ isAtEndMark (c :: rest) = false := by
  have hdash : c ≠ '-' := ne_of_isWordChar hc rfl
  have hdot : c ≠ '.' := ne_of_isWordChar hc rfl
  constructor
  · rw [isAtStartMark]
    simp [hdash]
  · rw [isAtEndMark]
    simp [hdot]

/-! ## Scalars -/

/-- A plain scalar does not end in front of a word, unless that stands on a line that is
    not indented enough. -/
theorem endsPlain_word {c : Char} (hc : isWordChar c) (indent column : Nat) (before : Before)
    (rest : List Char) :
    endsPlain false indent column before (c :: rest) =
      (before = .lineBreak && decide (column < indent)) := by
  have hhash : (c == '#') = false := beq_eq_false_iff_ne.2 (ne_of_isWordChar hc rfl)
  have hcolon : (c == ':') = false := beq_eq_false_iff_ne.2 (ne_of_isWordChar hc rfl)
  have hmark := isAtMark_of_isWordChar hc rest
  simp [endsPlain, isAtMark, hmark.1, hmark.2, hhash, hcolon]

/-- A word is scanned as part of a plain scalar. -/
theorem scanPlain_word {word : List Char} (hword : word.all isWordChar) (indent column : Nat)
    (rest : List Char) :
    scanPlain false indent column .word (word ++ rest) =
      (scanPlain false indent (column + word.length) .word rest).map (word ++ ·) := by
  induction word generalizing column with
  | nil => simp
  | cons c word ih =>
    rw [List.all_cons, Bool.and_eq_true] at hword
    obtain ⟨hc, hword⟩ := hword
    rw [List.cons_append, scanPlain, ih hword, List.length_cons, Nat.add_right_comm, Nat.add_assoc]
    simp [isBreak_of_isWordChar hc, isBlank_of_isWordChar hc, endsPlain_word hc, Function.comp_def]

/-- Blanks at the start of a line are scanned with the scalar. -/
theorem scanPlain_blanks (indent column count : Nat) (rest : List Char) :
    scanPlain false indent column .lineBreak (List.replicate count ' ' ++ rest) =
      (scanPlain false indent (column + count) .lineBreak rest).map
        (List.replicate count ' ' ++ ·) := by
  induction count generalizing column with
  | zero => simp
  | succ count ih =>
    have hnext := ih (column + 1)
    rw [Nat.add_assoc, Nat.add_comm 1] at hnext
    rw [List.replicate_succ, List.cons_append, scanPlain]
    simp [isBreak, isBlank, hnext, Function.comp_def]

/-- What follows starts on a line that is indented to a column at most, if anything does. -/
def Outdented (column : Nat) (text : List Char) : Prop :=
  text = [] ∨ ∃ count ≤ column, ∃ c rest, isWordChar c ∧
    text = List.replicate count ' ' ++ c :: rest

/-- What is indented to a column at most is so for a wider one. -/
theorem Outdented.mono {column wider : Nat} {text : List Char} (h : Outdented column text)
    (hle : column ≤ wider) : Outdented wider text := by
  rcases h with rfl | ⟨count, hcount, c, rest, hc, rfl⟩
  · exact .inl rfl
  · exact .inr ⟨count, Nat.le_trans hcount hle, c, rest, hc, rfl⟩

/-- In front of a colon behind which a word may start, a word is the whole of a plain
    scalar. -/
theorem scanPlain_key {word : List Char} (hword : word.all isWordChar) (indent column : Nat)
    {rest : List Char} (hrest : isAtSpace rest) :
    scanPlain false indent column .word (word ++ ':' :: rest) = some word := by
  have hend : scanPlain false indent (column + word.length) .word (':' :: rest) = some [] := by
    simp [scanPlain, isBreak, isBlank, endsPlain, hrest]
  simp [scanPlain_word hword, hend]

/-- The blanks at the start of some text. -/
def blanks (text : List Char) : List Char := text.takeWhile (· == ' ')

/-- At the end of a line in front of one that is not indented enough, a word is followed
    by spaces in a plain scalar. -/
theorem scanPlain_line {word : List Char} (hword : word.all isWordChar) {indent : Nat}
    (column : Nat) {rest : List Char} {bound : Nat} (hrest : Outdented bound rest)
    (hbound : bound < indent) :
    scanPlain false indent column .word (word ++ '\n' :: rest) =
      some (word ++ '\n' :: blanks rest) := by
  have hline : scanPlain false indent 0 .lineBreak rest = some (blanks rest) := by
    rcases hrest with rfl | ⟨count, hcount, c, rest, hc, rfl⟩
    · rfl
    · have hindent : count < indent := by omega
      have hc' : (c == ' ') = false := beq_eq_false_iff_ne.2 (ne_of_isWordChar hc rfl)
      rw [scanPlain_blanks, scanPlain]
      simp [isBreak_of_isWordChar hc, isBlank_of_isWordChar hc, endsPlain_word hc, hindent, blanks,
        hc']
  rw [scanPlain_word hword, scanPlain]
  simp [isBreak, hline]

/-- Spaces behind a word are trimmed, and nothing of the word. -/
theorem trimEnd_word {word spaces : List Char} (hword : word.all isWordChar)
    (hspaces : spaces.all isSpace) : trimEnd (word ++ spaces) = word := by
  have hdrop : (word ++ spaces).reverse.dropWhile isSpace = word.reverse.dropWhile isSpace := by
    rw [List.reverse_append]
    exact List.dropWhile_append_of_pos fun c hc =>
      List.all_eq_true.1 hspaces c (List.mem_reverse.1 hc)
  have hkeep : word.reverse.dropWhile isSpace = word.reverse := by
    cases hrev : word.reverse with
    | nil => rfl
    | cons c rest =>
      have hc : c ∈ word := List.mem_reverse.1 (hrev ▸ List.mem_cons_self)
      rw [List.dropWhile_cons,
        if_neg (by simp [isSpace_of_isWordChar (List.all_eq_true.1 hword c hc)])]
  rw [trimEnd, hdrop, hkeep, List.reverse_reverse]

/-- A plain scalar that is a word is read as it is written. -/
theorem plainText_word {word spaces : List Char} (hword : word.all isWordChar)
    (hspaces : spaces.all isSpace) : plainText (word ++ spaces) = String.ofList word := by
  have hjoin : joinPieces {} (word.map .ofChar) = word := by
    clear hspaces
    induction word with
    | nil => rfl
    | cons c word ih =>
      rw [List.all_cons, Bool.and_eq_true] at hword
      have hc : Piece.ofChar c = .char c := by simp [Piece.ofChar, isSpace_of_isWordChar hword.1]
      rw [List.map_cons, hc, joinPieces, ih hword.2]
      rfl
  rw [plainText, trimEnd_word hword hspaces, hjoin]

end Slicing.Yaml
