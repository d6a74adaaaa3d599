import Slicing.Proofs.Yaml.Words
import Slicing.Yaml.Printer

/-!
# The layout of written mappings

The text of a mapping with words for keys and scalars (`isPlain`) is cut into the tokens
that its structure suggests (`tokens?_document`, `tokensOf`), whatever the columns of the
collections around it.

Between two entries of a mapping, cutting a text is at the start of a line, outside of
brackets and without a candidate for a key (`Layout.clear`). From there a key and its
colon are two tokens (`Layout.takes_key`), of which the first begins a mapping if it stands
to the right of those that are open. A scalar leads to the start of the next line
(`Layout.takes_scalar`). Mappings end when the next key is found to stand to the left of
theirs; so what is passed on the way to the start of a line includes ends that are still
to come (`Layout.Passes`).
-/

namespace Slicing.Yaml

/-! ## Values -/

mutual

/-- A value is written without quotes and brackets: a word, or a mapping that is not
    empty, with words for keys. -/
def isPlain : Yaml → Bool
  | .scalar text plain => plain && isWord text
  | .seq _ => false
  | .map entries => !entries.isEmpty && entriesPlain entries

/-- Each of some entries is plain. -/
def entriesPlain : List (Yaml × Yaml) → Bool
  | [] => true
  | (.scalar key plain, value) :: entries =>
    plain && isWord key && key.length ≤ keyLimit && isPlain value && entriesPlain entries
  | _ :: _ => false

end

mutual

/-- The tokens of a plain value. -/
def tokensOf : Yaml → List Token
  | .scalar text plain => [.scalar text plain]
  | .seq _ => []
  | .map entries => .beginMap :: (entryTokens entries ++ [.endBlock])

/-- The tokens of the entries of a plain mapping. -/
def entryTokens : List (Yaml × Yaml) → List Token
  | [] => []
  | (key, value) :: entries =>
    .key :: (tokensOf key ++ .colon :: (tokensOf value ++ entryTokens entries))

end

/-! ## Places -/

/-- A text without line breaks moves the position by its length. -/
theorem pastAll_line {text : List Char} (h : ∀ c ∈ text, isBreak c = false ∧ c.utf8Size = 1)
    (line column : Nat) : Position.pastAll ⟨line, column, column⟩ text =
      ⟨line, column + text.length, column + text.length⟩ := by
  induction text generalizing column with
  | nil => rfl
  | cons c text ih =>
    obtain ⟨hbreak, hsize⟩ := h c List.mem_cons_self
    have hrest := ih (fun c hc => h c (List.mem_cons_of_mem _ hc)) (column + 1)
    rw [Position.pastAll, List.foldl_cons, Position.past, hbreak, hsize]
    rw [Position.pastAll] at hrest
    rw [List.length_cons, ← Nat.add_assoc, Nat.add_right_comm]
    exact hrest

/-- Skipping a text at the start of the rest. -/
theorem skip_append (text rest : List Char) (position : Position) :
    Cursor.skip text.length ⟨text ++ rest, position⟩ = ⟨rest, position.pastAll text⟩ := by
  induction text generalizing position with
  | nil => rfl
  | cons c text ih => exact ih (position.past c)

namespace Layout

/-- Blanks at the start of a line are skipped. -/
theorem skipSpaces_blanks (flow allowed : Bool) (line column count : Nat) (rest : List Char) :
    skipSpaces flow false allowed ⟨line, column, column⟩ (List.replicate count ' ' ++ rest) =
      skipSpaces flow false allowed ⟨line, column + count, column + count⟩ rest := by
  induction count generalizing column with
  | zero => rfl
  | succ count ih =>
    have hpast : Position.past ⟨line, column, column⟩ ' ' = ⟨line, column + 1, column + 1⟩ := rfl
    rw [List.replicate_succ, List.cons_append, skipSpaces, hpast, ih, Nat.add_assoc, Nat.add_comm 1]
    simp [isBreak]

/-- Nothing is skipped in front of a word or a colon. -/
theorem skipSpaces_here (flow allowed : Bool) (position : Position) {c : Char}
    (hc : isWordChar c ∨ c = ':') (rest : List Char) :
    skipSpaces flow false allowed position (c :: rest) = (⟨c :: rest, position⟩, allowed) := by
  rcases hc with hc | rfl
  · have hblank : (c == ' ') = false := beq_eq_false_iff_ne.2 (ne_of_isWordChar hc rfl)
    have htab : (c == '\t') = false := beq_eq_false_iff_ne.2 (ne_of_isWordChar hc rfl)
    have hhash : (c == '#') = false := beq_eq_false_iff_ne.2 (ne_of_isWordChar hc rfl)
    have hmark : (c == byteOrderMark) = false := beq_eq_false_iff_ne.2 (ne_of_isWordChar hc rfl)
    simp [skipSpaces, isBreak_of_isWordChar hc, hblank, htab, hhash, hmark]
  · rfl

/-! ## Tokens -/

/-- The tokens of some marked ones. -/
def written (marked : Array (Token × KeyMark)) : List Token :=
  tokens { cursor := ⟨[], {}⟩, marked }

/-- The ends of some collections. -/
def ends (columns : List Nat) : List Token := columns.map fun _ => .endBlock

/-- Some collections are ended behind the tokens so far. -/
def endAll (marked : Array (Token × KeyMark)) (ended : List Nat) : Array (Token × KeyMark) :=
  ended.foldl (fun marked _ => marked.push (.endBlock, .none)) marked

/-- A token is written behind the others. -/
theorem written_push (marked : Array (Token × KeyMark)) (token : Token) :
    written (marked.push (token, .none)) = written marked ++ [token] := by
  simp [written, tokens]

/-- The ends of collections are written behind the others. -/
theorem written_endAll (marked : Array (Token × KeyMark)) (ended : List Nat) :
    written (endAll marked ended) = written marked ++ ends ended := by
  induction ended generalizing marked with
  | nil => simp [endAll, ends]
  | cons c ended ih =>
    have hrest := ih (marked.push (.endBlock, .none))
    rw [written_push, List.append_assoc] at hrest
    exact hrest

theorem ends_append (columns more : List Nat) :
    ends (columns ++ more) = ends columns ++ ends more :=
  List.map_append

/-- The last token turns out to be a key. -/
theorem written_modify (marked : Array (Token × KeyMark)) (token : Token) (begins : Bool) :
    written ((marked.push (token, .none)).modify marked.size
        fun (token, _) => (token, if begins then .firstKey else .key)) =
      written marked ++ (if begins then [.beginMap] else []) ++ [.key, token] := by
  have hmodify : (marked.push (token, KeyMark.none)).modify marked.size
      (fun (token, _) => (token, if begins then .firstKey else .key)) =
        marked.push (token, if begins then .firstKey else .key) := by
    apply Array.ext'
    simp [List.modify_eq_take_cons_drop]
  rw [hmodify]
  cases begins <;> simp [written, tokens]

/-! ## Steps -/

/-- A place outside of brackets without a candidate for a key. -/
def clear (position : Position) (rest : List Char) (marked : Array (Token × KeyMark))
    (columns : List Nat) (keyAllowed : Bool) : Layout :=
  { cursor := ⟨rest, position⟩, marked, columns, keyAllowed }

/-- A place behind a candidate for a key. -/
def pending (candidate : Candidate) (position : Position) (rest : List Char)
    (marked : Array (Token × KeyMark)) (columns : List Nat) : Layout :=
  { cursor := ⟨rest, position⟩, marked, columns, candidate := some candidate, keyAllowed := false }

/-- The collections that are ended are those indented further than a column. -/
theorem endBlocks_eq {s : Layout} (hflow : s.inFlow = false) (column : Option Nat) :
    s.endBlocks column =
      let ended := s.columns.takeWhile fun c => column.all fun column => column < c
      { s with marked := endAll s.marked ended, columns := s.columns.drop ended.length } := by
  have hadd (ended : List Nat) (s : Layout) : ended.foldl (fun s _ => s.add .endBlock) s =
      { s with marked := endAll s.marked ended } := by
    induction ended generalizing s with
    | nil => rfl
    | cons c ended ih => exact ih (s.add .endBlock)
  simp [endBlocks, hflow, hadd]

/-- The collections to the right of a column are the first of some that nest. -/
theorem takeWhile_columns {column : Nat} {ended columns : List Nat}
    (hended : ∀ c ∈ ended, column < c) (hcolumns : ∀ c ∈ columns.head?, c ≤ column) :
    (ended ++ columns).takeWhile (fun c => (some column).all fun column => column < c) = ended := by
  have hkept : columns.takeWhile (fun c => (some column).all fun column => column < c) = [] := by
    cases columns with
    | nil => rfl
    | cons c columns =>
      have hc : ¬column < c := Nat.not_lt.2 (hcolumns c rfl)
      simp [hc]
  rw [List.takeWhile_append_of_pos (by simpa using hended), hkept, List.append_nil]

/-- Outside of brackets, with a candidate that is not stale, nothing but the collections to
    the right of the next token ends in front of it. -/
theorem advance?_eq {s : Layout} {position : Position} {rest : List Char} {ended columns : List Nat}
    {allowed : Bool} (houter : s.outer = [])
    (hskip : skipSpaces false false s.keyAllowed s.cursor.position s.cursor.rest =
      (⟨rest, position⟩, allowed))
    (hfresh : freshCandidate? position s.candidate = some s.candidate)
    (hnested : s.columns = ended ++ columns) (hended : ∀ c ∈ ended, position.column < c)
    (hcolumns : ∀ c ∈ columns.head?, c ≤ position.column) :
    s.advance? = some { s with
      cursor := ⟨rest, position⟩
      marked := endAll s.marked ended
      columns
      keyAllowed := allowed } := by
  have hends := endBlocks_eq (s := { s with cursor := ⟨rest, position⟩, keyAllowed := allowed })
    (by simp [inFlow, houter]) (some position.column)
  simp only [hnested, takeWhile_columns hended hcolumns, List.drop_left] at hends
  rw [houter] at hends
  simp [advance?, inFlow, houter, hskip, dropStale?, hfresh, column, hnested, hends]

/-- In front of the next token, spaces are skipped and collections that are indented further are
    ended. -/
theorem advance?_clear {position position' : Position} {rest rest' : List Char}
    (marked : Array (Token × KeyMark)) (ended columns : List Nat) {allowed allowed' : Bool}
    (hskip : skipSpaces false false allowed position rest = (⟨rest', position'⟩, allowed'))
    (hended : ∀ c ∈ ended, position'.column < c)
    (hcolumns : ∀ c ∈ columns.head?, c ≤ position'.column) :
    (clear position rest marked (ended ++ columns) allowed).advance? =
      some (clear position' rest' (endAll marked ended) columns allowed') :=
  advance?_eq (s := clear position rest marked (ended ++ columns) allowed) rfl hskip rfl rfl hended
    hcolumns

/-- Some tokens later, cutting a text goes on from another place. -/
def Takes (count : Nat) (s s' : Layout) : Prop := ∀ fuel, s.run? (fuel + count) = s'.run? fuel

/-- Going on twice. -/
theorem Takes.trans {count more : Nat} {s t s' : Layout} (h : Takes count s t)
    (h' : Takes more t s') : Takes (count + more) s s' := by
  intro fuel
  rw [Nat.add_comm count, ← Nat.add_assoc, h, h']

/-- Places from which the next token is the same. -/
theorem Takes.of_advance? {s s' : Layout} (h : s.advance? = s'.advance?) : Takes 0 s s' := by
  intro fuel
  cases fuel with
  | zero => rfl
  | succ fuel => rw [Nat.add_zero, run?, run?, h]

/-- Places from which the same spaces are left. -/
theorem takes_spaces {position position' : Position} {rest rest' : List Char}
    {marked : Array (Token × KeyMark)} {columns : List Nat} {allowed allowed' : Bool}
    (h : skipSpaces false false allowed position rest =
      skipSpaces false false allowed' position' rest') :
    Takes 0 (clear position rest marked columns allowed)
      (clear position' rest' marked columns allowed') :=
  Takes.of_advance? (by simp [advance?, clear, inFlow, h])

/-- One token is cut off. -/
theorem Takes.token {s t s' : Layout} {c : Char} {rest : List Char} (hadvance : s.advance? = some t)
    (hrest : t.cursor.rest = c :: rest) (htoken : t.token? c rest = some s') : Takes 1 s s' := by
  intro fuel
  simp [run?, hadvance, hrest, htoken]

/-- A word is the start of a plain scalar. -/
theorem token?_word {c : Char} (hc : isWordChar c) (rest : List Char) (s : Layout) :
    s.token? c rest = s.plain? := by
  have hspace := isSpace_of_isWordChar hc
  have hindicator := isIndicator_of_isWordChar hc
  have hmark := isAtMark_of_isWordChar hc rest
  have hmem : c ∉ ['[', '\x7b', ']', '\x7d', ',', '-', '?', ':', '\'', '"'] :=
    not_mem_of_isWordChar hc rfl
  simp only [List.mem_cons, List.not_mem_nil, or_false, not_or] at hmem
  simp [token?, hspace, hindicator, hmark, hmem]

/-- A word has a first character. -/
theorem exists_of_isWord {text : String} (h : isWord text) :
    ∃ c rest, text.toList = c :: rest ∧ isWordChar c ∧ text.toList.all isWordChar := by
  rw [isWord, Bool.and_eq_true] at h
  obtain ⟨hne, hall⟩ := h
  cases hlist : text.toList with
  | nil => simp [hlist] at hne
  | cons c rest =>
    rw [hlist] at hall
    rw [List.all_cons, Bool.and_eq_true] at hall
    exact ⟨c, rest, rfl, hall.1, by simp [hall.1, hall.2]⟩

/-- A word moves the position by its length. -/
theorem pastAll_word {word : List Char} (hword : word.all isWordChar) (line column : Nat) :
    Position.pastAll ⟨line, column, column⟩ word =
      ⟨line, column + word.length, column + word.length⟩ :=
  pastAll_line (fun c hc =>
    have hc : isWordChar c := List.all_eq_true.1 hword c hc
    ⟨isBreak_of_isWordChar hc, utf8Size_of_isWordChar hc⟩) line column

/-- A word in front of a colon is a candidate for a key. -/
theorem plain?_key {word : List Char} (hword : word.all isWordChar) (line column : Nat)
    {rest : List Char} (hrest : isAtSpace rest) (marked : Array (Token × KeyMark))
    (columns : List Nat) :
    (clear ⟨line, column, column⟩ (word ++ ':' :: rest) marked columns true).plain? =
      some (pending ⟨marked.size, ⟨line, column, column⟩, columns.head? == some column⟩
        ⟨line, column + word.length, column + word.length⟩ (':' :: rest)
        (marked.push (.scalar (String.ofList word) true, .none)) columns) := by
  have htrim : trimEnd word = word := by simpa using trimEnd_word hword List.all_nil
  have htext : plainText word = String.ofList word := by
    simpa using plainText_word hword List.all_nil
  simp [plain?, saveCandidate?, dropCandidate?, clear, pending, inFlow, Layout.column,
    scanPlain_key hword _ _ hrest, add, skip_append, pastAll_word hword, htrim, htext]

/-- A colon makes the candidate on its line a key. -/
theorem takes_colon (line : Nat) {column behind : Nat} (hle : column ≤ behind)
    (hlimit : behind ≤ column + keyLimit) {rest : List Char} (hrest : isAtSpace rest)
    (marked : Array (Token × KeyMark)) (token : Token) {columns : List Nat} (required : Bool)
    (hcolumns : ∀ c ∈ columns.head?, c ≤ column) :
    let begins := columns.head?.all (· < column)
    Takes 1
      (pending ⟨marked.size, ⟨line, column, column⟩, required⟩ ⟨line, behind, behind⟩ (':' :: rest)
        (marked.push (token, .none)) columns)
      (clear ⟨line, behind + 1, behind + 1⟩ rest
        (((marked.push (token, .none)).modify marked.size
          fun (token, _) => (token, if begins then .firstKey else .key)).push (.colon, .none))
        (if begins then column :: columns else columns) false) := by
  intro begins
  have hfresh : Candidate.isStale ⟨marked.size, ⟨line, column, column⟩, required⟩
      ⟨line, behind, behind⟩ = false := by
    simp [Candidate.isStale, hlimit]
  have hadvance := advance?_eq (s := pending ⟨marked.size, ⟨line, column, column⟩, required⟩
      ⟨line, behind, behind⟩ (':' :: rest) (marked.push (token, .none)) columns) rfl
    (skipSpaces_here false false _ (.inr rfl) rest) (by simp [freshCandidate?, hfresh, pending])
    (List.nil_append columns).symm (by simp) (fun c hc => Nat.le_trans (hcolumns c hc) hle)
  refine Takes.token hadvance rfl ?_
  have hinner (s : Layout) (houter : s.outer = []) (hs : s.columns = columns) :
      s.isInner column = begins := by
    cases columns <;> simp [isInner, inFlow, houter, hs, begins]
  simp [token?, isAtStartMark, isAtEndMark, hrest, colon?, pending, clear, hinner, take, add,
    endAll, Cursor.skip, Cursor.next, Position.past, isBreak]
  rfl

/-- A key with its colon, which begins a mapping if it stands right of all of them. -/
theorem takes_key {key : String} (hkey : isWord key) (hlength : key.length ≤ keyLimit)
    (line column : Nat) {rest : List Char} (hrest : isAtSpace rest)
    (marked : Array (Token × KeyMark)) {ended columns : List Nat}
    (hended : ∀ c ∈ ended, column < c) (hcolumns : ∀ c ∈ columns.head?, c ≤ column) :
    let begins := columns.head?.all (· < column)
    ∃ behind marked', Takes 2
        (clear ⟨line, 0, 0⟩ (List.replicate column ' ' ++ (key.toList ++ ':' :: rest)) marked
          (ended ++ columns) true)
        (clear ⟨line, behind, behind⟩ rest marked'
          (if begins then column :: columns else columns) false) ∧
      column < behind ∧
      written marked' = written marked ++ ends ended ++ (if begins then [.beginMap] else []) ++
        [.key, .scalar key true, .colon] := by
  intro begins
  obtain ⟨c, word, hchars, hc, hall⟩ := exists_of_isWord hkey
  have hskip : skipSpaces false false true ⟨line, 0, 0⟩
      (List.replicate column ' ' ++ (key.toList ++ ':' :: rest)) =
        (⟨key.toList ++ ':' :: rest, ⟨line, column, column⟩⟩, true) := by
    rw [skipSpaces_blanks, hchars, Nat.zero_add]
    exact skipSpaces_here false true _ (.inl hc) _
  have hhead : (clear ⟨line, column, column⟩ (key.toList ++ ':' :: rest) (endAll marked ended)
      columns true).cursor.rest = c :: (word ++ ':' :: rest) := by
    rw [hchars]
    rfl
  have hplain := (token?_word hc (word ++ ':' :: rest) _).trans
    (plain?_key hall line column hrest (endAll marked ended) columns)
  -- the word is a candidate first, and its colon makes it a key
  have hfirst := Takes.token (advance?_clear marked ended columns hskip hended hcolumns) hhead hplain
  have hsecond := takes_colon line (Nat.le_add_right column key.toList.length)
    (Nat.add_le_add_left (String.length_toList.symm ▸ hlength) column) hrest (endAll marked ended)
    (.scalar key true) (columns.head? == some column) hcolumns
  rw [String.ofList_toList] at hfirst
  refine ⟨column + key.toList.length + 1, _, hfirst.trans hsecond, by omega, ?_⟩
  rw [written_push, written_modify, written_endAll]
  simp [begins]

/-- A word at the end of a line takes the break and the blanks behind it with it. -/
theorem plain?_line {word : List Char} (hword : word.all isWordChar) (line : Nat)
    {column : Nat} (start : Nat) {rest : List Char} (hrest : Outdented column rest)
    (marked : Array (Token × KeyMark)) (columns : List Nat) :
    ∃ count more, rest = List.replicate count ' ' ++ more ∧
      (clear ⟨line, start, start⟩ (word ++ '\n' :: rest) marked (column :: columns) false).plain? =
        some (clear ⟨line + 1, count, count⟩ more
          (marked.push (.scalar (String.ofList word) true, .none)) (column :: columns) true) := by
  have hblanks : blanks rest = List.replicate (blanks rest).length ' ' := by
    refine List.eq_replicate_of_mem fun c hc => ?_
    exact beq_iff_eq.1 (List.all_eq_true.1 List.all_takeWhile c hc)
  have hspaces : ('\n' :: blanks rest).all isSpace := by
    rw [hblanks]
    simp [isSpace, isBreak, isBlank]
  -- the cursor comes to stand behind the blanks of the next line
  have hskip : Cursor.skip (word ++ '\n' :: blanks rest).length ⟨word ++ '\n' :: rest,
      ⟨line, start, start⟩⟩ =
        ⟨rest.dropWhile (· == ' '), ⟨line + 1, (blanks rest).length, (blanks rest).length⟩⟩ := by
    have hsplit : word ++ '\n' :: rest =
        (word ++ '\n' :: blanks rest) ++ rest.dropWhile (· == ' ') := by
      simp [blanks]
    have hline : Position.pastAll ⟨line + 1, 0, 0⟩ (blanks rest) =
        ⟨line + 1, (blanks rest).length, (blanks rest).length⟩ := by
      rw [pastAll_line, Nat.zero_add]
      intro c hc
      rw [hblanks] at hc
      rw [List.eq_of_mem_replicate hc]
      decide
    have hpast : Position.pastAll ⟨line, start, start⟩ (word ++ '\n' :: blanks rest) =
        Position.pastAll ⟨line + 1, 0, 0⟩ (blanks rest) := by
      have hbreak := pastAll_word hword line start
      simp only [Position.pastAll] at hbreak ⊢
      rw [List.foldl_append, hbreak]
      rfl
    rw [hsplit, skip_append, hpast, hline]
  refine ⟨(blanks rest).length, rest.dropWhile (· == ' '), ?_, ?_⟩
  · rw [← hblanks, blanks, List.takeWhile_append_dropWhile]
  · have htrim := trimEnd_word hword hspaces
    have htext := plainText_word hword hspaces
    have hscan := scanPlain_line hword start hrest (Nat.lt_succ_self column)
    rw [List.length_append, List.length_cons] at hskip
    simp [plain?, saveCandidate?, clear, inFlow, Layout.column, hscan, add, hskip, htrim, htext,
      isBreak]

/-- A word at the end of a line, in front of one that is not indented further than the
    innermost mapping. -/
theorem takes_scalar {text : String} (htext : isWord text) (line : Nat) {column before : Nat}
    (hle : column ≤ before) {rest : List Char} (hrest : Outdented column rest)
    (marked : Array (Token × KeyMark)) (columns : List Nat) :
    Takes 1
      (clear ⟨line, before, before⟩ (' ' :: (text.toList ++ '\n' :: rest)) marked
        (column :: columns) false)
      (clear ⟨line + 1, 0, 0⟩ rest (marked.push (.scalar text true, .none)) (column :: columns)
        true) := by
  obtain ⟨c, word, hchars, hc, hall⟩ := exists_of_isWord htext
  have hskip : skipSpaces false false false ⟨line, before, before⟩
      (' ' :: (text.toList ++ '\n' :: rest)) =
        (⟨text.toList ++ '\n' :: rest, ⟨line, before + 1, before + 1⟩⟩, false) := by
    have hblank := skipSpaces_blanks false false line before 1 (text.toList ++ '\n' :: rest)
    rw [hchars] at hblank ⊢
    exact hblank.trans (skipSpaces_here false false _ (.inl hc) _)
  have hadvance := advance?_clear marked [] (column :: columns) hskip (by simp) (by simp; omega)
  obtain ⟨count, more, rfl, hplain⟩ :=
    plain?_line hall line (before + 1) hrest marked columns
  have htoken := Takes.token hadvance (by rw [hchars]; rfl) ((token?_word hc _ _).trans hplain)
  rw [String.ofList_toList] at htoken
  exact htoken.trans (takes_spaces (by rw [skipSpaces_blanks, Nat.zero_add]))

/-! ## Mappings -/

/-- Cutting a text goes on to the start of a line, and passes some tokens on the way, some
    collections being open there. Of those that end, the ones to the right of a column are
    only ended in front of the next token. -/
def Passes (s : Layout) (column : Nat) (columns : List Nat) (passed : List Token)
    (rest : List Char) : Prop :=
  ∃ count line marked ended,
    Takes count s (clear ⟨line, 0, 0⟩ rest marked (ended ++ columns) true) ∧
    count + rest.length ≤ s.cursor.rest.length ∧ (∀ c ∈ ended, column < c) ∧
    written marked ++ ends ended = written s.marked ++ passed

/-- Tokens that have been cut off before are passed as well. -/
theorem Passes.after {count column : Nat} {s t : Layout} {columns : List Nat}
    {before passed : List Token} {rest : List Char} (h : Takes count s t)
    (hlength : count + t.cursor.rest.length ≤ s.cursor.rest.length)
    (hwritten : written t.marked = written s.marked ++ before)
    (hpasses : Passes t column columns passed rest) :
    Passes s column columns (before ++ passed) rest := by
  obtain ⟨more, line, marked, ended, htakes, hmore, hended, htokens⟩ := hpasses
  refine ⟨count + more, line, marked, ended, h.trans htakes, by omega, hended, ?_⟩
  rw [htokens, hwritten, List.append_assoc]

/-- Going on to the start of another line. -/
theorem Passes.trans {column column' : Nat} {s : Layout} {columns columns' : List Nat}
    {passed more : List Token} {rest rest' : List Char} (h : Passes s column columns passed rest)
    (h' : ∀ line marked ended, (∀ c ∈ ended, column < c) →
      Passes (clear ⟨line, 0, 0⟩ rest marked (ended ++ columns) true) column' columns'
        (ends ended ++ more) rest') :
    Passes s column' columns' (passed ++ more) rest' := by
  obtain ⟨count, line, marked, ended, htakes, hlength, hended, htokens⟩ := h
  obtain ⟨count', line', marked', ended', htakes', hlength', hended', htokens'⟩ :=
    h' line marked ended hended
  refine ⟨count + count', line', marked', ended', htakes.trans htakes', ?_, hended', ?_⟩
  · have : count' + rest'.length ≤ rest.length := hlength'
    omega
  · have : written marked' ++ ends ended' = written marked ++ (ends ended ++ more) := htokens'
    rw [this, ← List.append_assoc, htokens, List.append_assoc]

/-- Behind the entries of a mapping, the mapping ends as well. -/
theorem Passes.leave {column inner : Nat} {s : Layout} {columns : List Nat} {passed : List Token}
    {rest : List Char} (h : Passes s inner (inner :: columns) passed rest) (hlt : column < inner) :
    Passes s column columns (passed ++ [.endBlock]) rest := by
  obtain ⟨count, line, marked, ended, htakes, hlength, hended, htokens⟩ := h
  refine ⟨count, line, marked, ended ++ [inner], ?_, hlength, ?_, ?_⟩
  · rwa [List.append_assoc, List.singleton_append]
  · intro c hc
    rcases List.mem_append.1 hc with hc | hc
    · exact Nat.lt_trans hlt (hended c hc)
    · exact List.mem_singleton.1 hc ▸ hlt
  · rw [ends_append, ← List.append_assoc, htokens, List.append_assoc]
    rfl

theorem toList_indentation (count : Nat) :
    ("".pushn ' ' count).toList = List.replicate count ' ' := by
  rw [String.pushn_eq_repeat_push]
  induction count with
  | zero => rfl
  | succ count ih => rw [Nat.repeat, String.toList_push, ih, List.replicate_succ']

/-- An entry is written as its key, a colon and its value, indented by its level. -/
theorem toList_entry (level : Nat) (key : String) (plain : Bool) (value : Yaml)
    (entries : List (Yaml × Yaml)) :
    (renderEntries level ((.scalar key plain, value) :: entries)).toList =
      List.replicate (2 * level) ' ' ++ (key.toList ++ ':' ::
        ((render (level + 1) value).toList ++ (renderEntries level entries).toList)) := by
  simp [renderEntries, toList_indentation, text?]

theorem toList_scalar (level : Nat) (text : String) (plain : Bool) :
    (render level (.scalar text plain)).toList = ' ' :: (text.toList ++ ['\n']) := by
  simp [render]

theorem toList_map (level : Nat) (entries : List (Yaml × Yaml)) :
    (render level (.map entries)).toList = '\n' :: (renderEntries level entries).toList := by
  simp [render]

/-- The value of a key is behind a blank or a break. -/
theorem isAtSpace_value {value : Yaml} (h : isPlain value) (level : Nat) (rest : List Char) :
    isAtSpace ((render level value).toList ++ rest) := by
  cases value with
  | scalar text plain =>
    rw [toList_scalar]
    rfl
  | seq items => simp [isPlain] at h
  | map entries =>
    rw [toList_map]
    rfl

/-- The entries of a mapping start at its own level. -/
theorem outdented_entries {entries : List (Yaml × Yaml)} (h : entriesPlain entries) (level : Nat)
    {rest : List Char} (hrest : Outdented (2 * level) rest) :
    Outdented (2 * level) ((renderEntries level entries).toList ++ rest) := by
  match entries, h with
  | [], _ => simpa [renderEntries] using hrest
  | (.scalar key plain, value) :: entries, h =>
    simp only [entriesPlain, Bool.and_eq_true] at h
    obtain ⟨c, word, hchars, hc, -⟩ := exists_of_isWord h.1.1.1.2
    rw [toList_entry, hchars, List.append_assoc, List.cons_append, List.cons_append]
    exact .inr ⟨2 * level, Nat.le_refl _, c, _, hc, rfl⟩

/-- The key of an entry, in front of its value. -/
theorem passes_entry {key : String} (hkey : isWord key) (hlength : key.length ≤ keyLimit)
    {value : Yaml} (hvalue : isPlain value) {level : Nat} (line : Nat) {rest : List Char}
    (marked : Array (Token × KeyMark)) {ended columns outer : List Nat}
    (hended : ∀ c ∈ ended, 2 * level < c) (hcolumns : ∀ c ∈ columns.head?, c ≤ 2 * level)
    (houter : (if columns.head?.all (· < 2 * level) then 2 * level :: columns else columns) =
      2 * level :: outer)
    (hpasses : ∀ before marked, 2 * level ≤ before →
      Passes (clear ⟨line, before, before⟩ ((render (level + 1) value).toList ++ rest) marked
        (2 * level :: outer) false) (2 * level) (2 * level :: outer) (tokensOf value) rest) :
    Passes (clear ⟨line, 0, 0⟩ (List.replicate (2 * level) ' ' ++ (key.toList ++ ':' ::
        ((render (level + 1) value).toList ++ rest))) marked (ended ++ columns) true)
      (2 * level) (2 * level :: outer)
      (ends ended ++ (if columns.head?.all (· < 2 * level) then [.beginMap] else []) ++
        [.key, .scalar key true, .colon] ++ tokensOf value) rest := by
  obtain ⟨behind, marked', htakes, hbehind, hwritten⟩ := takes_key hkey hlength line (2 * level)
    (isAtSpace_value hvalue (level + 1) rest) marked hended hcolumns
  rw [houter] at htakes
  refine Passes.after htakes ?_ ?_ (hpasses behind marked' (Nat.le_of_lt hbehind))
  · obtain ⟨c, word, hchars, -⟩ := exists_of_isWord hkey
    simp [clear, hchars]
    omega
  · simpa [clear] using hwritten

mutual

/-- The text of a value is cut into its tokens. -/
theorem passes_value : ∀ (value : Yaml), isPlain value → ∀ (level line before : Nat)
    (marked : Array (Token × KeyMark)) (columns : List Nat) (rest : List Char),
    2 * level ≤ before → Outdented (2 * level) rest →
    Passes (clear ⟨line, before, before⟩ ((render (level + 1) value).toList ++ rest) marked
      (2 * level :: columns) false) (2 * level) (2 * level :: columns) (tokensOf value) rest
  | .scalar text plain, h, level, line, before, marked, columns, rest, hle, hrest => by
    simp only [isPlain, Bool.and_eq_true] at h
    obtain ⟨rfl, hword⟩ := h
    have htakes := takes_scalar hword line hle hrest marked columns
    rw [toList_scalar, List.cons_append, List.append_assoc]
    refine ⟨1, line + 1, _, [], htakes, ?_, by simp, ?_⟩
    · simp [clear]
      omega
    · rw [written_push]
      simp [ends, tokensOf, clear]
  | .seq _, h, _, _, _, _, _, _, _, _ => by simp [isPlain] at h
  | .map entries, h, level, line, before, marked, columns, rest, hle, hrest => by
    simp only [isPlain, Bool.and_eq_true] at h
    obtain ⟨hne, hentries⟩ := h
    -- The break behind the colon leads to the start of a line, as a scalar does.
    have htakes : Takes 0
        (clear ⟨line, before, before⟩ ('\n' :: ((renderEntries (level + 1) entries).toList ++ rest))
          marked (2 * level :: columns) false)
        (clear ⟨line + 1, 0, 0⟩ ((renderEntries (level + 1) entries).toList ++ rest) marked
          (2 * level :: columns) true) :=
      takes_spaces rfl
    have hblock := passes_block entries hentries (by simpa using hne) (level + 1) (line + 1) marked
      (2 * level :: columns) rest (by simp) (hrest.mono (by omega))
    have hpasses := hblock.leave (show 2 * level < 2 * (level + 1) by omega)
    rw [toList_map, List.cons_append]
    exact Passes.after htakes (by simp [clear]) (List.append_nil _).symm hpasses

/-- So are the entries of a mapping that stands to the right of the others. -/
theorem passes_block : ∀ (entries : List (Yaml × Yaml)), entriesPlain entries → entries ≠ [] →
    ∀ (level line : Nat) (marked : Array (Token × KeyMark)) (columns : List Nat) (rest : List Char),
    (∀ c ∈ columns.head?, c < 2 * level) → Outdented (2 * level) rest →
    Passes (clear ⟨line, 0, 0⟩ ((renderEntries level entries).toList ++ rest) marked columns true)
      (2 * level) (2 * level :: columns) (.beginMap :: entryTokens entries) rest
  | [], _, hne, _, _, _, _, _, _, _ => absurd rfl hne
  | (.scalar key plain, value) :: entries, h, _, level, line, marked, columns, rest, hcolumns,
      hrest => by
    simp only [entriesPlain, Bool.and_eq_true, decide_eq_true_eq] at h
    obtain ⟨⟨⟨⟨rfl, hkey⟩, hlength⟩, hvalue⟩, hentries⟩ := h
    have hrest' := outdented_entries hentries level hrest
    have hbegins : columns.head?.all (· < 2 * level) = true := by
      simpa [Option.all_eq_true] using hcolumns
    have hentry := passes_entry hkey hlength hvalue line marked
      (List.forall_mem_nil fun c => 2 * level < c) (fun c hc => Nat.le_of_lt (hcolumns c hc))
      (if_pos hbegins) fun before marked hle =>
        passes_value value hvalue level line before marked columns _ hle hrest'
    have hall := hentry.trans fun line marked ended hended =>
      passes_entries entries hentries level line marked ended columns rest hended hrest
    rw [toList_entry]
    simpa [hbegins, entryTokens, tokensOf, ends] using hall

/-- So are further entries. -/
theorem passes_entries : ∀ (entries : List (Yaml × Yaml)), entriesPlain entries →
    ∀ (level line : Nat) (marked : Array (Token × KeyMark)) (ended columns : List Nat)
    (rest : List Char), (∀ c ∈ ended, 2 * level < c) → Outdented (2 * level) rest →
    Passes (clear ⟨line, 0, 0⟩ ((renderEntries level entries).toList ++ rest) marked
        (ended ++ 2 * level :: columns) true)
      (2 * level) (2 * level :: columns) (ends ended ++ entryTokens entries) rest
  | [], _, level, line, marked, ended, columns, rest, hended, _ => by
    refine ⟨0, line, marked, ended, fun _ => rfl, ?_, hended, ?_⟩
    · simp [renderEntries, clear]
    · simp [entryTokens, clear]
  | (.scalar key plain, value) :: entries, h, level, line, marked, ended, columns, rest, hended,
      hrest => by
    simp only [entriesPlain, Bool.and_eq_true, decide_eq_true_eq] at h
    obtain ⟨⟨⟨⟨rfl, hkey⟩, hlength⟩, hvalue⟩, hentries⟩ := h
    have hrest' := outdented_entries hentries level hrest
    have hgoes : ¬(2 * level :: columns).head?.all (· < 2 * level) = true := by simp
    have hentry := passes_entry hkey hlength hvalue line marked hended (by simp) (if_neg hgoes)
      fun before marked hle =>
        passes_value value hvalue level line before marked columns _ hle hrest'
    have hall := hentry.trans fun line marked ended hended =>
      passes_entries entries hentries level line marked ended columns rest hended hrest
    rw [toList_entry]
    simpa [entryTokens, tokensOf] using hall

end

/-- At the end of a text all collections end. -/
theorem run?_end (fuel line : Nat) (marked : Array (Token × KeyMark)) (columns : List Nat) :
    ((clear ⟨line, 0, 0⟩ [] marked columns true).run? (fuel + 1)).map tokens =
      some (written marked ++ ends columns) := by
  -- collections right of the margin end on the last line, the others with the text
  obtain ⟨ended, kept, hsplit, hends⟩ : ∃ ended kept, ended ++ kept = columns ∧
      (clear ⟨line, 0, 0⟩ [] marked columns true).endBlocks (some 0) =
        clear ⟨line, 0, 0⟩ [] (endAll marked ended) kept true :=
    ⟨_, _, (List.prefix_iff_eq_append.1 (List.takeWhile_prefix _)), endBlocks_eq rfl (some 0)⟩
  have hadvance : (clear ⟨line, 0, 0⟩ [] marked columns true).advance? =
      some (clear ⟨line, 0, 0⟩ [] (endAll marked ended) kept true) := by
    rw [← hends]
    rfl
  have hlast : (clear ⟨line, 0, 0⟩ [] (endAll marked ended) kept true).endBlocks none =
      clear ⟨line, 0, 0⟩ [] (endAll (endAll marked ended) kept) [] true := by
    have hall : kept.takeWhile (fun _ => true) = kept := by
      clear hsplit hends hadvance
      induction kept with
      | nil => rfl
      | cons c kept ih => rw [List.takeWhile_cons_of_pos rfl, ih]
    rw [endBlocks_eq rfl]
    simp [clear, hall]
  have hrun : (clear ⟨line, 0, 0⟩ [] marked columns true).run? (fuel + 1) =
      some (clear ⟨line, 0, 0⟩ [] (endAll (endAll marked ended) kept) [] true) := by
    have hdrop : ((clear ⟨line, 0, 0⟩ [] (endAll marked ended) kept true).endBlocks
        none).dropCandidate? = some (clear ⟨line, 0, 0⟩ [] (endAll (endAll marked ended) kept) []
          true) := by
      rw [hlast]
      rfl
    rw [run?, hadvance, ← hdrop]
    rfl
  have hwritten : written (endAll (endAll marked ended) kept) = written marked ++ ends columns := by
    rw [written_endAll, written_endAll, ← hsplit, ends_append, List.append_assoc]
  rw [hrun, Option.map_some, ← hwritten]
  rfl

end Layout

/-- The characters of plain values. -/
def isPlainChar (c : Char) : Bool := isWordChar c || c == ' ' || c == ':' || c == '\n'

/-- The characters of a word may be written. -/
theorem isPlainChar_word {word : String} (h : isWord word) : word.toList.all isPlainChar := by
  obtain ⟨-, -, -, -, hall⟩ := Layout.exists_of_isWord h
  rw [List.all_eq_true] at hall ⊢
  intro c hc
  simp [isPlainChar, hall c hc]

mutual

/-- A plain value is written in characters that may be read. -/
theorem isPlainChar_value : ∀ (value : Yaml), isPlain value → ∀ level,
    (render level value).toList.all isPlainChar
  | .scalar text plain, h, level => by
    simp only [isPlain, Bool.and_eq_true] at h
    rw [Layout.toList_scalar, List.all_cons, List.all_append, isPlainChar_word h.2]
    decide
  | .seq _, h, _ => by simp [isPlain] at h
  | .map entries, h, level => by
    simp only [isPlain, Bool.and_eq_true] at h
    rw [Layout.toList_map, List.all_cons, isPlainChar_entries entries h.2]
    decide

/-- Plain entries are written in characters that may be read. -/
theorem isPlainChar_entries : ∀ (entries : List (Yaml × Yaml)), entriesPlain entries → ∀ level,
    (renderEntries level entries).toList.all isPlainChar
  | [], _, level => by simp [renderEntries]
  | (.scalar key plain, value) :: entries, h, level => by
    simp only [entriesPlain, Bool.and_eq_true] at h
    rw [Layout.toList_entry, List.all_append, List.all_append, List.all_cons, List.all_append,
      isPlainChar_word h.1.1.1.2, isPlainChar_value value h.1.2, isPlainChar_entries entries h.2]
    simp [isPlainChar]

end

/-- The characters of plain values are allowed. -/
theorem isAllowed_of_isPlainChar {c : Char} (hc : isPlainChar c) : isAllowed c := by
  simp only [isPlainChar, Bool.or_eq_true, beq_iff_eq] at hc
  rcases hc with ((hc | rfl) | rfl) | rfl
  · have h := toNat_of_isWordChar hc
    have hle : 32 ≤ c.toNat ∧ c.toNat ≤ 126 := by omega
    simp [isAllowed, hle]
  all_goals decide

/-- Texts of these characters have no breaks to unify. -/
theorem unifyBreaks_plain {text : List Char} (h : text.all isPlainChar) :
    unifyBreaks text = text := by
  induction text with
  | nil => rfl
  | cons c text ih =>
    rw [List.all_cons, Bool.and_eq_true] at h
    have hreturn : c ≠ '\r' := by
      rintro rfl
      exact absurd h.1 (by decide)
    have hnext : c.toNat ≠ 0x85 := by
      intro hc
      have hc' : c = Char.ofNat 0x85 := by rw [← hc, Char.ofNat_toNat]
      subst hc'
      exact absurd h.1 (by decide)
    rw [unifyBreaks.eq_def]
    simp [hreturn, hnext, ih h.2]

/-- The text of a plain mapping is cut into its tokens. -/
theorem tokens?_document {entries : List (Yaml × Yaml)} (h : isPlain (.map entries)) :
    tokens? (document (.map entries)) = some (tokensOf (.map entries)) := by
  have hplain := h
  simp only [isPlain, Bool.and_eq_true] at hplain
  obtain ⟨hne, hentries⟩ := hplain
  have hchars := isPlainChar_entries entries hentries 0
  have hallowed : (document (.map entries)).toList.all isAllowed := by
    rw [List.all_eq_true] at hchars ⊢
    exact fun c hc => isAllowed_of_isPlainChar (hchars c hc)
  obtain ⟨count, line, marked, ended, htakes, hlength, -, htokens⟩ :=
    Layout.passes_block entries hentries (by simpa using hne) 0 0 #[] [] [] (by simp) (.inl rfl)
  have hrun (fuel : Nat) : ((Layout.ofText (renderEntries 0 entries).toList).run?
      (fuel + 1 + count)).map Layout.tokens = some (tokensOf (.map entries)) := by
    have htakes := htakes (fuel + 1)
    rw [List.append_nil] at htakes
    refine (congrArg (Option.map Layout.tokens) htakes).trans ?_
    rw [Layout.run?_end, Layout.ends_append, ← List.append_assoc, htokens]
    rfl
  have hlength : count ≤ (renderEntries 0 entries).toList.length := by
    simpa [Layout.clear] using hlength
  -- the scanner has as much fuel as the text has characters, which is enough
  obtain ⟨fuel, hfuel⟩ := Nat.exists_eq_add_of_le hlength
  have hfuel' : (renderEntries 0 entries).toList.length + 1 = fuel + 1 + count := by omega
  have hfinal := hrun fuel
  rw [← hfuel'] at hfinal
  rw [tokens?, if_pos hallowed, document, unifyBreaks_plain hchars]
  exact hfinal

end Slicing.Yaml
