import Mathlib
import Slicing.Config.Document
import Slicing.Proofs.Json.Text
import Slicing.Proofs.Yaml.Text

/-!
# Reading back configurations

Writing a configuration and reading it again is checking that it is sensible
(`Config.ofText_toText`), whatever its settings are: a sensible one comes back as it was,
and any other is refused for what is wrong with it.

The text of a configuration is that of a plain value (`Config.isPlain_toYaml`), so it is
read back as that value. The scalars in it are read back as the settings they were made
of, and so are the stages; as every stage is written out, nothing of the preset is left
but its name (`Config.toConfig_toDocument`).
-/

namespace Slicing

/-! ## Scalars -/

namespace Yaml

theorem digit?_ten {c : Char} (hc : Json.isDigit c) : digit? 10 c = some (c.toNat - '0'.toNat) := by
  simp only [Json.isDigit, Bool.and_eq_true, decide_eq_true_eq] at hc
  have hle : c.toNat ≤ '9'.toNat := hc.2
  have hnine : '9'.toNat = 57 := rfl
  have hzero : '0'.toNat = 48 := rfl
  have hlt : c.toNat - '0'.toNat < 10 := by omega
  rw [digit?, if_pos hc, Option.filter_some, if_pos (by simpa using hlt)]

/-- Decimal digits are read as the number that they stand for. -/
theorem digits?_eq {digits : List Char} (hdigits : ∀ c ∈ digits, Json.isDigit c) (value : Nat) :
    digits? 10 value digits = some (Nat.ofDigitChars 10 digits value) := by
  induction digits generalizing value with
  | nil => simp [digits?]
  | cons c digits ih =>
    have hrest := ih (fun c hc => hdigits c (List.mem_cons_of_mem _ hc))
    rw [digits?, digit?_ten (hdigits c List.mem_cons_self), Option.bind_some, hrest,
      Nat.ofDigitChars_cons, Nat.mul_comm]

/-- What begins with neither a sign nor a zero is in decimal. -/
theorem natOfText?_cons {c : Char} (hplus : c ≠ '+') (hzero : c ≠ '0') (text : List Char) :
    natOfText? (c :: text) = numeral? 10 (c :: text) := by
  unfold natOfText?
  split <;> simp_all

/-- A number is read back from its digits. -/
theorem natOfText?_toString (n : Nat) : natOfText? (toString n).toList = some n := by
  rw [Nat.toString_eq_repr, Nat.toList_repr]
  by_cases hn : n = 0
  · subst hn
    rfl
  · have hdigits : ∀ c ∈ Nat.toDigits 10 n, Json.isDigit c := fun c hc =>
      Json.isDigit_of_mem_toDigits hc
    have hhead := Json.head?_toDigits (Nat.pos_of_ne_zero hn)
    have hvalue := digits?_eq hdigits 0
    rw [Nat.ofDigitChars_ten_toDigits] at hvalue
    cases hlist : Nat.toDigits 10 n with
    | nil => exact absurd hlist Nat.toDigits_ne_nil
    | cons c digits =>
      rw [hlist] at hdigits hhead hvalue
      have hplus : c ≠ '+' := by
        rintro rfl
        exact absurd (hdigits '+' List.mem_cons_self) (by decide)
      rw [natOfText?_cons hplus (by simpa using hhead), numeral?]
      simpa using hvalue

/-- The digits of a number are a word. -/
theorem isWord_toString (n : Nat) : isWord (toString n) := by
  have hdigits : ∀ c ∈ Nat.toDigits 10 n, isWordChar c := by
    intro c hc
    have hdigit : c.isDigit := Nat.isDigit_of_mem_toDigits (by decide) (by decide) hc
    simp [isWordChar, Char.isAlphanum, hdigit]
  simp only [isWord, Nat.toString_eq_repr, Nat.toList_repr, Bool.and_eq_true, List.all_eq_true]
  exact ⟨by simp [Nat.toDigits_ne_nil], hdigits⟩

theorem uint64?_ofNat (n : UInt64) : (ofNat n.toNat).uint64? = some n := by
  have hnat : (ofNat n.toNat).nat? = some n.toNat := natOfText?_toString n.toNat
  rw [uint64?, hnat, Option.filter_some, if_pos (by simpa using n.toNat_lt)]
  simp

theorem bool?_ofBool (b : Bool) : (ofBool b).bool? = some b := by
  cases b <;> rfl

theorem isPlain_ofNat (n : Nat) : isPlain (ofNat n) := by
  rw [ofNat, word, isPlain, isWord_toString]
  rfl

theorem isPlain_ofBool (b : Bool) : isPlain (ofBool b) := by
  cases b <;> decide

theorem record_eq (entries : List (String × Yaml)) :
    record entries = .map (entries.map fun entry => (.scalar entry.1 true, entry.2)) := rfl

/-- A record can be written if its names are short words and its values can be written. -/
theorem isPlain_record {entries : List (String × Yaml)} (hne : entries ≠ [])
    (hnames : (entries.map (·.1)).all fun name => isWord name && name.length ≤ keyLimit)
    (hvalues : ∀ entry ∈ entries, isPlain entry.2) : isPlain (record entries) := by
  have hentries : entriesPlain (entries.map fun entry => (.scalar entry.1 true, entry.2)) := by
    clear hne
    induction entries with
    | nil => rfl
    | cons entry entries ih =>
      rw [List.map_cons, List.all_cons, Bool.and_eq_true, Bool.and_eq_true, decide_eq_true_eq]
        at hnames
      obtain ⟨⟨hword, hlength⟩, hnames⟩ := hnames
      have hvalue := hvalues entry List.mem_cons_self
      have hrest := ih hnames fun entry hentry => hvalues entry (List.mem_cons_of_mem _ hentry)
      simp [entriesPlain, hword, hlength, hvalue, hrest]
  simp [record_eq, isPlain, hentries, hne]

/-- The entries of a record are read back if its names are told apart. -/
theorem entries?_record {known : List String} {entries : List (String × Yaml)}
    (h : uniqueKeys known entries) : (record entries).entries? known = some entries := by
  have hnames : (entries.map fun entry => (Yaml.scalar entry.1 true, entry.2)).mapM
      entries?.named? = some entries := by
    clear h
    induction entries with
    | nil => rfl
    | cons entry entries ih =>
      rw [List.map_cons, List.mapM_cons, ih]
      rfl
  rw [record_eq, entries?, hnames, Option.filter_some, if_pos h]

/-- The entries of a record are read back if all its names are known. -/
theorem exactEntries?_record {known : List String} {entries : List (String × Yaml)}
    (h : uniqueKeys known entries) (hknown : entries.all fun entry => known.contains entry.1) :
    (record entries).exactEntries? known = some entries := by
  rw [exactEntries?, entries?_record h, Option.filter_some, if_pos hknown]

/-- An entry that is present. -/
theorem defaulted?_eq {α : Type} {decode : Yaml → Option α} {key : String} {default : α}
    {entries : List (String × Yaml)} {value : Yaml} {a : α} (h : entries.lookup key = some value)
    (hdecode : decode value = some a) : defaulted? decode key default entries = some a := by
  rw [defaulted?, h]
  exact hdecode

/-- An entry that is present and not null. -/
theorem optional?_eq {α : Type} {decode : Yaml → Option α} {key : String}
    {entries : List (String × Yaml)} {value : Yaml} {a : α} (h : entries.lookup key = some value)
    (hnull : value.isNull = false) (hdecode : decode value = some a) :
    optional? decode key entries = some (some a) := by
  simp [optional?, h, hnull, hdecode]

end Yaml

/-- A direction is read back from its word. -/
theorem Direction.word?_word (direction : Direction) :
    Yaml.word? Direction.words (.word direction.word) = some direction := by
  cases direction <;> rfl

theorem Strategy.word?_word (strategy : Strategy) :
    Yaml.word? Strategy.words (.word strategy.word) = some strategy := by
  cases strategy <;> rfl

/-- A preset is read back from its word. -/
theorem Preset.ofName_word (preset : Preset) : Preset.ofName preset.word = .ok preset := by
  cases preset <;> rfl

/-! ## Stages -/

/-- The configuration of the workers is read back. -/
theorem WorkerConfig.ofYaml?_toYaml (config : WorkerConfig) :
    WorkerConfig.ofYaml? config.toYaml = some config := by
  rw [toYaml, ofYaml?, Yaml.entries?_record rfl]
  simp only [Option.bind_eq_bind, Option.bind_some]
  rw [Yaml.defaulted?_eq rfl (Yaml.uint64?_ofNat config.count),
    Yaml.defaulted?_eq rfl (Yaml.bool?_ofBool config.enabled),
    Yaml.defaulted?_eq rfl (Yaml.uint64?_ofNat config.stackSize)]
  rfl

/-- The configuration of the summaries is read back. -/
theorem SummaryConfig.ofYaml?_toYaml (config : SummaryConfig) :
    SummaryConfig.ofYaml? config.toYaml = some config := by
  rw [toYaml, ofYaml?, Yaml.entries?_record rfl]
  simp only [Option.bind_eq_bind, Option.bind_some]
  rw [Yaml.defaulted?_eq rfl (Yaml.bool?_ofBool config.enabled),
    Yaml.defaulted?_eq rfl (Yaml.uint64?_ofNat config.maxRounds)]
  rfl

/-- The configuration of slices is read back. -/
theorem SliceConfig.ofYaml?_toYaml (config : SliceConfig) :
    SliceConfig.ofYaml? config.toYaml = some config := by
  rw [toYaml, ofYaml?, Yaml.entries?_record rfl]
  simp only [Option.bind_eq_bind, Option.bind_some]
  rw [Yaml.defaulted?_eq rfl (Direction.word?_word config.direction),
    Yaml.defaulted?_eq rfl (Strategy.word?_word config.strategy),
    Yaml.defaulted?_eq rfl (Yaml.bool?_ofBool config.includeControl),
    Yaml.defaulted?_eq rfl (Yaml.bool?_ofBool config.useSummaries),
    Yaml.defaulted?_eq rfl (Yaml.uint64?_ofNat config.cacheCapacity)]
  rfl

/-! ## Documents -/

/-- The document of a configuration, in which every stage is replaced. -/
def Config.toDocument (config : Config) : ConfigDocument where
  version := supportedVersion
  preset := config.preset.word
  overrides := some {
    workers := some config.workers
    summaries := some config.summaries
    slicing := some config.slicing
    failFast := some config.failFast }

/-- What replaces the preset in the text of a configuration. -/
def Config.overridesYaml (config : Config) : Yaml :=
  .record [("parallel", config.workers.toYaml), ("sdg", config.summaries.toYaml),
    ("slicing", config.slicing.toYaml), ("fail_fast", .ofBool config.failFast)]

theorem Config.toYaml_eq (config : Config) : config.toYaml =
    .record [("version", .ofNat supportedVersion.toNat), ("preset", .word config.preset.word),
      ("overrides", config.overridesYaml)] :=
  rfl

/-- The document of a configuration is read back. -/
theorem Config.ofYaml?_toYaml (config : Config) :
    ConfigDocument.ofYaml? config.toYaml = some config.toDocument := by
  have hversion : (Yaml.ofNat supportedVersion.toNat).uint32? = some supportedVersion := rfl
  have hfail : (Yaml.ofBool config.failFast).isNull = false := by cases config.failFast <;> rfl
  have hoverrides : Overrides.ofYaml? config.overridesYaml = config.toDocument.overrides := by
    rw [overridesYaml, Overrides.ofYaml?, Yaml.exactEntries?_record rfl rfl]
    simp only [Option.bind_eq_bind, Option.bind_some]
    rw [Yaml.optional?_eq rfl rfl config.workers.ofYaml?_toYaml,
      Yaml.optional?_eq rfl rfl config.summaries.ofYaml?_toYaml,
      Yaml.optional?_eq rfl rfl config.slicing.ofYaml?_toYaml,
      Yaml.optional?_eq rfl hfail (Yaml.bool?_ofBool config.failFast)]
    rfl
  rw [toYaml_eq, ConfigDocument.ofYaml?, Yaml.exactEntries?_record rfl rfl]
  simp only [Option.bind_eq_bind, Option.bind_some]
  rw [Yaml.optional?_eq rfl rfl hoverrides]
  simp [Yaml.required?, Yaml.defaulted?, List.lookup, hversion, Yaml.text?, Yaml.word, toDocument]

/-- The document of a configuration gives the configuration, whatever its preset, if it is
    sensible. -/
theorem Config.toConfig_toDocument (config : Config) :
    config.toDocument.toConfig = config.validate.map fun _ => config := by
  have hpreset : Preset.ofName config.toDocument.preset = .ok config.preset :=
    config.preset.ofName_word
  rw [ConfigDocument.toConfig, hpreset]
  -- The version is the one that is read, and no setting of the preset is left.
  change (config.validate.bind fun _ => .ok config) = _
  cases config.validate <;> rfl

/-- The document of a configuration can be written as text. -/
theorem Config.isPlain_toYaml (config : Config) : config.toYaml.isPlain := by
  have hpreset : (Yaml.word config.preset.word).isPlain := by cases config.preset <;> decide
  have hdirection : (Yaml.word config.slicing.direction.word).isPlain := by
    cases config.slicing.direction <;> decide
  have hstrategy : (Yaml.word config.slicing.strategy.word).isPlain := by
    cases config.slicing.strategy <;> decide
  have hworkers : config.workers.toYaml.isPlain :=
    Yaml.isPlain_record (by simp) (by simp only [List.map_cons, List.map_nil]; decide)
      (by simp [Yaml.isPlain_ofNat, Yaml.isPlain_ofBool])
  have hsummaries : config.summaries.toYaml.isPlain :=
    Yaml.isPlain_record (by simp) (by simp only [List.map_cons, List.map_nil]; decide)
      (by simp [Yaml.isPlain_ofNat, Yaml.isPlain_ofBool])
  have hslicing : config.slicing.toYaml.isPlain :=
    Yaml.isPlain_record (by simp) (by simp only [List.map_cons, List.map_nil]; decide)
      (by simp [Yaml.isPlain_ofNat, Yaml.isPlain_ofBool, hdirection, hstrategy])
  have hoverrides : config.overridesYaml.isPlain :=
    Yaml.isPlain_record (by simp) (by simp only [List.map_cons, List.map_nil]; decide)
      (by simp [Yaml.isPlain_ofBool, hworkers, hsummaries, hslicing])
  rw [toYaml_eq]
  exact Yaml.isPlain_record (by simp) (by simp only [List.map_cons, List.map_nil]; decide)
    (by simp [Yaml.isPlain_ofNat, hpreset, hoverrides])

/-- Writing a configuration and reading it again is checking it. -/
theorem Config.ofText_toText (config : Config) :
    Config.ofText config.toText = config.validate.map fun _ => config := by
  have hparse : Yaml.parse? config.toText = some config.toYaml :=
    Yaml.parse?_document config.isPlain_toYaml
  rw [ofText, hparse, Option.bind_some, ofYaml?_toYaml]
  exact config.toConfig_toDocument

end Slicing
