import Slicing.Config.Validation
import Slicing.Yaml.Parser
import Slicing.Yaml.Printer

/-!
# Configuration documents

A configuration is kept as a YAML document: the version of its format, a preset,
and what replaces the preset. A stage that is present replaces the whole stage
of the preset; the settings that it leaves out are those of the balanced preset.

Documents have no other keys at their top and among the overrides; unknown
settings of a stage are ignored.

Reading a document checks its form, then its version, then the name of the preset,
and then whether the configuration is sensible.
-/

namespace Slicing

/-- What replaces the settings of a preset. -/
structure Overrides where
  workers : Option WorkerConfig := none
  summaries : Option SummaryConfig := none
  slicing : Option SliceConfig := none
  failFast : Option Bool := none

/-- A configuration document. -/
structure ConfigDocument where
  version : UInt32
  preset : String
  overrides : Option Overrides

/-! ## Reading -/

/-- Reads the workers. -/
def WorkerConfig.ofYaml? (value : Yaml) : Option WorkerConfig := do
  let default := WorkerConfig.ofPreset .balanced
  let entries ← value.entries? ["num_workers", "enable_rayon", "stack_size_mb"]
  return {
    count := ← Yaml.defaulted? Yaml.uint64? "num_workers" default.count entries
    enabled := ← Yaml.defaulted? Yaml.bool? "enable_rayon" default.enabled entries
    stackSize := ← Yaml.defaulted? Yaml.uint64? "stack_size_mb" default.stackSize entries }

/-- Reads the summaries. -/
def SummaryConfig.ofYaml? (value : Yaml) : Option SummaryConfig := do
  let default := SummaryConfig.ofPreset .balanced
  let entries ← value.entries? ["summary_edges", "max_summary_rounds"]
  return {
    enabled := ← Yaml.defaulted? Yaml.bool? "summary_edges" default.enabled entries
    maxRounds := ← Yaml.defaulted? Yaml.uint64? "max_summary_rounds" default.maxRounds entries }

/-- Reads the traversals. -/
def SliceConfig.ofYaml? (value : Yaml) : Option SliceConfig := do
  let default := SliceConfig.ofPreset .balanced
  let entries ← value.entries? ["direction", "strategy", "include_control", "use_summary_edges",
    "cache_capacity"]
  return {
    direction :=
      ← Yaml.defaulted? (Yaml.word? Direction.words) "direction" default.direction entries
    strategy := ← Yaml.defaulted? (Yaml.word? Strategy.words) "strategy" default.strategy entries
    includeControl :=
      ← Yaml.defaulted? Yaml.bool? "include_control" default.includeControl entries
    useSummaries :=
      ← Yaml.defaulted? Yaml.bool? "use_summary_edges" default.useSummaries entries
    cacheCapacity :=
      ← Yaml.defaulted? Yaml.uint64? "cache_capacity" default.cacheCapacity entries }

/-- Reads overrides. -/
def Overrides.ofYaml? (value : Yaml) : Option Overrides := do
  let entries ← value.exactEntries? ["parallel", "sdg", "slicing", "fail_fast"]
  return {
    workers := ← Yaml.optional? WorkerConfig.ofYaml? "parallel" entries
    summaries := ← Yaml.optional? SummaryConfig.ofYaml? "sdg" entries
    slicing := ← Yaml.optional? SliceConfig.ofYaml? "slicing" entries
    failFast := ← Yaml.optional? Yaml.bool? "fail_fast" entries }

/-- Reads a document. -/
def ConfigDocument.ofYaml? (value : Yaml) : Option ConfigDocument := do
  let entries ← value.exactEntries? ["version", "preset", "overrides"]
  return {
    version := ← Yaml.required? Yaml.uint32? "version" entries
    preset := ← Yaml.defaulted? Yaml.text? "preset" Preset.balanced.word entries
    overrides := ← Yaml.optional? Overrides.ofYaml? "overrides" entries }

/-- A configuration with some of its parts replaced. -/
def Config.override (config : Config) (overrides : Overrides) : Config :=
  { config with
    workers := overrides.workers.getD config.workers
    summaries := overrides.summaries.getD config.summaries
    slicing := overrides.slicing.getD config.slicing
    failFast := overrides.failFast.getD config.failFast }

/-- The configuration of a document, if it is sensible. -/
def ConfigDocument.toConfig (document : ConfigDocument) : Except ConfigError Config := do
  if document.version ≠ supportedVersion then throw (.unsupportedVersion document.version)
  let preset ← Preset.ofName document.preset
  let config := (Config.ofPreset preset).override (document.overrides.getD {})
  config.validate
  return config

/-- The configuration written in a text, if it is sensible. -/
def Config.ofText (text : String) : Except ConfigError Config :=
  match (Yaml.parse? text).bind ConfigDocument.ofYaml? with
  | some document => document.toConfig
  | none => .error .malformedDocument

/-! ## Writing -/

/-- A plain scalar. -/
def Yaml.word (text : String) : Yaml := .scalar text true

/-- A truth value. -/
def Yaml.ofBool (b : Bool) : Yaml := .word (if b then "true" else "false")

/-- A number. -/
def Yaml.ofNat (n : Nat) : Yaml := .word (toString n)

/-- The document of the workers. -/
def WorkerConfig.toYaml (config : WorkerConfig) : Yaml :=
  .record [("num_workers", .ofNat config.count.toNat), ("enable_rayon", .ofBool config.enabled),
    ("stack_size_mb", .ofNat config.stackSize.toNat)]

/-- The document of the summaries. -/
def SummaryConfig.toYaml (config : SummaryConfig) : Yaml :=
  .record [("summary_edges", .ofBool config.enabled),
    ("max_summary_rounds", .ofNat config.maxRounds.toNat)]

/-- The document of the traversals. -/
def SliceConfig.toYaml (config : SliceConfig) : Yaml :=
  .record [("direction", .word config.direction.word), ("strategy", .word config.strategy.word),
    ("include_control", .ofBool config.includeControl),
    ("use_summary_edges", .ofBool config.useSummaries),
    ("cache_capacity", .ofNat config.cacheCapacity.toNat)]

/-- The document of a configuration, in which every stage is written out. -/
def Config.toYaml (config : Config) : Yaml :=
  .record [("version", .ofNat supportedVersion.toNat), ("preset", .word config.preset.word),
    ("overrides", .record [("parallel", config.workers.toYaml), ("sdg", config.summaries.toYaml),
      ("slicing", config.slicing.toYaml), ("fail_fast", .ofBool config.failFast)])]

/-- The text of a configuration. -/
def Config.toText (config : Config) : String := config.toYaml.document

end Slicing
