import Slicing.Config.Basic
import Slicing.Json.Decoder

/-!
# Configurations in JSON

Every setting is written. When a configuration is read, a setting that is left
out, also one of a stage, is that of the balanced preset, whichever preset is
named; the settings are taken as they are, sensible or not.
-/

namespace Slicing

open Json (Decoder Record decodeBool decodeUInt64 decodeWord)

/-- The JSON form of the workers. -/
def WorkerConfig.toJson (config : WorkerConfig) : Json :=
  .obj [("num_workers", .nat config.count.toNat), ("enable_rayon", .bool config.enabled),
    ("stack_size_mb", .nat config.stackSize.toNat)]

/-- The JSON form of the summaries. -/
def SummaryConfig.toJson (config : SummaryConfig) : Json :=
  .obj [("summary_edges", .bool config.enabled),
    ("max_summary_rounds", .nat config.maxRounds.toNat)]

/-- The JSON form of the traversals. -/
def SliceConfig.toJson (config : SliceConfig) : Json :=
  .obj [("direction", .str config.direction.word), ("strategy", .str config.strategy.word),
    ("include_control", .bool config.includeControl),
    ("use_summary_edges", .bool config.useSummaries),
    ("cache_capacity", .nat config.cacheCapacity.toNat)]

/-- The JSON form of a configuration. -/
def Config.toJson (config : Config) : Json :=
  .obj [("preset", .str config.preset.word), ("parallel", config.workers.toJson),
    ("sdg", config.summaries.toJson), ("slicing", config.slicing.toJson),
    ("fail_fast", .bool config.failFast)]

/-- Reads a direction. -/
def Direction.decode : Decoder Direction := decodeWord Direction.words

/-- Reads a strategy. -/
def Strategy.decode : Decoder Strategy := decodeWord Strategy.words

/-- Reads the workers. -/
def WorkerConfig.decode : Decoder WorkerConfig :=
  let default := WorkerConfig.ofPreset .balanced
  Record.decode <| WorkerConfig.mk <$> .defaulted "num_workers" default.count decodeUInt64
    <*> .defaulted "enable_rayon" default.enabled decodeBool
    <*> .defaulted "stack_size_mb" default.stackSize decodeUInt64

/-- Reads the summaries. -/
def SummaryConfig.decode : Decoder SummaryConfig :=
  let default := SummaryConfig.ofPreset .balanced
  Record.decode <| SummaryConfig.mk <$> .defaulted "summary_edges" default.enabled decodeBool
    <*> .defaulted "max_summary_rounds" default.maxRounds decodeUInt64

/-- Reads the traversals. -/
def SliceConfig.decode : Decoder SliceConfig :=
  let default := SliceConfig.ofPreset .balanced
  Record.decode <| SliceConfig.mk <$> .defaulted "direction" default.direction Direction.decode
    <*> .defaulted "strategy" default.strategy Strategy.decode
    <*> .defaulted "include_control" default.includeControl decodeBool
    <*> .defaulted "use_summary_edges" default.useSummaries decodeBool
    <*> .defaulted "cache_capacity" default.cacheCapacity decodeUInt64

/-- Reads a configuration. -/
def Config.decode : Decoder Config :=
  let default := Config.default
  Record.decode <| Config.mk
    <$> .defaulted "preset" default.preset (decodeWord Preset.words)
    <*> .defaulted "parallel" default.workers WorkerConfig.decode
    <*> .defaulted "sdg" default.summaries SummaryConfig.decode
    <*> .defaulted "slicing" default.slicing SliceConfig.decode
    <*> .defaulted "fail_fast" default.failFast decodeBool

/-- Replaces a setting, named by its stage and name, by a value of its type. -/
def Config.set (config : Config) (key : String) (value : Json) : Except Json.Fault Config :=
  match key with
  | "fail_fast" => do return { config with failFast := ← decodeBool value }
  | "parallel.num_workers" => do return { config with workers.count := ← decodeUInt64 value }
  | "parallel.enable_rayon" => do return { config with workers.enabled := ← decodeBool value }
  | "parallel.stack_size_mb" => do return { config with workers.stackSize := ← decodeUInt64 value }
  | "sdg.summary_edges" => do return { config with summaries.enabled := ← decodeBool value }
  | "sdg.max_summary_rounds" => do
    return { config with summaries.maxRounds := ← decodeUInt64 value }
  | "slicing.direction" => do
    return { config with slicing.direction := ← Direction.decode value }
  | "slicing.strategy" => do return { config with slicing.strategy := ← Strategy.decode value }
  | "slicing.include_control" => do
    return { config with slicing.includeControl := ← decodeBool value }
  | "slicing.use_summary_edges" => do
    return { config with slicing.useSummaries := ← decodeBool value }
  | "slicing.cache_capacity" => do
    return { config with slicing.cacheCapacity := ← decodeUInt64 value }
  | _ => .error .mismatched

end Slicing
