import Slicing.Config.Basic

/-!
# Sensible configurations

A configuration is sensible if its numbers are within their ranges (`Limit`) and
its settings agree: a slice in two phases steps over calls along summary edges,
so they have to be computed and followed.

The stages are checked one after another, and what concerns several of them at
the end. The first objection counts.
-/

namespace Slicing

/-- The settings that have a range. -/
inductive Limit where
  | workerCount
  | stackSize
  | summaryRounds
  | cacheCapacity
  deriving DecidableEq, Repr

namespace Limit

/-- The name of a setting. -/
def field : Limit → String
  | .workerCount => "num_workers"
  | .stackSize => "stack_size_mb"
  | .summaryRounds => "max_summary_rounds"
  | .cacheCapacity => "cache_capacity"

/-- The least value of a setting. -/
def least : Limit → Nat
  | .workerCount | .cacheCapacity => 0
  | .stackSize | .summaryRounds => 1

/-- The greatest value of a setting. -/
def greatest : Limit → Nat
  | .workerCount => 256
  | .stackSize => 64
  | .summaryRounds | .cacheCapacity => 100000

/-- What to keep in mind about a setting. -/
def hint : Limit → String
  | .workerCount => "Number of workers must be reasonable (0=auto)"
  | .stackSize => "Stack size must be reasonable"
  | .summaryRounds => "Summary fixed point needs at least one round"
  | .cacheCapacity => "Slice cache must be reasonable (0=disabled)"

end Limit

/-- Why a configuration is refused. -/
inductive ConfigError where
  /-- A setting is out of its range. -/
  | outOfRange (limit : Limit) (value : UInt64)
  /-- No preset has the name. -/
  | unknownPreset (name : String)
  /-- A document is of a version that is not read. -/
  | unsupportedVersion (found : UInt32)
  /-- Slices are made in two phases without following summary edges. -/
  | summariesNotFollowed
  /-- Slices are made in two phases without computing summary edges. -/
  | summariesNotComputed
  /-- A file cannot be read. -/
  | unreadableFile
  /-- A text is no configuration document. -/
  | malformedDocument
  deriving DecidableEq, Repr

/-- The version of configuration documents that is read. -/
def supportedVersion : UInt32 := 1

namespace ConfigError

/-- The text of a conflict between settings. -/
def conflictMessage (issue fix : String) : String :=
  "Cross-stage configuration conflict: " ++ issue ++ ". Fix: " ++ fix

/-- The text of an error. -/
def message : ConfigError → String
  | .outOfRange limit value =>
    "Invalid range for field '" ++ limit.field ++ "': " ++ toString value.toNat ++ " not in " ++
      toString limit.least ++ "..=" ++ toString limit.greatest ++ ". " ++ limit.hint
  | .unknownPreset name =>
    "Unknown preset '" ++ name ++ "'. Valid presets: fast, balanced, thorough"
  | .unsupportedVersion found =>
    "Unsupported configuration version " ++ toString found.toNat ++ ". Supported versions: " ++
      toString supportedVersion.toNat
  | .summariesNotFollowed =>
    conflictMessage "two-phase slicing cannot step over calls without summary edges"
      "set slicing.use_summary_edges = true or slicing.strategy = closure"
  | .summariesNotComputed =>
    conflictMessage "slicing.strategy = two_phase but sdg.summary_edges = false"
      "enable sdg.summary_edges or use the closure strategy"
  | .unreadableFile => "IO error"
  | .malformedDocument => "YAML parsing error"

end ConfigError

/-- A setting is within its range. -/
def Limit.check (limit : Limit) (value : UInt64) : Except ConfigError Unit :=
  if limit.least ≤ value.toNat ∧ value.toNat ≤ limit.greatest then .ok ()
  else .error (.outOfRange limit value)

/-- The workers are sensible. -/
def WorkerConfig.validate (config : WorkerConfig) : Except ConfigError Unit := do
  Limit.workerCount.check config.count
  Limit.stackSize.check config.stackSize

/-- The summaries are sensible. -/
def SummaryConfig.validate (config : SummaryConfig) : Except ConfigError Unit :=
  Limit.summaryRounds.check config.maxRounds

/-- The traversals are sensible. -/
def SliceConfig.validate (config : SliceConfig) : Except ConfigError Unit := do
  Limit.cacheCapacity.check config.cacheCapacity
  if config.strategy = .twoPhase ∧ !config.useSummaries then throw .summariesNotFollowed

/-- A configuration is sensible. -/
def Config.validate (config : Config) : Except ConfigError Unit := do
  config.workers.validate
  config.summaries.validate
  config.slicing.validate
  if config.slicing.strategy = .twoPhase ∧ !config.summaries.enabled then
    throw .summariesNotComputed

/-- The preset with a name, written in letters of any case. (The names are of
    ASCII letters, and no other letter is one of them in another case.) -/
def Preset.ofName (name : String) : Except ConfigError Preset :=
  match Preset.words.lookup (String.ofList (name.toList.map Char.toLower)) with
  | some preset => .ok preset
  | none => .error (.unknownPreset name)

end Slicing
