/-!
# Configuration

An analysis is configured in three stages: the workers that analyse callables,
the summaries of calls in the system dependence graph, and the traversals that
make slices. A *preset* gives all of them; a stage, or a setting of one, may
then be replaced.

Numbers are of 64 bits. A configuration need not be sensible; which ones are is
said in `Slicing.Config.Validation`.
-/

namespace Slicing

/-- Which way a slice goes from its criterion. -/
inductive Direction where
  /-- To everything that may influence the criterion. -/
  | backward
  /-- To everything that the criterion may influence. -/
  | forward
  deriving DecidableEq, Repr

/-- How a slice follows edges between callables. -/
inductive Strategy where
  /-- By plain reachability. -/
  | closure
  /-- In two phases, so that a call returns only to where it was made. -/
  | twoPhase
  deriving DecidableEq, Repr

/-- A complete configuration for a common purpose. -/
inductive Preset where
  /-- No summaries and no cache. -/
  | fast
  /-- Summaries and plain slices, with a small cache. -/
  | balanced
  /-- Summaries, slices in two phases and a large cache. -/
  | thorough
  deriving DecidableEq, Repr

/-- The workers that analyse callables. -/
structure WorkerConfig where
  /-- The number of workers, where zero leaves the choice to the machine. -/
  count : UInt64
  /-- Whether more than one worker is used at all. -/
  enabled : Bool
  /-- The stack of a worker in megabytes. -/
  stackSize : UInt64
  deriving DecidableEq, Repr

/-- The summaries of calls. -/
structure SummaryConfig where
  /-- Whether summary edges are computed. -/
  enabled : Bool
  /-- The greatest number of rounds of their computation. -/
  maxRounds : UInt64
  deriving DecidableEq, Repr

/-- The traversals that make slices. -/
structure SliceConfig where
  direction : Direction
  strategy : Strategy
  /-- Whether control dependences are followed. -/
  includeControl : Bool
  /-- Whether summary edges are followed. -/
  useSummaries : Bool
  /-- The number of slices that are kept, where zero keeps none. -/
  cacheCapacity : UInt64
  deriving DecidableEq, Repr

/-- A configuration of the analysis. -/
structure Config where
  preset : Preset
  workers : WorkerConfig
  summaries : SummaryConfig
  slicing : SliceConfig
  /-- Whether the first callable that cannot be analysed ends the analysis. -/
  failFast : Bool
  deriving DecidableEq, Repr

/-! ## Presets -/

/-- The workers of a preset. -/
def WorkerConfig.ofPreset : Preset → WorkerConfig
  | .fast | .balanced => ⟨0, true, 8⟩
  | .thorough => ⟨0, true, 16⟩

/-- The summaries of a preset. -/
def SummaryConfig.ofPreset : Preset → SummaryConfig
  | .fast => ⟨false, 1000⟩
  | .balanced => ⟨true, 1000⟩
  | .thorough => ⟨true, 10000⟩

/-- The traversals of a preset. -/
def SliceConfig.ofPreset : Preset → SliceConfig
  | .fast => ⟨.backward, .closure, true, false, 0⟩
  | .balanced => ⟨.backward, .closure, true, true, 256⟩
  | .thorough => ⟨.backward, .twoPhase, true, true, 1024⟩

/-- The configuration of a preset. -/
def Config.ofPreset (preset : Preset) : Config :=
  ⟨preset, .ofPreset preset, .ofPreset preset, .ofPreset preset, true⟩

/-- The configuration used if none is given. -/
def Config.default : Config := .ofPreset .balanced

/-- The number of workers, where the choice of the machine is `none`. -/
def WorkerConfig.effectiveCount? (config : WorkerConfig) : Option Nat :=
  if !config.enabled then some 1
  else if config.count = 0 then none
  else some config.count.toNat

/-! ## Words -/

/-- The word for a direction. -/
def Direction.word : Direction → String
  | .backward => "backward"
  | .forward => "forward"

/-- The word for a strategy. -/
def Strategy.word : Strategy → String
  | .closure => "closure"
  | .twoPhase => "two_phase"

/-- The word for a preset. -/
def Preset.word : Preset → String
  | .fast => "fast"
  | .balanced => "balanced"
  | .thorough => "thorough"

/-- All directions by their words. -/
def Direction.words : List (String × Direction) :=
  [Direction.backward, .forward].map fun direction => (direction.word, direction)

/-- All strategies by their words. -/
def Strategy.words : List (String × Strategy) :=
  [Strategy.closure, .twoPhase].map fun strategy => (strategy.word, strategy)

/-- All presets by their words. -/
def Preset.words : List (String × Preset) :=
  [Preset.fast, .balanced, .thorough].map fun preset => (preset.word, preset)

end Slicing
