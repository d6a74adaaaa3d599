import Slicing.Slice.Basic

/-!
# Slicers

A slicer answers queries about one graph and remembers the answers it gave last.
It remembers as many as its configuration says; when there are too many, the one
whose query was asked the longest ago is forgotten. A query without an answer is
counted but not remembered.
-/

namespace Slicing

/-- Answers queries about a graph. -/
structure Slicer where
  graph : SystemGraph
  config : SliceConfig
  /-- The answers that are remembered, those asked for last first. -/
  cache : List (Query × Slice) := []
  /-- The number of queries. -/
  queries : Nat := 0
  /-- The number of queries whose answer was remembered. -/
  hits : Nat := 0

namespace Slicer

/-- A slicer with a sensible configuration. -/
def new (graph : SystemGraph) (config : SliceConfig) : Except Error Slicer := do
  config.validate.mapError .config
  return { graph, config }

/-- A slicer that has answered nothing. -/
def renewed (s : Slicer) : Slicer := { graph := s.graph, config := s.config }

/-- The number of answers that can be remembered. -/
def capacity (s : Slicer) : Nat := s.config.cacheCapacity.toNat

/-- The cache after a query was answered. -/
def remember (s : Slicer) (query : Query) (slice : Slice) : List (Query × Slice) :=
  ((query, slice) :: s.cache.filter (·.1 != query)).take s.capacity

/-- Answers a query. -/
def ask (s : Slicer) (query : Query) : Except Error Slice × Slicer :=
  let s := { s with queries := s.queries + 1 }
  match s.cache.lookup query with
  | some slice => (.ok slice, { s with cache := s.remember query slice, hits := s.hits + 1 })
  | none =>
    match query.answer s.graph s.config with
    | .ok slice => (.ok slice, { s with cache := s.remember query slice })
    | .error e => (.error (.criterion e), s)

/-- Forgets all answers. -/
def clear (s : Slicer) : Slicer := { s with cache := [] }

/-- Forgets all answers, and says how many there were. -/
def forget (s : Slicer) : Nat × Slicer := (s.cache.length, s.clear)

/-- The number of queries whose answer was not remembered. -/
def misses (s : Slicer) : Nat := s.queries - s.hits

/-- The numbers of queries and of answers remembered. -/
def statsJson (s : Slicer) : Json :=
  .obj [("queries", .nat s.queries), ("cache_hits", .nat s.hits),
    ("cache_misses", .nat s.misses), ("cached", .nat s.cache.length),
    ("capacity", .nat s.capacity)]

end Slicer

end Slicing
