import CodeAtlas.Document.Fields

/-!
The numbers that steer a retrieval.
-/

namespace CodeAtlas.Retrieval

open Document

structure Tuning where
  /-- How many chunks of the search the expansion starts from. -/
  seedCount : Nat := 5
  /-- How many steps the expansion goes, and how long a path between seeds may be. -/
  maxHops : Nat := 2
  /-- How many dependencies of one chunk are followed. -/
  maxNeighbors : Nat := 16
  /-- How many chunks are offered for packing. -/
  topK : Nat := 10
  tokenBudget : Nat := 4000
  /-- The share of rank that flows along dependencies. -/
  damping : Float := 0.85
  maxIterations : Nat := 100
  /-- Ranks are settled when they change by less than this. -/
  tolerance : Float := 0.000001
  /-- How many seeds, by rank, paths are looked for between. -/
  pathSeeds : Nat := 4
  maxPathsPerPair : Nat := 64
  maxReportedPaths : Nat := 32
  deriving Inhabited

namespace Tuning

def declared : List FieldName :=
  [⟨"seed_count", []⟩, ⟨"max_hops", []⟩, ⟨"max_neighbors", []⟩, ⟨"top_k", []⟩,
    ⟨"token_budget", []⟩, ⟨"damping", []⟩, ⟨"max_iterations", []⟩, ⟨"tolerance", []⟩,
    ⟨"path_seeds", []⟩, ⟨"max_paths_per_pair", []⟩, ⟨"max_reported_paths", []⟩]

def ofDocument? (d : Document) : Option Tuning := do
  let fs ← Fields.ofDocument? declared d
  let usual : Tuning := {}
  return {
    seedCount := ← fs.defaulted "seed_count" usual.seedCount size?
    maxHops := ← fs.defaulted "max_hops" usual.maxHops size?
    maxNeighbors := ← fs.defaulted "max_neighbors" usual.maxNeighbors size?
    topK := ← fs.defaulted "top_k" usual.topK size?
    tokenBudget := ← fs.defaulted "token_budget" usual.tokenBudget size?
    damping := ← fs.defaulted "damping" usual.damping real?
    maxIterations := ← fs.defaulted "max_iterations" usual.maxIterations size?
    tolerance := ← fs.defaulted "tolerance" usual.tolerance real?
    pathSeeds := ← fs.defaulted "path_seeds" usual.pathSeeds size?
    maxPathsPerPair := ← fs.defaulted "max_paths_per_pair" usual.maxPathsPerPair size?
    maxReportedPaths := ← fs.defaulted "max_reported_paths" usual.maxReportedPaths size? }

def toDocument (t : Tuning) : Document :=
  record [("seed_count", ofNat t.seedCount), ("max_hops", ofNat t.maxHops),
    ("max_neighbors", ofNat t.maxNeighbors), ("top_k", ofNat t.topK),
    ("token_budget", ofNat t.tokenBudget), ("damping", real t.damping),
    ("max_iterations", ofNat t.maxIterations), ("tolerance", real t.tolerance),
    ("path_seeds", ofNat t.pathSeeds), ("max_paths_per_pair", ofNat t.maxPathsPerPair),
    ("max_reported_paths", ofNat t.maxReportedPaths)]

end Tuning

end CodeAtlas.Retrieval
