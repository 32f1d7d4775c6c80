import CodeAtlas.Retrieval.Expansion
import CodeAtlas.Retrieval.PageRank
import CodeAtlas.Retrieval.Query
import CodeAtlas.Retrieval.SimplePath
import CodeAtlas.Retrieval.Tuning
import CodeAtlas.Score

/-!
The ranking of what an expansion has met: by PageRank, by how many simple paths between seeds pass,
and by the terms of the query. Without any steps there is nothing to rank by but the similarity of
the seeds.
-/

namespace CodeAtlas.Retrieval

instance natCastFloat : NatCast Float := ⟨Float.ofNat⟩

namespace Expanded

section Rank

variable {α : Type} [OfScientific α]

def flows (x : Expanded) : List (Flow α) :=
  x.steps.filterMap fun s => do
    return ⟨← x.nodes.idxOf? s.source, ← x.nodes.idxOf? s.target, s.relationship.weight⟩

variable [NatCast α] [Add α] [Sub α] [Mul α] [Div α] [LT α] [DecidableLT α] [BEq α]

/-- The ranks of the nodes, for a share of rank that flows and no more than so many rounds. -/
def ranks (x : Expanded) (damping : α) (rounds : Nat) (tolerance : α) : List α :=
  PageRank.ranks x.nodes.length x.flows damping rounds tolerance

end Rank

def pageRank (x : Expanded) (t : Tuning) : List Float :=
  x.ranks t.damping t.maxIterations t.tolerance

/-- The positions the steps out of a node lead to, the last step first. -/
def successors (x : Expanded) (v : Nat) : List Nat :=
  (((x.flows : List (Flow Float)).filter fun f => f.source == v).map Flow.target).reverse

/-- The positions of the seeds, by rank, as many as paths are looked for between. -/
def pathSeeds (x : Expanded) (t : Tuning) (ranks : List Float) : List Nat :=
  let seeds := x.seeds.filterMap fun id => x.nodes.idxOf? id
  (sortByScore (PageRank.rankAt ranks) seeds).take t.pathSeeds

/-- The paths between different seeds. A search is told how many nodes may stand between the ends of
a path, how many paths are wanted, and its ends. -/
def pathsBy (x : Expanded) (search : (inner limit start goal : Nat) → List (List Nat)) (t : Tuning)
    (ranks : List Float) : List (List Nat) :=
  if t.maxHops == 0 || x.steps.isEmpty then []
  else
    let seeds := x.pathSeeds t ranks
    seeds.flatMap fun start => (seeds.filter (· != start)).flatMap fun goal =>
      search (t.maxHops - 1) t.maxPathsPerPair start goal

def seedPaths (x : Expanded) (t : Tuning) (ranks : List Float) : List (List Nat) :=
  x.pathsBy (SimplePath.between x.successors) t ranks

end Expanded

/-- For each of so many nodes, the share of the largest number of paths that pass a node. -/
def pathMembership (nodes : Nat) (paths : List (List Nat)) : List Float :=
  let counts := (List.range nodes).map fun v => paths.foldl (fun n p => n + p.count v) 0
  let most := counts.foldl max 0
  counts.map fun c => if most == 0 then 0.0 else Float.ofNat c / Float.ofNat most

structure RankedNode where
  id : String
  isSeed : Bool
  /-- The similarity that the search found; only seeds have one. -/
  similarity : Option Float
  pageRank : Float
  pathMembership : Float
  relevance : Float
  score : Float

def combined (pageRank pathMembership relevance : Float) : Float :=
  pageRank + 0.5 * pathMembership + 0.3 * relevance

/-- The nodes of an expansion, best first, and the paths between its seeds that are reported. -/
structure Ranking where
  nodes : List RankedNode := []
  paths : List (List String) := []

def scoredNodes (x : Expanded) (chunk? : String → Option Chunk)
    (similarity? : String → Option Float) (terms : List String) (ranks members : List Float) :
    List RankedNode :=
  x.nodes.zipIdx.map fun (id, v) =>
    let similarity := similarity? id
    let relevance := ((chunk? id).map (relevance terms)).getD 0.0
    let pageRank := PageRank.rankAt ranks v
    let pathMembership := PageRank.rankAt members v
    { id, isSeed := x.seeds.contains id, similarity, pageRank, pathMembership, relevance
      score :=
        if x.steps.isEmpty then similarity.getD 0.0
        else combined pageRank pathMembership relevance }

def rank (x : Expanded) (chunk? : String → Option Chunk) (similarity? : String → Option Float)
    (query : String) (t : Tuning) : Ranking :=
  let ranks := x.pageRank t
  let paths := x.seedPaths t ranks
  let members := pathMembership x.nodes.length paths
  { nodes := sortByScore RankedNode.score
      (scoredNodes x chunk? similarity? (queryTerms query) ranks members)
    paths := (paths.take t.maxReportedPaths).map fun p => p.filterMap fun v => x.nodes[v]? }

end CodeAtlas.Retrieval
