import CodeAtlas.Embedding
import CodeAtlas.Retrieval.Assembly
import CodeAtlas.Retrieval.Ranking
import CodeAtlas.Store.Hit

/-!
Retrieval: what chunks say most about a query. The search gives seeds, which are expanded through
the dependencies, ranked and packed. Nothing is written.
-/

namespace CodeAtlas

open Document

namespace Retrieval

/-- What retrieval asks of a store. -/
structure Holdings where
  /-- The chunks most similar to an embedding, so many at most. -/
  search : Embedding → Nat → Except Failure (List Hit)
  /-- The chunk with an id. -/
  chunk? : String → Except Failure (Option Chunk)
  /-- The dependencies of an id, so many at most. -/
  neighbors : String → Nat → Except Failure (List Dependency)

structure Outcome where
  packed : Packed := {}
  nodeCount : Nat := 0
  edgeCount : Nat := 0
  paths : List (List String) := []
  nodes : List RankedNode := []

/-- The chunks that were found, by their ids; of hits with one id the last counts. -/
def foundChunks (hits : List Hit) : List (String × Chunk) :=
  (hits.map fun hit => (hit.chunk.id, hit.chunk)).reverse

def foundSimilarities (hits : List Hit) : List (String × Float) :=
  (hits.map fun hit => (hit.chunk.id, hit.similarity)).reverse

/-- The chunks of nodes: those that were found, and the others from the store, where it has them. -/
def bodies (h : Holdings) (hits : List Hit) (ids : List String) :
    Except Failure (List (String × Chunk)) := do
  let others ← (ids.filter fun id => ((foundChunks hits).lookup id).isNone).mapM fun id => do
    return (← h.chunk? id).map fun c => (id, c)
  return foundChunks hits ++ others.filterMap id

/-- The chunks offered for packing: the best that have a chunk. -/
def selected (bodies : List (String × Chunk)) (nodes : List RankedNode) (topK : Nat) : List Chunk :=
  (nodes.filterMap fun n => bodies.lookup n.id).take topK

def fromHits (h : Holdings) (t : Tuning) (query : String) (hits : List Hit) :
    Except Failure Outcome := do
  let x ← expand (h.neighbors · t.maxNeighbors) (hits.map fun hit => hit.chunk.id) t.maxHops
  let bodies ← bodies h hits x.nodes
  let ranking :=
    rank x (fun id => bodies.lookup id) (fun id => (foundSimilarities hits).lookup id) query t
  return {
    packed := pack t.tokenBudget (selected bodies ranking.nodes t.topK)
    nodeCount := x.nodes.length
    edgeCount := x.steps.length
    paths := ranking.paths
    nodes := ranking.nodes }

def retrieve (h : Holdings) (embed : Embedder) (t : Tuning) (query : String) :
    Except Failure Outcome := do
  match ← h.search (← embed query) t.seedCount with
  | [] => return {}
  | hits => fromHits h t query hits

def RankedNode.toDocument (n : RankedNode) : Document :=
  record [("node_id", text n.id), ("is_seed", boolean n.isSeed),
    ("similarity", (n.similarity.map real).getD null), ("pagerank", real n.pageRank),
    ("path_membership", real n.pathMembership), ("text_relevance", real n.relevance),
    ("final_score", real n.score)]

def Outcome.toDocument (o : Outcome) : Document :=
  record [("context_text", text o.packed.text), ("included_chunk_ids", ofTexts o.packed.included),
    ("excluded_chunk_ids", ofTexts o.packed.excluded), ("total_tokens", ofNat o.packed.tokens),
    ("graph_node_count", ofNat o.nodeCount), ("graph_edge_count", ofNat o.edgeCount),
    ("discovered_paths", list (o.paths.map ofTexts)),
    ("nodes", list (o.nodes.map RankedNode.toDocument))]

end Retrieval

end CodeAtlas
