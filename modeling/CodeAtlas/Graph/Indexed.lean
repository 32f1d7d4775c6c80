import CodeAtlas.Graph.Inference
import CodeAtlas.Graph.NodeLink

/-!
A graph as it is held in memory. An index gives the position of the node of each id, and two tables
give for the position of every node the positions of the dependencies that start and that end there,
so that those of an id are found without a look at the others. The measures are taken once, when the
graph is put together.
-/

namespace CodeAtlas

open Metrics

/-- The nodes taken in so far, and for each id the position of its node. -/
structure Roll where
  nodes : List Node := []
  index : List (String × Nat) := []

namespace Roll

/-- Takes in one more node, unless there is one of its id. -/
def take (r : Roll) (n : Node) : Roll :=
  match r.index.lookup n.id with
  | some _ => r
  | none => ⟨r.nodes ++ [n], (n.id, r.nodes.length) :: r.index⟩

def ofNodes (nodes : List Node) : Roll :=
  nodes.foldl take {}

def position? (r : Roll) (id : String) : Option Nat :=
  r.index.lookup id

def hasEnds (r : Roll) (e : Dependency) : Bool :=
  (r.position? e.source).isSome && (r.position? e.target).isSome

end Roll

/-- A table with one more entry at the end of a row. -/
def enterAt (rows : List (List Nat)) (row : Option Nat) (entry : Nat) : List (List Nat) :=
  match row with
  | some p => rows.modify p (· ++ [entry])
  | none => rows

/-- The positions of dependencies, each in the row that `row` gives for it, in a table of so many
rows. -/
def tabulate (row : Dependency → Option Nat) (rows : Nat) (edges : List Dependency) :
    List (List Nat) :=
  edges.zipIdx.foldl (fun table x => enterAt table (row x.1) x.2) (List.replicate rows [])

/-- A graph with its index, its tables and its measures. -/
structure IndexedGraph where
  roll : Roll := {}
  edges : List Dependency := []
  outgoing : List (List Nat) := []
  incoming : List (List Nat) := []
  metrics : GraphMetrics := {}
  nodeMetrics : List NodeMetrics := []

namespace IndexedGraph

def toGraph (g : IndexedGraph) : Graph :=
  ⟨g.roll.nodes, g.edges⟩

def measureNodes (nodes : List Node) (outgoing incoming : List (List Nat)) : List NodeMetrics :=
  nodes.mapIdx fun p n =>
    ofFans (incoming[p]?.getD []).length (outgoing[p]?.getD []).length n.isInterface

def ofParts (nodes : List Node) (edges : List Dependency) : IndexedGraph :=
  let roll := Roll.ofNodes nodes
  let edges := edges.filter roll.hasEnds
  let outgoing := tabulate (fun e => roll.position? e.source) roll.nodes.length edges
  let incoming := tabulate (fun e => roll.position? e.target) roll.nodes.length edges
  { roll, edges, outgoing, incoming
    metrics := Graph.metrics ⟨roll.nodes, edges⟩
    nodeMetrics := measureNodes roll.nodes outgoing incoming }

def listed (g : IndexedGraph) (table : List (List Nat)) (id : String) : List Dependency :=
  match g.roll.position? id with
  | some p => (table[p]?.getD []).filterMap fun i => g.edges[i]?
  | none => []

def outgoingOf (g : IndexedGraph) (id : String) : List Dependency :=
  g.listed g.outgoing id

def incomingOf (g : IndexedGraph) (id : String) : List Dependency :=
  g.listed g.incoming id

def nodeMetrics? (g : IndexedGraph) (id : String) : Option NodeMetrics :=
  (g.roll.position? id).bind fun p => g.nodeMetrics[p]?

def toNodeLink (g : IndexedGraph) : NodeLink :=
  { g.toGraph.toNodeLink with measures := g.metrics }

def ofNodeLink (l : NodeLink) : IndexedGraph :=
  ofParts l.nodes l.links

def save (g : IndexedGraph) : String :=
  g.toNodeLink.toDocument.renderIndented

/-- The indexed graph a text was saved from, if the text can be read. -/
def load? (s : String) : Option IndexedGraph :=
  ((Document.parse? s).bind NodeLink.ofDocument?).map ofNodeLink

/-- The indexed graph of chunks; of chunks with one id the first counts. -/
def ofChunks (chunks : List Chunk) : IndexedGraph :=
  let chunks := Chunk.distinct chunks
  ofParts (chunks.map Chunk.toNode) (Inference.keepFirst (Inference.found chunks))

end IndexedGraph

end CodeAtlas
