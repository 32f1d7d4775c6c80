import CodeAtlas.Graph.Basic
import CodeAtlas.Graph.Traversal

/-!
Measures of a graph and of its nodes. A graph is coupled as far as it has dependencies, and it
coheres as far as it does not fall into parts. The depth is that of the longest chain of
dependencies; in a chain that comes back to itself the last step counts one.
-/

namespace CodeAtlas.Metrics

/-- The share of the possible ordered pairs that are dependencies; zero below two nodes. -/
def coupling (nodes edges : Nat) : Float :=
  if nodes < 2 then 0.0
  else Float.ofNat edges / (Float.ofNat nodes * (Float.ofNat nodes - 1.0))

/-- Labels of nodes with those of two nodes made equal. -/
def merge (labels : List Nat) (v w : Nat) : List Nat :=
  match labels[v]?, labels[w]? with
  | some a, some b => labels.map fun l => if l == b then a else l
  | _, _ => labels

def steps (successors : List (List Nat)) : List (Nat × Nat) :=
  successors.zipIdx.flatMap fun (ws, v) => ws.map fun w => (v, w)

/-- Labels that two nodes share exactly when steps in either direction join them. -/
def partLabels (successors : List (List Nat)) : List Nat :=
  (steps successors).foldl (fun labels s => merge labels s.1 s.2) (List.range successors.length)

def partCount (successors : List (List Nat)) : Nat :=
  (partLabels successors).eraseDups.length

/-- One over the number of parts that are counted; zero without nodes. -/
def cohesionBy (count : List (List Nat) → Nat) (successors : List (List Nat)) : Float :=
  if successors.isEmpty then 0.0 else 1.0 / Float.ofNat (count successors)

/-- One over the number of parts; zero without nodes. -/
def cohesion (successors : List (List Nat)) : Float :=
  cohesionBy partCount successors

/-- The cycles a traversal closes, each from the node it comes back to. -/
def cycles (successors : List (List Nat)) : List (List Nat) :=
  (Traversal.events successors).filterMap fun
    | .close cycle => some cycle
    | _ => none

/-- The depths found so far with that of a node raised to at least `n`. -/
def raise (depths : List Nat) (v n : Nat) : List Nat :=
  depths.modify v (max n)

/-- The depths found so far after one more event of a traversal. -/
def deepen (depths : List Nat) : Traversal.Event → List Nat
  | .enter _ => depths
  | .close cycle =>
    match cycle.getLast? with
    | some v => raise depths v 1
    | none => depths
  | .again v w => raise depths v (depths[w]?.getD 0 + 1)
  | .leave v (some above) => raise depths above (depths[v]?.getD 0 + 1)
  | .leave _ none => depths

def dependencyDepth (successors : List (List Nat)) : Nat :=
  ((Traversal.events successors).foldl deepen (List.replicate successors.length 0)).foldl max 0

structure NodeMetrics where
  fanIn : Nat
  fanOut : Nat
  instability : Float
  abstractness : Float
  distance : Float

/-- The share of a node's dependencies that start at it; zero without any. -/
def instability (fanIn fanOut : Nat) : Float :=
  if fanIn + fanOut == 0 then 0.0 else Float.ofNat fanOut / Float.ofNat (fanIn + fanOut)

/-- The measures of a node with so many dependencies that end and that start at it. -/
def ofFans (fanIn fanOut : Nat) (isInterface : Bool) : NodeMetrics :=
  let instability := instability fanIn fanOut
  let abstractness := if isInterface then 1.0 else 0.0
  ⟨fanIn, fanOut, instability, abstractness, (abstractness + instability - 1.0).abs⟩

structure GraphMetrics where
  nodeCount : Nat := 0
  edgeCount : Nat := 0
  coupling : Float := 0.0
  cohesion : Float := 0.0
  dependencyDepth : Nat := 0
  /-- The ids along each cycle. -/
  cycles : List (List String) := []

end CodeAtlas.Metrics

namespace CodeAtlas.Graph

open Metrics

def metrics (g : Graph) : GraphMetrics :=
  let successors := g.successors
  let ids := g.nodes.map Node.id
  { nodeCount := g.nodes.length
    edgeCount := g.edges.length
    coupling := Metrics.coupling g.nodes.length g.edges.length
    cohesion := Metrics.cohesion successors
    dependencyDepth := Metrics.dependencyDepth successors
    cycles := (Metrics.cycles successors).map fun c => c.filterMap fun v => ids[v]? }

def nodeMetrics? (g : Graph) (id : String) : Option NodeMetrics :=
  (g.nodes.find? fun n => n.id == id).map fun n =>
    ofFans (g.incoming id).length (g.outgoing id).length n.isInterface

end CodeAtlas.Graph
