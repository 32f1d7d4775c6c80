import CodeAtlas.Failure
import CodeAtlas.Graph.Basic

/-!
Breadth-first expansion: from some seeds, through the dependencies that a store knows of, up to a
number of steps. Dependencies are followed in both directions and keep their own. The distance of a
node from the seeds is the number of the round in which it is met.
-/

namespace CodeAtlas.Retrieval

structure Step where
  source : String
  target : String
  relationship : Relationship
  deriving DecidableEq, Repr

/-- What an expansion has met: distinct nodes in order, the seeds first, and at most one step from
one node to another. -/
structure Expanded where
  nodes : List String := []
  seeds : List String := []
  steps : List Step := []
  deriving Inhabited

namespace Expanded

/-- The nodes with one more, unless it is there. -/
def meet (nodes : List String) (id : String) : List String :=
  if nodes.contains id then nodes else nodes ++ [id]

/-- Steps with one more; of two between the same nodes the heavier is kept, in the place of the
first. -/
def addStep (step : Step) : List Step → List Step
  | [] => [step]
  | s :: rest =>
    if s.source == step.source && s.target == step.target then
      (if s.relationship.tenths < step.relationship.tenths then step else s) :: rest
    else s :: addStep step rest

def otherEnd (id : String) (d : Dependency) : String :=
  if d.source == id then d.target else d.source

def follow (id : String) (x : Expanded) (d : Dependency) : Expanded :=
  let nodes := meet x.nodes (otherEnd id d)
  if nodes.contains d.source && nodes.contains d.target then
    { x with nodes, steps := addStep ⟨d.source, d.target, d.relationship⟩ x.steps }
  else { x with nodes }

/-- Follows the dependencies of some nodes, one node after the other. -/
def round (neighbors : String → Except Failure (List Dependency)) (x : Expanded)
    (ids : List String) : Except Failure Expanded :=
  ids.foldlM (fun x id => do return (← neighbors id).foldl (follow id) x) x

/-- Goes on for some rounds, from the nodes met last. It comes to the same to let the nodes wait in
a queue with their distances and to follow the first in it until none is left (`drains_iff`). -/
def rounds (neighbors : String → Except Failure (List Dependency)) :
    Nat → Expanded → List String → Except Failure Expanded
  | 0, x, _ => .ok x
  | _, x, [] => .ok x
  | hops + 1, x, ids => do
    let next ← x.round neighbors ids
    rounds neighbors hops next (next.nodes.drop x.nodes.length)

def ofSeeds (seeds : List String) : Expanded :=
  let seeds := seeds.eraseDups
  { nodes := seeds, seeds }

end Expanded

/-- What is met from some seeds within a number of steps. -/
def expand (neighbors : String → Except Failure (List Dependency)) (seeds : List String)
    (hops : Nat) : Except Failure Expanded :=
  let start := Expanded.ofSeeds seeds
  start.rounds neighbors hops start.nodes

end CodeAtlas.Retrieval
