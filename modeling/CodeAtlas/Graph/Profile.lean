import CodeAtlas.Document.Fields
import CodeAtlas.Graph.Metrics

/-!
The place of a chunk in the dependency graph, in a form that is kept beside the chunk: counts of its
dependencies, its position, its instability, and the relationships it takes part in.
-/

namespace CodeAtlas

open Document

/-- A root has no incoming dependency, a leaf has incoming ones only. -/
inductive Position where
  | root
  | leaf
  | intermediate
  deriving DecidableEq, Repr

namespace Position

def label : Position → String
  | root => "root"
  | leaf => "leaf"
  | intermediate => "intermediate"

def ofLabel? (s : String) : Option Position :=
  [root, leaf, intermediate].find? fun p => p.label == s

/-- The position of a node with so many incoming and outgoing dependencies. -/
def ofFans : (fanIn fanOut : Nat) → Position
  | 0, _ => root
  | _ + 1, 0 => leaf
  | _ + 1, _ + 1 => intermediate

end Position

/-- The place of a chunk in a graph; by default it has none. -/
structure Profile where
  dependencyCount : Nat := 0
  incomingCount : Nat := 0
  outgoingCount : Nat := 0
  position : Option Position := none
  instability : Float := 0.0
  /-- The relationships the chunk takes part in, on either side. -/
  related : Relationship → Bool := fun _ => false

namespace Profile

def ofEdges (outgoing incoming : List Dependency) : Profile where
  dependencyCount := incoming.length + outgoing.length
  incomingCount := incoming.length
  outgoingCount := outgoing.length
  position := some (Position.ofFans incoming.length outgoing.length)
  instability := Metrics.instability incoming.length outgoing.length
  related r := r != .unknown && (outgoing ++ incoming).any fun e => e.relationship == r

def ofGraph? (g : Graph) (id : String) : Option Profile :=
  if g.contains id then some (ofEdges (g.outgoing id) (g.incoming id)) else none

def relationFields : List (Relationship × String) :=
  [(.contains, "has_contains"), (.inherits, "has_extends"), (.implements, "has_implements"),
    (.calls, "has_calls"), (.uses, "has_uses"), (.imports, "has_imports")]

def declared : List FieldName :=
  [⟨"dependency_count", []⟩, ⟨"incoming_count", []⟩, ⟨"outgoing_count", []⟩,
    ⟨"graph_position", []⟩, ⟨"instability", []⟩] ++ relationFields.map fun f => ⟨f.2, []⟩

def ofDocument? (d : Document) : Option Profile := do
  let fs ← Fields.ofDocument? declared d
  let related ← relationFields.mapM fun f => do
    return (f.1, ← fs.defaulted f.2 false boolean?)
  return {
    dependencyCount := ← fs.defaulted "dependency_count" 0 size?
    incomingCount := ← fs.defaulted "incoming_count" 0 size?
    outgoingCount := ← fs.defaulted "outgoing_count" 0 size?
    position := ← fs.optionalOrCut "graph_position" (choice? Position.ofLabel?)
    instability := ← fs.defaulted "instability" 0.0 real?
    related := fun r => (related.lookup r).getD false }

def toDocument (p : Profile) : Document :=
  record ([("dependency_count", ofNat p.dependencyCount), ("incoming_count", ofNat p.incomingCount),
    ("outgoing_count", ofNat p.outgoingCount),
    ("graph_position", ofText? (p.position.map Position.label)),
      ("instability", real p.instability)]
    ++ relationFields.map fun f => (f.2, boolean (p.related f.1)))

end Profile

end CodeAtlas
