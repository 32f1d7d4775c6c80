import CodeAtlas.Chunk.Basic

/-!
Dependency graphs: chunks in short form as nodes, and typed dependencies between them. A graph is
put together from any nodes and dependencies: of nodes with one id the first is kept, and a
dependency is kept when both its ends are nodes.
-/

namespace CodeAtlas

/-- How one chunk depends on another. -/
inductive Relationship where
  | contains
  | inherits
  | implements
  | calls
  | uses
  | imports
  | unknown
  deriving DecidableEq, Repr

namespace Relationship

def all : List Relationship :=
  [contains, inherits, implements, calls, uses, imports, unknown]

def label : Relationship → String
  | contains => "CONTAINS"
  | inherits => "EXTENDS"
  | implements => "IMPLEMENTS"
  | calls => "CALLS"
  | uses => "USES"
  | imports => "IMPORTS"
  | unknown => "UNKNOWN"

def ofLabel? (s : String) : Option Relationship :=
  all.find? fun r => r.label == s

/-- The relationship with a name in large or small ASCII letters; other names are unknown. -/
def ofName (s : String) : Relationship :=
  (ofLabel? (String.ofList (s.toList.map Char.toUpper))).getD unknown

/-- How much a step along a dependency counts when a graph is searched, in tenths. -/
def tenths : Relationship → Nat
  | contains => 10
  | implements => 9
  | inherits => 8
  | imports => 7
  | uses => 6
  | calls => 5
  | unknown => 3

/-- How much a step along a dependency counts when a graph is searched, as a number of any kind. -/
def weight {α : Type} [OfScientific α] (r : Relationship) : α :=
  OfScientific.ofScientific r.tenths true 1

end Relationship

/-- A place in the source of a dependency; lines and columns are counted from one. -/
structure Location where
  line : Nat
  column : Nat
  snippet : String
  deriving DecidableEq, Repr

/-- A dependency of one chunk on another. -/
structure Dependency where
  source : String
  target : String
  relationship : Relationship
  strength : Float
  direct : Bool
  required : Bool
  description : String := ""
  locations : List Location := []

namespace Dependency

/-- What tells a dependency apart from others. -/
def key (d : Dependency) : String × String × Relationship :=
  (d.source, d.target, d.relationship)

def touches (d : Dependency) (id : String) : Bool :=
  d.source == id || d.target == id

end Dependency

/-- A chunk in short form. -/
structure Node where
  id : String
  kind : ChunkKind
  name : Option String
  qualifiedName : Option String
  path : String
  startLine : Nat
  endLine : Nat
  language : String
  isInterface : Bool := false
  deriving DecidableEq, Repr

def Chunk.toNode (c : Chunk) : Node where
  id := c.id
  kind := c.kind
  name := c.name
  qualifiedName := c.qualifiedName
  path := c.path
  startLine := c.startLine
  endLine := c.endLine
  language := c.language
  isInterface := c.isInterface

/-- Nodes and the dependencies between them. -/
structure Graph where
  nodes : List Node := []
  edges : List Dependency := []

namespace Graph

def ofParts (nodes : List Node) (edges : List Dependency) : Graph :=
  let nodes := distinctBy Node.id [] nodes
  let ids := nodes.map Node.id
  ⟨nodes, edges.filter fun e => ids.contains e.source && ids.contains e.target⟩

def contains (g : Graph) (id : String) : Bool :=
  g.nodes.any fun n => n.id == id

def outgoing (g : Graph) (id : String) : List Dependency :=
  g.edges.filter fun e => e.source == id

def incoming (g : Graph) (id : String) : List Dependency :=
  g.edges.filter fun e => e.target == id

def edgesOf (g : Graph) (r : Relationship) : List Dependency :=
  g.edges.filter fun e => e.relationship == r

/-- For every node, the positions of the nodes it depends on, each once, in order. -/
def successors (g : Graph) : List (List Nat) :=
  let ids := g.nodes.map Node.id
  ids.map fun id => ((g.outgoing id).filterMap fun e => ids.idxOf? e.target).eraseDups

end Graph

end CodeAtlas
