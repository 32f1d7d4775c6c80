import CodeAtlas.Source.Tree

/-!
Patterns for nodes of a syntax tree. A pattern asks for a kind and for branches below it, each a
path from child to child; what stands at the end of a branch is captured. A node matches once for
every way to choose the ends of its branches.
-/

namespace CodeAtlas.Source

/-- What a captured node stands for. -/
inductive Role where
  | imported
  | module
  | wildcard
  | package
  | base
  | interface
  | fieldType
  deriving DecidableEq, Repr

/-- A step to a named child, of any kind or of one, in any field or in one. -/
structure Step where
  field : Option String := none
  kind : Option String := none
  deriving DecidableEq, Repr

/-- A path down from a node, and what the node at its end stands for. -/
structure Branch where
  steps : List Step
  role : Role
  deriving DecidableEq, Repr

/-- A pattern for nodes of a kind. -/
structure Pattern where
  kind : String
  branches : List Branch
  deriving DecidableEq, Repr

/-- A captured node and what it stands for. -/
structure Capture where
  role : Role
  node : Tree

namespace Step

def accepts (s : Step) (t : Tree) : Bool :=
  t.info.named && s.field.all (fun f => t.info.field == some f) && s.kind.all (· == t.kind)

end Step

namespace Pattern

def ends : List Step → Tree → List Tree
  | [], t => [t]
  | s :: steps, t => (t.children.filter s.accepts).flatMap (ends steps)

def choices : List Branch → Tree → List (List Capture)
  | [], _ => [[]]
  | b :: branches, t =>
    (ends b.steps t).flatMap fun e => (choices branches t).map fun cs => ⟨b.role, e⟩ :: cs

def matchesAt (p : Pattern) (t : Tree) : List (List Capture) :=
  if t.info.named && t.kind == p.kind then choices p.branches t else []

/-- The matches of a pattern in a tree, in pre-order of the nodes that match. -/
def matchesIn (p : Pattern) (t : Tree) : List (List Capture) :=
  t.preorder.flatMap p.matchesAt

end Pattern

end CodeAtlas.Source
