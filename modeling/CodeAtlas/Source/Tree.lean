/-!
Syntax trees. A node has a kind, the bytes it spans and its children; a child may stand in a named
field of its parent. Punctuation and keywords are unnamed nodes and only kept where they stand in a
field.
-/

namespace CodeAtlas.Source

structure NodeInfo where
  kind : String
  first : Nat
  /-- The byte after the last one. -/
  last : Nat
  field : Option String := none
  named : Bool := true
  deriving DecidableEq, Repr, Inhabited

inductive Tree where
  | node (info : NodeInfo) (children : List Tree)
  deriving Inhabited

namespace Tree

def info : Tree → NodeInfo
  | node info _ => info

def children : Tree → List Tree
  | node _ children => children

def kind (t : Tree) : String := t.info.kind

def first (t : Tree) : Nat := t.info.first

/-- The byte after the last one of the root. -/
def last (t : Tree) : Nat := t.info.last

def width (t : Tree) : Nat := t.last - t.first

def namedChildren (t : Tree) : List Tree :=
  t.children.filter fun c => c.info.named

def inField? (t : Tree) (field : String) : Option Tree :=
  t.children.find? fun c => c.info.field == some field

mutual

/-- A tree and all trees below it, each before those below it. -/
def preorder : Tree → List Tree
  | node info children => node info children :: preorderAll children

def preorderAll : List Tree → List Tree
  | [] => []
  | t :: ts => preorder t ++ preorderAll ts

end

/-- Trees with the depth of their roots, from an outline that lists nodes in pre-order with
depths. -/
def forest (outline : List (Nat × NodeInfo)) : List (Nat × Tree) :=
  outline.foldr
    (fun (depth, info) trees =>
      (depth, node info ((trees.takeWhile fun t => depth < t.1).map Prod.snd)) ::
        trees.dropWhile fun t => depth < t.1)
    []

def ofOutline? (outline : List (Nat × NodeInfo)) : Option Tree :=
  (forest outline).head?.map Prod.snd

end Tree

end CodeAtlas.Source
