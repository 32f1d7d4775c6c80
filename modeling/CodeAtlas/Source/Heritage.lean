import CodeAtlas.Source.Block

/-!
What is written inside a container about other types: the base type and the interfaces of its
declaration and the types of its fields. What a pattern captures belongs to the narrowest container
around it.
-/

namespace CodeAtlas.Source

structure Heritage where
  base : Option String := none
  interfaces : List String := []
  deriving DecidableEq, Repr

/-- A name that is written about a container, at a byte, as its base or as one of its interfaces. -/
structure Bequest where
  first : Nat
  isBase : Bool
  name : String
  deriving DecidableEq, Repr

/-- The captures of patterns in a tree that belong to a container, in order of the patterns. -/
def capturesOf (primaries : List Tree) (root : Tree) (patterns : List Pattern) (i : Nat) :
    List Capture :=
  (patterns.flatMap fun p => (p.matchesIn root).flatten).filter fun c =>
    owner? primaries none c.node.first c.node.last == some i

namespace Heritage

/-- Takes in one more name. The first base stays the base; any other counts as an interface. -/
def add (h : Heritage) (b : Bequest) : Heritage :=
  if b.isBase && h.base.isNone then { h with base := some b.name }
  else if h.interfaces.contains b.name then h
  else { h with interfaces := h.interfaces ++ [b.name] }

/-- The name a capture stands for, if it is one of a base or an interface. -/
def bequest? (bytes : List UInt8) (c : Capture) : Option Bequest :=
  match c.role with
  | .base => some ⟨c.node.first, true, collapsed (c.node.text bytes)⟩
  | .interface => some ⟨c.node.first, false, collapsed (c.node.text bytes)⟩
  | _ => none

def ofContainer (l : Language) (bytes : List UInt8) (root : Tree) (primaries : List Tree)
    (i : Nat) : Heritage :=
  let found := (capturesOf primaries root l.heritage i).filterMap (bequest? bytes)
  ((found.mergeSort fun a b => a.first ≤ b.first).eraseReps).foldl add {}

end Heritage

/-- The distinct types of the fields of the container at a position, in order of their first
bytes. -/
def fieldTypesOf (l : Language) (bytes : List UInt8) (root : Tree) (primaries : List Tree)
    (i : Nat) : List String :=
  let found := (capturesOf primaries root l.fieldTypes i).filter fun c => c.role == .fieldType
  ((found.mergeSort fun a b => a.node.first ≤ b.node.first).map fun c =>
    c.node.text bytes).eraseDups

end CodeAtlas.Source
