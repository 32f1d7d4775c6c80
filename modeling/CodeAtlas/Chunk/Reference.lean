import CodeAtlas.Chunk.Basic
import CodeAtlas.Chunk.Lineage
import CodeAtlas.Text.Word

/-!
References between the chunks of a file. A chunk refers to another when the name of the other stands
in its content as a whole word. Only named containers and members take part, and never a chunk with
its own ancestor or descendant, whose content contains the other's anyway.
-/

namespace CodeAtlas.Reference

/-- Whether a chunk can refer and be referred to. -/
def isNamedSymbol (c : Chunk) : Bool :=
  c.kind.isSymbol && c.isNamed

def lastIndex? (chunks : List Chunk) (id : String) : Option Nat :=
  (chunks.reverse.findIdx? fun c => c.id == id).map fun i => chunks.length - 1 - i

def parents (chunks : List Chunk) : List (Option Nat) :=
  chunks.map fun c => c.parent.bind (lastIndex? chunks)

/-- The positions a chunk refers to, in order; `i` is its own position. -/
def targets (chunks : List Chunk) (parents : List (Option Nat)) (i : Nat) (c : Chunk) : List Nat :=
  if isNamedSymbol c then
    let words := Text.identifiers c.content
    (chunks.zipIdx.filter fun (d, j) =>
      isNamedSymbol d && i != j && !Lineage.isAncestor parents i j &&
        !Lineage.isAncestor parents j i && d.name.any words.contains).map Prod.snd
  else []

/-- The pairs of positions of which the first refers to the second, in order. -/
def pairs (chunks : List Chunk) : List (Nat × Nat) :=
  let parents := parents chunks
  chunks.zipIdx.flatMap fun (c, i) => (targets chunks parents i c).map fun j => (i, j)

/-- A list with an id at its end, unless the list has it already. -/
def addId (ids : List String) (id : String) : List String :=
  if ids.contains id then ids else ids ++ [id]

/-- The chunks with the ids they refer to, and those that refer to them, added to their lists. -/
def link (chunks : List Chunk) : List Chunk :=
  let pairs := pairs chunks
  chunks.zipIdx.map fun (c, i) =>
    { c with
      references :=
        ((pairs.filter fun p => p.1 == i).map fun p => idAt Chunk.id chunks p.2).foldl addId
        c.references
      referencedBy :=
        ((pairs.filter fun p => p.2 == i).map fun p => idAt Chunk.id chunks p.1).foldl addId
        c.referencedBy }

end CodeAtlas.Reference
