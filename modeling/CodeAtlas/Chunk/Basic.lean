import CodeAtlas.Chunk.Metadata
import CodeAtlas.Keyed
import CodeAtlas.Text.Blank
import CodeAtlas.Text.Pieces

/-!
Chunks: the pieces a source file is cut into. The chunks of a file form a tree, with the whole file
at the root, its imports, containers and members below. A chunk names its parent, its children and
the chunks it refers to by their ids, so that a list of chunks stands on its own.
-/

namespace CodeAtlas

/-- What a chunk is. A member outside all containers is an orphan of its file. -/
inductive ChunkKind where
  | file
  | container
  | member
  | imported
  | context
  | orphanedMember
  deriving DecidableEq, Repr

namespace ChunkKind

def all : List ChunkKind :=
  [file, container, member, imported, context, orphanedMember]

def label : ChunkKind → String
  | file => "file"
  | container => "container"
  | member => "member"
  | imported => "import"
  | context => "context"
  | orphanedMember => "orphaned_member"

def ofLabel? (s : String) : Option ChunkKind :=
  all.find? fun k => k.label == s

/-- Members and orphans can call each other. -/
def isMemberLike : ChunkKind → Bool
  | member | orphanedMember => true
  | _ => false

/-- Containers and members are what names refer to. -/
def isSymbol : ChunkKind → Bool
  | container | member | orphanedMember => true
  | _ => false

theorem isSymbol_of_isMemberLike {k : ChunkKind} (h : k.isMemberLike = true) :
    k.isSymbol = true := by
  cases k <;> first | rfl | exact absurd h (by decide)

end ChunkKind

/-- What a declaration says about itself. Files have a package and imports, containers bases, and
members parameters and a return type. -/
structure Declaration where
  package : Option String := none
  imports : List String := []
  base : Option String := none
  interfaces : List String := []
  parameters : List String := []
  returnType : Option String := none
  deriving DecidableEq, Repr, Inhabited

/-- A piece of a source file. Lines are counted from one and both ends are included. -/
structure Chunk where
  id : String
  kind : ChunkKind
  content : String
  path : String
  startLine : Nat
  endLine : Nat
  language : String
  name : Option String := none
  qualifiedName : Option String := none
  declaration : Declaration := {}
  metadata : Metadata := []
  parent : Option String := none
  children : List String := []
  references : List String := []
  referencedBy : List String := []

namespace Chunk

/-- The id of the chunk of a kind that spans the bytes from `first` up to `last`. -/
def idOf (path : String) (kind : ChunkKind) (first last : Nat) : String :=
  s!"{path}#{kind.label}:{first}-{last}"

/-- The full name of a chunk, or its name, or else its id. -/
def displayName (c : Chunk) : String :=
  (c.qualifiedName.or c.name).getD c.id

/-- The text an embedding is made of: language, kind and name stand before the content. -/
def embeddingText (c : Chunk) : String :=
  match c.qualifiedName.or c.name with
  | some name => s!"{c.language} {c.kind.label} {name}: {c.content}"
  | none => s!"{c.language} {c.kind.label}: {c.content}"

def isInterface (c : Chunk) : Bool :=
  c.metadata.flag "is_interface"

/-- The dotted path under which a file is imported. -/
def module? (c : Chunk) : Option String :=
  (c.metadata.lookup "module").bind Document.text?

def isNamed (c : Chunk) : Bool :=
  c.name.any fun n => !n.isEmpty

/-- The chunks of a list without those whose id stood before. -/
def distinct (chunks : List Chunk) : List Chunk :=
  distinctBy Chunk.id [] chunks

end Chunk

end CodeAtlas
