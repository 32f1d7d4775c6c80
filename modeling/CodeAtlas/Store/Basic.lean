import CodeAtlas.Embedding
import CodeAtlas.Store.Column
import CodeAtlas.Store.Hit

/-!
The store: chunks with their embeddings and their places in the dependency graph, the dependencies,
and a record of the files that are indexed. It has four tables, which come to be with the first
write. A chunk is told by its id and a dependency by its ends and its relationship; when one is
written again it keeps its place. Embeddings stand apart, in slots that point to the chunks.
-/

namespace CodeAtlas

open Document

/-- A point in time, in seconds from the epoch and nanoseconds from there. -/
structure Instant where
  seconds : Int
  nanos : Nat := 0
  deriving DecidableEq, Repr, Inhabited

namespace Store

structure ChunkRow extends StoredChunk where
  key : Nat
  /-- The number columns that hold something else, so that the row cannot be read. -/
  spoiled : List String := []

/-- A dependency as it is kept; its relationship is what the label means. -/
structure EdgeRow where
  edge : Dependency
  label : String
  /-- The number columns that hold something else, so that the row cannot be read. -/
  spoiled : List String := []

structure Slot where
  key : Nat
  vector : Embedding

structure Tables where
  /-- The length of the embeddings. -/
  width : Nat
  chunks : List ChunkRow := []
  /-- The key of the next new chunk. -/
  nextKey : Nat := 1
  /-- The embeddings, and the places that are free. -/
  slots : List (Option Slot) := []
  edges : List EdgeRow := []
  files : List (String × Instant) := []

end Store

/-- A store, opened for embeddings of some length. -/
structure Store where
  dimensions : Nat
  tables? : Option Store.Tables := none

namespace Store

/-- Opens a store without tables. -/
def ofDimensions (dimensions : Nat) : Except Failure Store :=
  if dimensions == 0 then .error (.invalidInput "vector dimensions must be positive")
  else .ok { dimensions }

/-- Opens the same store again, for embeddings of some length. -/
def reopen (s : Store) (dimensions : Nat) : Except Failure Store :=
  (ofDimensions dimensions).map fun fresh => { fresh with tables? := s.tables? }

def hasTables (s : Store) : Bool :=
  s.tables?.isSome

/-- The tables, empty ones if there are none yet. -/
def tables (s : Store) : Tables :=
  s.tables?.getD { width := s.dimensions }

namespace ChunkRow

def read (r : ChunkRow) : Except Failure StoredChunk :=
  if r.spoiled.isEmpty then .ok r.toStoredChunk else .error .store

end ChunkRow

/-- A real number as a column keeps it: zero has no sign there. -/
def keptReal (x : Float) : Float :=
  if x == 0 then 0 else x

def keptEdge (d : Dependency) : Dependency :=
  { d with strength := keptReal d.strength }

namespace EdgeRow

def ofEdge (d : Dependency) : EdgeRow :=
  { edge := keptEdge d, label := d.relationship.label }

def read (r : EdgeRow) : Except Failure Dependency :=
  if r.spoiled.isEmpty then .ok { r.edge with relationship := Relationship.ofName r.label }
  else .error .store

/-- What tells a row apart from others. -/
def key (r : EdgeRow) : String × String × String :=
  (r.edge.source, r.edge.target, r.label)

end EdgeRow

/-- A chunk as it is read back: five of its fields go through the text of a column. -/
def keptChunk (c : Chunk) : Chunk :=
  { c with
    declaration := Column.declaration (some c.declaration.toDocument.render)
    metadata := Column.metadata (some (record c.metadata).render)
    children := Column.texts (some (ofTexts c.children).render)
    references := Column.texts (some (ofTexts c.references).render)
    referencedBy := Column.texts (some (ofTexts c.referencedBy).render) }

/-- A place in the graph as it is read back, its counts being machine words. -/
def keptProfile (p : Profile) : Profile :=
  { p with instability := rereadReal p.instability }

/-- The place in a graph that is kept for an id: the default one if the graph does not have it. -/
def profileIn (g : Graph) (id : String) : Profile :=
  keptProfile ((Profile.ofGraph? g id).getD {})

end Store

end CodeAtlas
