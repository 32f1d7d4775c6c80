import CodeAtlas.Store.Basic

/-!
Reading the store. Without tables it is empty.
-/

namespace CodeAtlas.Store

def chunk? (s : Store) (id : String) : Except Failure (Option StoredChunk) :=
  match s.tables.chunks.find? fun r => r.chunk.id == id with
  | none => .ok none
  | some r => r.read.map some

def size (s : Store) : Nat :=
  s.tables.chunks.length

def signed (n : Nat) : Int :=
  if n < UInt64.size / 2 then n else (n : Int) - UInt64.size

def fileChunks (s : Store) (path : String) : Except Failure (List StoredChunk) :=
  let rows := s.tables.chunks.filter fun r => r.chunk.path == path
  (rows.mergeSort fun a b => signed a.chunk.startLine ≤ signed b.chunk.startLine).mapM ChunkRow.read

def files (s : Store) : List (String × Instant) :=
  s.tables.files.mergeSort fun a b => a.1 ≤ b.1

def fileTime? (s : Store) (path : String) : Option Instant :=
  s.tables.files.lookup path

/-- A choice of dependencies. Every condition that is given must hold. -/
structure EdgeFilter where
  source : Option String := none
  target : Option String := none
  relationship : Option Relationship := none
  /-- How many at most. -/
  limit : Option Nat := none

namespace EdgeFilter

def accepts (f : EdgeFilter) (r : EdgeRow) : Bool :=
  f.source.all (· == r.edge.source) && f.target.all (· == r.edge.target) &&
    f.relationship.all fun k => k.label == r.label

def cut {α : Type} (f : EdgeFilter) (rows : List α) : List α :=
  match f.limit with
  | some limit => rows.take limit
  | none => rows

end EdgeFilter

def edges (s : Store) (f : EdgeFilter) : Except Failure (List Dependency) :=
  (f.cut (s.tables.edges.filter f.accepts)).mapM EdgeRow.read

/-- The dependencies that start at an id and then those that end there, so many at most. -/
def neighbors (s : Store) (id : String) (limit : Nat) : Except Failure (List Dependency) := do
  let outgoing ← s.edges { source := id, limit := some limit }
  let incoming ← s.edges { target := id, limit := some (limit - outgoing.length) }
  return outgoing ++ incoming

end CodeAtlas.Store
