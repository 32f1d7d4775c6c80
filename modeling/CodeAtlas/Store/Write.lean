import CodeAtlas.Store.Basic

/-!
Writing to the store. A write that fails changes nothing.
-/

namespace CodeAtlas.Store

namespace Tables

def keyOf? (t : Tables) (id : String) : Option Nat :=
  (t.chunks.find? fun r => r.chunk.id == id).map ChunkRow.key

/-- Writes a chunk: over the one with its id, or else as a new one. -/
def putChunk (t : Tables) (c : StoredChunk) : Tables :=
  match t.keyOf? c.chunk.id with
  | some key =>
    { t with
      chunks := t.chunks.map fun r => if r.key == key then { toStoredChunk := c, key } else r }
  | none =>
    { t with
      chunks := t.chunks ++ [{ toStoredChunk := c, key := t.nextKey }]
      nextKey := t.nextKey + 1 }

def freeSlots (gone : Nat → Bool) (slots : List (Option Slot)) : List (Option Slot) :=
  slots.map fun slot => slot.filter fun s => !gone s.key

/-- Slots with one more embedding, in the first that is free. -/
def fillSlot (s : Slot) : List (Option Slot) → List (Option Slot)
  | [] => [some s]
  | none :: slots => some s :: slots
  | some other :: slots => some other :: fillSlot s slots

/-- Writes the embedding of a chunk in place of the one it had. -/
def putVector (t : Tables) (id : String) (v : Embedding) : Except Failure Tables :=
  if v.length != t.width then .error .store
  else
    match t.keyOf? id with
    | some key =>
      .ok { t with slots := fillSlot ⟨key, v⟩ (freeSlots (· == key) t.slots) }
    | none => .ok t

/-- Rows with one more: over the one with its key, or else at the end. -/
def putRow (row : EdgeRow) : List EdgeRow → List EdgeRow
  | [] => [row]
  | r :: rows => if r.key == row.key then row :: rows else r :: putRow row rows

def putEdges (t : Tables) (edges : List Dependency) : Tables :=
  { t with edges := edges.foldl (fun rows d => putRow (EdgeRow.ofEdge d) rows) t.edges }

def putWithVector (g : Graph) (t : Tables) (entry : Chunk × Embedding) : Except Failure Tables :=
  (t.putChunk ⟨keptChunk entry.1, profileIn g entry.1.id⟩).putVector entry.1.id entry.2

def putFile (path : String) (time : Instant) : List (String × Instant) → List (String × Instant)
  | [] => [(path, time)]
  | f :: files => if f.1 == path then (path, time) :: files else f :: putFile path time files

end Tables

def wrongLength (s : Store) (v : Embedding) : Failure :=
  .invalidInput s!"vector has {v.length} dimensions, store expects {s.dimensions}"

/-- Writes chunks with their embeddings, their places in a graph, and the dependencies of the graph
that touch them. -/
def insert (s : Store) (chunks : List Chunk) (vectors : List Embedding) (g : Graph) :
    Except Failure Store :=
  if chunks.length != vectors.length then
    .error (.invalidInput s!"{chunks.length} chunks but {vectors.length} vectors")
  else
    match vectors.find? fun v => v.length != s.dimensions with
    | some v => .error (s.wrongLength v)
    | none =>
      if chunks.isEmpty then .ok s
      else do
        let t ← (chunks.zip vectors).foldlM (Tables.putWithVector g) s.tables
        let touching := g.edges.filter fun e => chunks.any fun c => e.touches c.id
        return { s with tables? := some (t.putEdges touching) }

/-- Writes a graph over the dependencies, and the places in it over those of all chunks. -/
def sync (s : Store) (g : Graph) : Store :=
  let t := { s.tables with edges := [] }.putEdges g.edges
  let chunks := t.chunks.map fun r => { r with profile := profileIn g r.chunk.id }
  { s with tables? := some { t with chunks } }

def recordFile (s : Store) (path : String) (time : Instant) : Store :=
  let t := s.tables
  { s with tables? := some { t with files := Tables.putFile path time t.files } }

/-- Removes the chunks of a file with their embeddings, the dependencies that touch them and the
record of the file; says how many chunks that were. -/
def deleteFile (s : Store) (path : String) : Nat × Store :=
  match s.tables? with
  | none => (0, s)
  | some t =>
    let gone := t.chunks.filter fun r => r.chunk.path == path
    (gone.length,
      { s with
        tables? := some
          { t with
            slots := Tables.freeSlots (fun key => gone.any fun r => r.key == key) t.slots
            edges := t.edges.filter fun e => !gone.any fun r => e.edge.touches r.chunk.id
            chunks := t.chunks.filter fun r => r.chunk.path != path
            files := t.files.filter fun f => f.1 != path } })

end CodeAtlas.Store
