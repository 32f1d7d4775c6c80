import CodeAtlas.Embedding.Distance
import CodeAtlas.Retrieval.Outcome
import CodeAtlas.Score
import CodeAtlas.Store.Filter
import CodeAtlas.Store.Read
import CodeAtlas.Store.Write

/-!
Search by similarity. Twice as many chunks as are wanted are taken, the nearest first, and of these
the ones that a filter accepts. What is nearest is told by any measure whose distances are in some
order.
-/

namespace CodeAtlas.Store

/-- The chunks with embeddings, in order of the slots, each with a measure of its embedding. -/
def measured {δ : Type} (t : Tables) (measure : Embedding → δ) : List (ChunkRow × δ) :=
  t.slots.filterMap fun slot => do
    let s ← slot
    let r ← t.chunks.find? fun r => r.key == s.key
    return (r, measure s.vector)

/-- The rows with the least keys, so many at most; rows with equal keys keep their order. -/
def nearest {δ κ : Type} [LE κ] [DecidableLE κ] (key : δ → κ) (rows : List (ChunkRow × δ))
    (limit : Nat) : List (ChunkRow × δ) :=
  (rows.mergeSort fun a b => key a.2 ≤ key b.2).take limit

/-- Reads rows in order until as many are accepted as are wanted. -/
def readHits {δ : Type} (hit : ChunkRow → δ → Except Failure Hit) (accepts : Hit → Bool) :
    (wanted : Nat) → List (ChunkRow × δ) → Except Failure (List Hit)
  | 0, _ => .ok []
  | _, [] => .ok []
  | wanted + 1, (r, d) :: rows => do
    let h ← hit r d
    if accepts h then return h :: (← readHits hit accepts wanted rows)
    else readHits hit accepts (wanted + 1) rows

structure Measure (δ κ : Type) where
  distance : Embedding → Embedding → δ
  /-- Distances are in order as their keys are. -/
  key : δ → κ
  /-- The similarity at a distance, unless that is no number. -/
  similarity? : δ → Option Float

/-- The key of a distance. What is no number comes before all numbers. -/
def distanceKey : Option Float → Int
  | some d => orderKey d
  | none => -(UInt64.size : Int)

def cosine : Measure (Option Float) Int where
  distance := Embedding.distance?
  key := distanceKey
  similarity? distance := distance.map Embedding.similarityAt

def hitAt {δ κ : Type} (m : Measure δ κ) (r : ChunkRow) (distance : δ) : Except Failure Hit := do
  let c ← r.read
  match m.similarity? distance with
  | some similarity => return { c with similarity }
  | none => throw .store

/-- Whether an embedding is kept whose length differs from that of another. -/
def hasOtherLength (t : Tables) (v : Embedding) : Bool :=
  (measured t List.length).any fun p => p.2 != v.length

/-- The chunks nearest to an embedding by a measure, of those that a filter accepts, so many at
most. Twice as many rows are looked at. The room that is set aside for `wanted` hits, and a double
of it that is no machine word any more, are not part of this. -/
def searchBy {δ κ : Type} [LE κ] [DecidableLE κ] (m : Measure δ κ) (s : Store) (v : Embedding)
    (wanted : Nat) (f : Option Filter) : Except Failure (List Hit) :=
  match s.tables? with
  | none => .ok []
  | some t =>
    if wanted == 0 then .ok []
    else if v.length != s.dimensions then .error (s.wrongLength v)
    else if hasOtherLength t v then .error .store
    else
      let rows := nearest m.key (measured t (m.distance · v)) (2 * wanted)
      readHits (hitAt m) (fun h => f.all fun f => f.accepts h.chunk h.profile) wanted rows

/-- The chunks most similar to an embedding, of those that a filter accepts, so many at most. -/
def search (s : Store) (v : Embedding) (wanted : Nat) (f : Option Filter) :
    Except Failure (List Hit) :=
  s.searchBy cosine v wanted f

def holdings (s : Store) : Retrieval.Holdings where
  search v limit := s.search v limit none
  chunk? id := (s.chunk? id).map fun c => c.map StoredChunk.chunk
  neighbors := s.neighbors

end CodeAtlas.Store
