import CodeAtlas.Graph.Inference
import CodeAtlas.Indexing.Extraction
import CodeAtlas.Store.Read
import CodeAtlas.Store.Write

/-!
Indexing: a store is brought up to date with what has been read of a folder. Files whose recorded
time is their present one, in whole seconds, are left alone; changed and new ones are written, and
those that are gone are removed. The graph is made anew of all chunks; files that cannot be read
take part in it with what is stored of them. A run that fails half way keeps what it has written.
-/

namespace CodeAtlas.Indexing

structure Summary where
  added : Nat := 0
  updated : Nat := 0
  skipped : Nat := 0
  failed : Nat := 0
  removed : Nat := 0
  /-- The chunks in the graph. -/
  chunks : Nat := 0
  edges : Nat := 0
  deriving DecidableEq, Repr

inductive Change where
  | added
  | updated
  | skipped
  deriving DecidableEq, Repr

def changeOf (recorded : List (String × Instant)) (force : Bool) (f : FileChunks) : Change :=
  match recorded.lookup f.path with
  | none => .added
  | some time => if !force && time.seconds == f.modified.seconds then .skipped else .updated

/-- The stored chunks of the files that cannot be read but are recorded. -/
def retained (s : Store) (failed : List String) : Except Failure (List Chunk) := do
  let recorded := failed.filter fun path => (s.fileTime? path).isSome
  let chunks ← recorded.mapM s.fileChunks
  return chunks.flatten.map StoredChunk.chunk

def storeFile (embed : Embedder) (g : Graph) (s : Store) (f : FileChunks) :
    Store × Except Failure Unit :=
  match embed.embedAll (f.chunks.map Chunk.embeddingText) with
  | .error e => (s, .error e)
  | .ok vectors =>
    let cleared := (s.deleteFile f.path).2
    match cleared.insert f.chunks vectors g with
    | .error e => (cleared, .error e)
    | .ok written => (written.recordFile f.path f.modified, .ok ())

def storeFiles (embed : Embedder) (g : Graph) :
    Store → List FileChunks → Store × Except Failure Unit
  | s, [] => (s, .ok ())
  | s, f :: files =>
    match storeFile embed g s f with
    | (s, .error e) => (s, .error e)
    | (s, .ok ()) => storeFiles embed g s files

/-- The recorded paths that were neither read nor found unreadable. -/
def goneFiles (recorded : List (String × Instant)) (x : Extraction) : List String :=
  (recorded.map Prod.fst).filter fun path =>
    !(x.files.any fun f => f.path == path) && !x.failed.contains path

def finish (g : Graph) (gone : List String) (s : Store) : Store :=
  (gone.foldl (fun s path => (s.deleteFile path).2) s).sync g

/-- Brings a store up to date; says what it then holds, and what was done or why it failed. -/
def run (embed : Embedder) (force : Bool) (x : Extraction) (s : Store) :
    Store × Except Failure Summary :=
  let recorded := s.files
  match retained s x.failed with
  | .error e => (s, .error e)
  | .ok old =>
    let g := Graph.ofChunks (x.chunks ++ old)
    let change := changeOf recorded force
    match storeFiles embed g s (x.files.filter fun f => change f != .skipped) with
    | (s, .error e) => (s, .error e)
    | (s, .ok ()) =>
      let gone := goneFiles recorded x
      (finish g gone s, .ok {
        added := x.files.countP fun f => change f == .added
        updated := x.files.countP fun f => change f == .updated
        skipped := x.files.countP fun f => change f == .skipped
        failed := x.failed.length
        removed := gone.length
        chunks := g.nodes.length
        edges := g.edges.length })

/-- Brings a store up to date with the folder at a place. -/
def runAt (embed : Embedder) (force : Bool) (w : Workspace) (excluded : List Glob) (root : Place)
    (s : Store) : Store × Except Failure Summary :=
  match extractAll w excluded root with
  | .error e => (s, .error e)
  | .ok x => run embed force x s

end CodeAtlas.Indexing
