import CodeAtlas.Settings
import CodeAtlas.Source.Chunking
import CodeAtlas.Workspace.Ignore

/-!
The chunks of all source files below a folder. Files are cut independently of each other; what comes
out does not depend on the order in which they are finished.
-/

namespace CodeAtlas.Indexing

/-- The chunks of a file, with its path in the indexed folder. -/
structure FileChunks where
  path : String
  modified : Instant
  chunks : List Chunk

/-- The files that could be read, by path, and the paths of the others in order. -/
structure Extraction where
  files : List FileChunks := []
  failed : List String := []

namespace Extraction

def chunks (x : Extraction) : List Chunk :=
  x.files.flatMap FileChunks.chunks

/-- What has been finished, in any order; a failure that concerns more than its file stands for
all. -/
def ofResults (results : List (String × Except Failure FileChunks)) : Except Failure Extraction :=
  let failure? (r : String × Except Failure FileChunks) : Option Failure :=
    match r.2 with
    | .error e => if e.isFileLocal then none else some e
    | .ok _ => none
  match results.findSome? failure? with
  | some e => .error e
  | none => .ok {
      files := (results.filterMap fun r => r.2.toOption).mergeSort fun a b => a.path ≤ b.path
      failed := (results.filterMap fun r =>
        match r.2 with
        | .error _ => some r.1
        | .ok _ => none).mergeSort fun a b => a ≤ b }

/-- Takes in one more file that is finished; a failure that concerns more than its file ends the
run. -/
def receive (x : Extraction) (r : String × Except Failure FileChunks) : Except Failure Extraction :=
  match r.2 with
  | .ok f => .ok { x with files := x.files ++ [f] }
  | .error e => if e.isFileLocal then .ok { x with failed := x.failed ++ [r.1] } else .error e

def sorted (x : Extraction) : Extraction where
  files := x.files.mergeSort fun a b => a.path ≤ b.path
  failed := x.failed.mergeSort fun a b => a ≤ b

/-- Files are taken in one by one as they are finished, and sorted at the end. -/
def collect (done : List (String × Except Failure FileChunks)) : Except Failure Extraction :=
  (done.foldlM receive {}).map sorted

end Extraction

/-- What a file gives by itself: the time it was modified and its chunks, or why it could not be
cut. -/
abbrev Cut := Except Failure (Instant × List Chunk)

def delivered (path : String) (cut : Cut) : String × Except Failure FileChunks :=
  (path, cut.map fun (modified, chunks) => { path, modified, chunks })

/-- The path of a place in a folder, with slashes for backslashes. -/
def pathIn (root place : Place) : String :=
  (Place.toText (place.drop root.length)).map fun c => if c == '\\' then '/' else c

def isSource (place : Place) : Bool :=
  (Source.Language.ofExtension? (Source.File.extension place.toText)).isSome

/-- The source files below a place, by their paths there. A place that is itself a file has no
path. -/
def sourceFiles (w : Workspace) (excluded : List Glob) (root : Place) : List (String × Place) :=
  let places := w.entries.filterMap fun (place, e) =>
    match e with
    | .folder => none
    | _ =>
      if root.isPrefixOf place && (place == root || w.isVisited root place) then some place
        else none
  let files := (places.filter isSource).map fun place => (pathIn root place, place)
  (files.filter fun f => !Settings.covered excluded f.1).mergeSort fun a b => a.1 ≤ b.1

def extract (w : Workspace) (path : String) (place : Place) : Except Failure FileChunks := do
  match w.get? place with
  | some (.file f) =>
    let l ← Source.File.language place.toText
    return { path, modified := f.modified, chunks := Source.File.chunks ⟨path, f.bytes, f.root⟩ l }
  | _ => throw .notFound

def extractAll (w : Workspace) (excluded : List Glob) (root : Place) : Except Failure Extraction :=
  Extraction.ofResults ((sourceFiles w excluded root).map fun (path, place) =>
    (path, extract w path place))

end CodeAtlas.Indexing
