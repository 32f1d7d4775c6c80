import CodeAtlas.CommandLine.Invocation
import CodeAtlas.Decimal.Fixed
import CodeAtlas.Graph.NodeLink
import CodeAtlas.Indexing.Run
import CodeAtlas.Retrieval.Outcome
import CodeAtlas.Store.Search

/-!
Running a command line in a workspace: what stands there afterwards, and what is said. A run can
fail and still leave something, such as a store it has opened.
-/

namespace CodeAtlas.CommandLine

structure Report where
  exitCode : Nat := 0
  output : String := ""
  /-- Why it failed. -/
  complaint : Option String := none
  deriving DecidableEq, Repr

def Report.failed (complaint : String) : Report :=
  { exitCode := 1, complaint := some complaint }

def versionText : String :=
  "chunkgraph 0.3.0\n"

def helpText : String :=
  "Usage: chunkgraph [-c FILE] COMMAND\n\n" ++
  "Commands:\n" ++
  "  index DIR [--force]\n" ++
  "  query TEXT [--max-hops N] [--budget N] [--top-k N] [--json]\n" ++
  "  graph DIR [--out FILE]\n\n" ++
  "The settings are read from FILE, or from chunkgraph.json.\n"

def Halt.report : Halt → Report
  | misused => { exitCode := 2 }
  | helpWanted => { output := helpText }
  | versionWanted => { output := versionText }

/-- Where the settings are if no path is given. -/
def usualSettingsPath : String :=
  "chunkgraph.json"

/-- Reads the settings at a path. Where nothing stands the usual ones count; at the usual path they
are written down. -/
def settingsAt (w : Workspace) (path : String) : Workspace × Except String Settings :=
  let path := if path == "" then usualSettingsPath else path
  match w.entryAt? path with
  | some e =>
    match e.content? with
    | some s => (w, .ok (Settings.ofText s))
    | none => (w, .error s!"failed to read config: {path}")
  | none =>
    if path == usualSettingsPath then ((w.writeText? path (Settings.save {})).getD w, .ok {})
    else (w, .ok {})

/-- Opens the store at a path, which makes one where nothing stands, and gives its place. Without a
path, or under the name for memory, the store has no place. -/
def openStore (w : Workspace) (s : Settings) : Except String (Workspace × Option Place × Store) :=
  let opened (fresh : Except Failure Store) (keep : Store → Workspace × Option Place) :=
    match fresh with
    | .ok store => .ok ((keep store).1, (keep store).2, store)
    | .error _ => .error "Failed to open database"
  if s.storePath == "" || s.storePath == ":memory:" then
    opened (Store.ofDimensions s.dimensions) fun _ => (w, none)
  else
    match w.roomAt? s.storePath with
    | none => .error "Failed to open database"
    | some place =>
      let keep (store : Store) : Workspace × Option Place :=
        (w.put place (.store store), some place)
      match w.get? place with
      | none => opened (Store.ofDimensions s.dimensions) keep
      | some (.store store) => opened (store.reopen s.dimensions) keep
      | some (.file f) =>
        if f.bytes.isEmpty then opened (Store.ofDimensions s.dimensions) keep
        else .error "Failed to open database"
      | some _ => .error "Failed to open database"

def keepStore (w : Workspace) (place : Option Place) (s : Store) : Workspace :=
  match place with
  | none => w
  | some place => w.put place (.store s)

/-- The chunks of the source files in a folder; none if there is no such folder. -/
def extractFolder (w : Workspace) (excluded : List Glob) (folder : String) :
    Except Failure Indexing.Extraction :=
  match w.placeAt? folder with
  | none => .ok {}
  | some root => Indexing.extractAll w excluded root

def summaryText (s : Indexing.Summary) : String :=
  s!"{s.added} added, {s.updated} updated, {s.skipped} skipped, {s.failed} failed, " ++
    s!"{s.removed} removed; graph has {s.chunks} chunks and {s.edges} edges\n"

/-- Brings a store up to date with a folder; says what it then holds, and what has been done. -/
def indexFolder (w : Workspace) (s : Settings) (excluded : List Glob) (folder : String)
    (force : Bool) (store : Store) : Store × Except Failure Indexing.Summary :=
  match extractFolder w excluded folder with
  | .error e => (store, .error e)
  | .ok x => Indexing.run (FeatureHashing.embedder s.dimensions) force x store

def runIndex (w : Workspace) (s : Settings) (folder : String) (force : Bool) : Workspace × Report :=
  match s.fault?, Settings.globs s.excluded with
  | some fault, _ | none, .error fault => (w, .failed fault.message)
  | none, .ok excluded =>
    match openStore w s with
    | .error complaint => (w, .failed complaint)
    | .ok (w, place, store) =>
      match indexFolder w s excluded folder force store with
      | (store, .ok summary) => (keepStore w place store, { output := summaryText summary })
      | (store, .error _) => (keepStore w place store, .failed s!"Failed to index {folder}")

def querySettings (s : Settings) (maxHops tokenBudget topK : Option Nat) : Settings :=
  { s with
    tuning :=
      { s.tuning with
        maxHops := maxHops.getD s.tuning.maxHops
        tokenBudget := tokenBudget.getD s.tuning.tokenBudget
        topK := topK.getD s.tuning.topK } }

def runQuery (w : Workspace) (s : Settings) (query : String) (asRecord : Bool) :
    Workspace × Report :=
  match s.fault? with
  | some fault => (w, .failed fault.message)
  | none =>
    match openStore w s with
    | .error complaint => (w, .failed complaint)
    | .ok (w, _, store) =>
      let embed := FeatureHashing.embedder s.dimensions
      match Retrieval.retrieve store.holdings embed s.tuning query with
      | .error e => (w, .failed e.message)
      | .ok found =>
        let text := if asRecord then found.toDocument.renderIndented else found.packed.text
        (w, { output := text ++ "\n" })

/-- The lines about a graph: its size, the counts of the relationships that occur, and its
measures. -/
def graphText (x : Indexing.Extraction) (g : Graph) : String :=
  let m := g.metrics
  let places (x : Float) : String := String.ofList (Decimal.writeFixed 4 x)
  let present := Relationship.all.filter fun r => !(g.edgesOf r).isEmpty
  let line (label : String) (count : Nat) : String :=
    "  " ++ label.pushn ' ' (11 - label.length) ++ s!"{count}\n"
  s!"files:     {x.files.length} ({x.failed.length} failed)\n" ++
  s!"nodes:     {m.nodeCount}\nedges:     {m.edgeCount}\n" ++
  String.join (present.map fun r => line r.label (g.edgesOf r).length) ++
  s!"coupling:  {places m.coupling}\ncohesion:  {places m.cohesion}\n" ++
  s!"depth:     {m.dependencyDepth}\ncycles:    {m.cycles.length}\n"

def runGraph (w : Workspace) (s : Settings) (folder : String) (output : Option String) :
    Workspace × Report :=
  match Settings.globs s.excluded with
  | .error fault => (w, .failed fault.message)
  | .ok excluded =>
    match extractFolder w excluded folder with
    | .error e => (w, .failed e.message)
    | .ok x =>
      let g := Graph.ofChunks x.chunks
      let text := graphText x g
      match output with
      | none => (w, { output := text })
      | some path =>
        match w.writeText? path g.save with
        | some w => (w, { output := text })
        | none => (w, { Report.failed s!"Failed to write {path}" with output := text })

def Command.run (w : Workspace) (s : Settings) : Command → Workspace × Report
  | index folder force => runIndex w s folder force
  | query text maxHops tokenBudget topK asRecord =>
    runQuery w (querySettings s maxHops tokenBudget topK) text asRecord
  | graph folder output => runGraph w s folder output

def run (w : Workspace) (words : List String) : Workspace × Report :=
  match Invocation.ofWords words with
  | .error halt => (w, halt.report)
  | .ok i =>
    match settingsAt w i.settingsPath with
    | (w, .error complaint) => (w, .failed complaint)
    | (w, .ok s) => i.command.run w s

end CodeAtlas.CommandLine
