import CodeAtlas.Graph.Basic
import CodeAtlas.Graph.Resolution
import CodeAtlas.Text.Word

/-!
The dependency graph of a list of chunks. Dependencies are read off the chunks in five passes:
containment, inheritance, calls, uses and imports. A dependency is told by its two ends and its
relationship; of several with the same the first is kept, and none joins a chunk to itself.
-/

namespace CodeAtlas.Inference

open Resolution

def containment (chunks : List Chunk) (c : Chunk) : List Dependency :=
  (c.children.filterMap (byId? chunks)).map fun child =>
    { source := c.id, target := child.id, relationship := .contains
      strength := 1.0, direct := true, required := true
      description := s!"{c.kind.label} contains {child.kind.label}" }

/-- The dependency on a type that is written in the head of a container. -/
def heritageOf (chunks : List Chunk) (c : Chunk) (relationship : Relationship) (strength : Float)
    (verb written : String) : List Dependency :=
  (resolveType? chunks written).toList.map fun base =>
    { source := c.id, target := base.id, relationship, strength, direct := true, required := true
      description := s!"{verb} {written}" }

def heritage (chunks : List Chunk) (c : Chunk) : List Dependency :=
  if c.kind == .container then
    c.declaration.base.toList.flatMap (heritageOf chunks c .inherits 1.0 "extends") ++
      c.declaration.interfaces.flatMap (heritageOf chunks c .implements 0.9 "implements")
  else []

/-- The calls in a member that are not its own declaration, which has its name on the first line. -/
def callsIn (c : Chunk) : List Text.CallSite :=
  (Text.callSites c.content).filter fun s => !(s.lineOffset == 0 && c.name == some s.name)

/-- The place in the file of a call in a chunk. -/
def locationOf (c : Chunk) (s : Text.CallSite) : Location :=
  ⟨c.startLine + s.lineOffset, s.column, s.snippet⟩

/-- The members a call may mean: all of that name but the caller. -/
def callees (chunks : List Chunk) (c : Chunk) (s : Text.CallSite) : List Chunk :=
  (membersNamed chunks s.name).filter fun d => d.id != c.id

/-- The dependencies of a member on the members it calls, each with all the places of the calls. -/
def calls (chunks : List Chunk) (c : Chunk) : List Dependency :=
  if c.kind.isMemberLike then
    let sites := callsIn c
    (Chunk.distinct (sites.flatMap (callees chunks c))).map fun d =>
      { source := c.id, target := d.id, relationship := .calls
        strength := 0.8, direct := true, required := false
        description := s!"calls {d.displayName}"
        locations := (sites.filter fun s => d.name == some s.name).map (locationOf c) }
  else []

def isAbove (chunks : List Chunk) (parents : List (Option Nat)) (a c : Chunk) : Bool :=
  match chunks.findIdx? (fun d => d.id == a.id), chunks.findIdx? (fun d => d.id == c.id) with
  | some i, some j => Lineage.isAncestor parents i j
  | _, _ => false

def uses (chunks : List Chunk) (parents : List (Option Nat)) (c : Chunk) : List Dependency :=
  if c.kind.isMemberLike then
    (Text.identifiers c.content).filterMap fun word => do
      let t ← typeNamed? chunks word
      if isAbove chunks parents t c then none
      else
        return { source := c.id, target := t.id, relationship := .uses
                 strength := 0.7, direct := true, required := false
                 description := s!"references type {word}" }
  else if c.kind == .container then
    (c.metadata.texts "field_types").filterMap fun written =>
      (resolveType? chunks written).map fun t =>
        { source := c.id, target := t.id, relationship := .uses
          strength := 0.8, direct := true, required := true
          description := s!"field of type {written}" }
  else []

def Match.strength : Match → Float
  | .exact => 0.7
  | .byName => 0.6

def importOf (c target : Chunk) (strength : Float) (direct : Bool) (description : String) :
    Dependency :=
  { source := c.id, target := target.id, relationship := .imports, strength, direct
    required := true, description }

/-- What stands before the point and the wildcard at the end of an import, if they stand there. -/
def wildcard? (written : String) : Option String :=
  (Text.dropEndWord? ".*".toList written.toList).map String.ofList

/-- What a wildcard import names: the symbols below the path, and the module's files with theirs. -/
def wildcardTargets (chunks : List Chunk) (before path : String) : List Chunk :=
  let below := chunks.filter fun c =>
    c.kind.isSymbol && c.path != path && c.qualifiedName.any fun q =>
      (before.toList ++ ['.']).isPrefixOf q.toList
  below ++ (moduleFiles chunks before path).flatMap fun (file, _) => file :: topLevel chunks file

def importedSymbol? (chunks : List Chunk) (written path : String) : Option (Chunk × Match) :=
  let byFullName := (qualifiedElsewhere? chunks written path).map fun c => (c, Match.exact)
  let last := String.ofList (Name.afterLastPoint written.toList)
  let byLastPart := (namedElsewhere? chunks last path).map fun c => (c, Match.byName)
  (byFullName.or (moduleMember? chunks written path)).or byLastPart

def importsOf (chunks : List Chunk) (c : Chunk) (written : String) : List Dependency :=
  match wildcard? written with
  | some before =>
    (wildcardTargets chunks before c.path).map fun t =>
      importOf c t 0.5 false s!"wildcard import {written}"
  | none =>
    match moduleFiles chunks written c.path with
    | [] =>
      (importedSymbol? chunks written c.path).toList.map fun (t, m) =>
        importOf c t (Match.strength m) true s!"imports {written}"
    | files =>
      files.map fun (file, m) =>
        importOf c file (Match.strength m) true s!"imports module {written}"

def imports (chunks : List Chunk) (c : Chunk) : List Dependency :=
  if c.kind == .file then c.declaration.imports.flatMap (importsOf chunks c) else []

/-- The dependencies of a list that join two ends, the first of each key. -/
def keepFirst (ds : List Dependency) : List Dependency :=
  distinctBy Dependency.key [] (ds.filter fun d => d.source != d.target)

/-- Everything the five passes find, in order, for chunks with distinct ids. -/
def found (chunks : List Chunk) : List Dependency :=
  let parents := parents chunks
  chunks.flatMap (containment chunks) ++ chunks.flatMap (heritage chunks) ++
    chunks.flatMap (calls chunks) ++ chunks.flatMap (uses chunks parents) ++
    chunks.flatMap (imports chunks)

end CodeAtlas.Inference

namespace CodeAtlas.Graph

/-- The dependency graph of chunks; of chunks with one id the first counts. -/
def ofChunks (chunks : List Chunk) : Graph :=
  let chunks := Chunk.distinct chunks
  ofParts (chunks.map Chunk.toNode) (Inference.keepFirst (Inference.found chunks))

end CodeAtlas.Graph
