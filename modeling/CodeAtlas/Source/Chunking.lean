import CodeAtlas.Chunk.Reference
import CodeAtlas.Failure
import CodeAtlas.Source.Context
import CodeAtlas.Source.Heritage
import CodeAtlas.Source.Signature

/-!
The chunks of a source file. The file itself comes first, then its imports, containers and members,
each before what belongs to it. A container with anything in it is also cut into its declaration, up
to the first thing in it, and its closing, from the last thing on.
-/

namespace CodeAtlas.Source

/-- A source file with its syntax tree. -/
structure File where
  path : String
  bytes : List UInt8
  root : Tree

namespace File

/-- The chunk of a kind for a span of a file, without a name. -/
def chunkOf (f : File) (l : Language) (kind : ChunkKind) (first last : Nat)
    (parent : Option String) : Chunk where
  id := Chunk.idOf f.path kind first last
  kind := kind
  content := textOf f.bytes first last
  path := f.path
  startLine := lineOf f.bytes first
  endLine := lastLineOf f.bytes first last
  language := l.name
  parent := parent

def contextChunk (f : File) (l : Language) (parent : String) (c : Context) : Chunk :=
  let kind := if l.packageKinds.contains c.node.kind then ChunkKind.context else .imported
  { f.chunkOf l kind c.node.first c.node.last (some parent) with
    name := c.package.or c.imports.head?
    declaration := { package := c.package, imports := c.imports }
    metadata := Metadata.ofFields [("node_kind", .text c.node.kind)] }

def memberChunk (f : File) (l : Language) (kind : ChunkKind) (parent : String)
    (parentName : Option String) (t : Tree) : Chunk :=
  let chunk := f.chunkOf l kind t.first t.last (some parent)
  let name := declarationName? l f.bytes t
  { chunk with
    name := name
    qualifiedName := name.map (Name.qualify parentName)
    declaration :=
      { parameters := parametersOf f.bytes t, returnType := returnType? l f.bytes t }
    metadata := Metadata.ofFields
      [("node_kind", .text t.kind), ("signature", .text (signature l chunk.content))] }

def segmentChunk (f : File) (l : Language) (parent role : String) (first last : Nat) : Chunk :=
  { f.chunkOf l .context first last (some parent) with
    metadata := Metadata.ofFields [("segment", .text role)] }

/-- The declaration or closing of a container between two bytes, unless only blanks are there. -/
def segment (f : File) (l : Language) (parent role : String) (first last : Nat) : List Chunk :=
  (trimSpan? f.bytes first last).toList.map fun (a, b) => f.segmentChunk l parent role a b

def containerChunk (f : File) (l : Language) (p : Parts) (parent : String)
    (parentName : Option String) (i : Nat) (t : Tree) : Chunk :=
  let chunk := f.chunkOf l .container t.first t.last (some parent)
  let name := declarationName? l f.bytes t
  let heritage := Heritage.ofContainer l f.bytes f.root p.primaries i
  let fieldTypes := fieldTypesOf l f.bytes f.root p.primaries i
  { chunk with
    name := name
    qualifiedName := name.map (Name.qualify parentName)
    declaration := { base := heritage.base, interfaces := heritage.interfaces }
    metadata := Metadata.ofFields
      ([("node_kind", .text t.kind), ("is_interface", .boolean (isInterfaceLike l t)),
        ("signature", .text (signature l chunk.content))] ++
        if fieldTypes.isEmpty then [] else [("field_types", .ofTexts fieldTypes)]) }

/-- The kind of the chunk of a block below the file or, with `inside`, in a container. -/
def blockKind (inside : Bool) : Block → ChunkKind
  | .container .. => .container
  | .member _ => if inside then .member else .orphanedMember

def blockId (f : File) (inside : Bool) (b : Block) : String :=
  Chunk.idOf f.path (blockKind inside b) b.node.first b.node.last

mutual

def blockChunks (f : File) (l : Language) (p : Parts) (inside : Bool) (parent : String)
    (parentName : Option String) : Block → List Chunk
  | .member t => [f.memberChunk l (blockKind inside (.member t)) parent parentName t]
  | .container i t children =>
    let chunk := f.containerChunk l p parent parentName i t
    match children.head?, children.getLast? with
    | some firstChild, some lastChild =>
      let before := f.segment l chunk.id "declaration" t.first firstChild.node.first
      let after := f.segment l chunk.id "closing" lastChild.node.last t.last
      let ids := before.map Chunk.id ++ children.map (f.blockId true) ++ after.map Chunk.id
      { chunk with children := ids } ::
        before ++ blocksChunks f l p true chunk.id chunk.qualifiedName children ++ after
    | _, _ => [chunk]

def blocksChunks (f : File) (l : Language) (p : Parts) (inside : Bool) (parent : String)
    (parentName : Option String) : List Block → List Chunk
  | [] => []
  | b :: bs =>
    blockChunks f l p inside parent parentName b ++
      blocksChunks f l p inside parent parentName bs

end

/-- The last part of a path that is not empty and no point; none if that leads upwards. -/
def baseName? (path : String) : Option String :=
  match (Name.pathParts path.toList).getLast? with
  | some part => if part == ['.', '.'] then none else some (String.ofList part)
  | none => none

def fileChunk (f : File) (l : Language) (contexts : List Context) (children : List String) :
    Chunk :=
  let package := contexts.findSome? Context.package
  let module := package.or (Name.modulePath? f.path)
  { f.chunkOf l .file 0 f.bytes.length none with
    startLine := 1
    name := baseName? f.path
    qualifiedName := package
    declaration := { package, imports := (contexts.flatMap Context.imports).eraseDups }
    metadata := module.toList.map fun m => ("module", .text m)
    children }

/-- What stands at the top of a file: a context node or a block. -/
inductive TopItem where
  | context (c : Context)
  | block (b : Block)

def TopItem.first : TopItem → Nat
  | .context c => c.node.first
  | .block b => b.node.first

def topChunks (f : File) (l : Language) (p : Parts) (fileId : String) (package : Option String) :
    TopItem → List Chunk
  | .context c => [f.contextChunk l fileId c]
  | .block b => f.blockChunks l p false fileId package b

def topItems (f : File) (l : Language) (p : Parts) : List TopItem :=
  (p.contexts.map (fun t => TopItem.context (Context.ofNode l f.bytes t)) ++
    (Block.roots p).map TopItem.block).mergeSort fun a b => a.first ≤ b.first

/-- The chunks of a file in pre-order, before references are linked. -/
def tree (f : File) (l : Language) : List Chunk :=
  let p := Parts.ofRoot l f.root
  let contexts := p.contexts.map (Context.ofNode l f.bytes)
  let package := contexts.findSome? Context.package
  let fileId := Chunk.idOf f.path .file 0 f.bytes.length
  let below := (f.topItems l p).map (f.topChunks l p fileId package)
  f.fileChunk l contexts (below.filterMap fun cs => cs.head?.map Chunk.id) :: below.flatten

def chunks (f : File) (l : Language) : List Chunk :=
  Reference.link (f.tree l)

/-- The part of the file name behind its last point; a point in front does not count. -/
def extension (path : String) : String :=
  match baseName? path with
  | none => ""
  | some name =>
    match Text.cutAtLast? '.' name.toList with
    | none => ""
    | some (before, after) => if before.isEmpty then "" else String.ofList after

def language (path : String) : Except Failure Language :=
  match Language.ofExtension? (extension path) with
  | some l => .ok l
  | none => .error (.unsupportedLanguage s!"extension '{extension path}' ({path})")

def chunksIn (f : File) (languageName : String) : Except Failure (List Chunk) :=
  match Language.ofName? languageName with
  | some l => .ok (f.chunks l)
  | none => .error (.unsupportedLanguage languageName)

end File

end CodeAtlas.Source
