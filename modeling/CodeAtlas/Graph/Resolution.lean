import CodeAtlas.Chunk.Lineage
import CodeAtlas.Chunk.Name

/-!
What names mean among a list of chunks with distinct ids. Names are compared as text, and where
several chunks answer to a name the first in the list is meant.
-/

namespace CodeAtlas.Resolution

def byId? (chunks : List Chunk) (id : String) : Option Chunk :=
  chunks.find? fun c => c.id == id

/-- The position of the parent of every chunk, where the list has it. -/
def parents (chunks : List Chunk) : List (Option Nat) :=
  chunks.map fun c => c.parent.bind fun id => chunks.findIdx? fun d => d.id == id

/-- Whether a chunk is a container that answers to a name, by its own or its full name. -/
def isTypeNamed (name : String) (c : Chunk) : Bool :=
  c.kind == .container && c.isNamed && (c.name == some name || c.qualifiedName == some name)

/-- The first container that answers to a name. -/
def typeNamed? (chunks : List Chunk) (name : String) : Option Chunk :=
  chunks.find? (isTypeNamed name)

/-- The container a written type means: one that answers to all of it, or else to its last part. -/
def resolveType? (chunks : List Chunk) (name : String) : Option Chunk :=
  (typeNamed? chunks name).or (typeNamed? chunks (Name.simple name))

def membersNamed (chunks : List Chunk) (name : String) : List Chunk :=
  chunks.filter fun c => c.kind.isMemberLike && c.isNamed && c.name == some name

def topLevel (chunks : List Chunk) (file : Chunk) : List Chunk :=
  chunks.filter fun c => c.kind.isSymbol && c.parent == some file.id

/-- Whether a dotted path ends with a point and another path. -/
def endsWithPath (long short : String) : Bool :=
  match Text.dropEndWord? short.toList long.toList with
  | some before => before.getLast? == some '.'
  | none => false

/-- How well an import matches a module: exactly, or by the last parts of the longer of the two. -/
inductive Match where
  | exact
  | byName
  deriving DecidableEq, Repr

/-- How well an import matches a module path, if it does. -/
def matchModule? (written module : String) : Option Match :=
  if module == written then some .exact
  else if endsWithPath written module || endsWithPath module written then some .byName
  else none

/-- The files outside a path whose module an import names, in order, with how well it does. -/
def moduleFiles (chunks : List Chunk) (written path : String) : List (Chunk × Match) :=
  chunks.filterMap fun c =>
    if c.kind == .file && c.path != path then
      (c.module?.bind (matchModule? written)).map fun m => (c, m)
    else none

/-- The head and the name of an import, cut at its last point. -/
def cutName? (written : String) : Option (String × String) :=
  (Text.cutAtLast? '.' written.toList).map fun p => (String.ofList p.1, String.ofList p.2)

/-- The first symbol of a name at the top of a file whose module the head of an import names. -/
def moduleMember? (chunks : List Chunk) (written path : String) : Option (Chunk × Match) :=
  match cutName? written with
  | none => none
  | some (head, name) =>
    (moduleFiles chunks head path).findSome? fun (file, m) =>
      ((topLevel chunks file).find? fun c => c.name == some name).map fun c => (c, m)

def qualifiedElsewhere? (chunks : List Chunk) (name path : String) : Option Chunk :=
  chunks.find? fun c => c.kind.isSymbol && c.qualifiedName == some name && c.path != path

/-- The first symbol outside a path with a name. -/
def namedElsewhere? (chunks : List Chunk) (name path : String) : Option Chunk :=
  chunks.find? fun c => c.kind.isSymbol && c.isNamed && c.name == some name && c.path != path

end CodeAtlas.Resolution
