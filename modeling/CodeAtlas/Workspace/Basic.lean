import CodeAtlas.Source.Tree
import CodeAtlas.Store.Basic
import CodeAtlas.Text.Pieces

/-!
A workspace: the files and folders below one folder. Files come with the syntax trees of their
contents, and a store is a file too.
-/

namespace CodeAtlas

/-- A place in a workspace: the names on the way to it. -/
abbrev Place := List String

namespace Place

/-- Follows the names of a path from a place, which is in reverse order; nothing if it leads out. -/
def follow? : List String → Place → Option Place
  | [], place => some place.reverse
  | name :: names, place =>
    if name == "" || name == "." then follow? names place
    else if name == ".." then
      match place with
      | [] => none
      | _ :: above => follow? names above
    else follow? names (name :: place)

/-- The place a path leads to, unless it leads out of the workspace. -/
def ofText? (path : String) : Option Place :=
  if path.toList.head? == some '/' then none
  else follow? ((Text.splitOn '/' path.toList).map String.ofList) []

def toText (place : Place) : String :=
  String.intercalate "/" place

/-- The places of the folders on the way to a place, the nearest first. -/
def above (place : Place) : List Place :=
  (List.range place.length).reverse.map place.take

end Place

structure FileEntry where
  bytes : List UInt8
  root : Source.Tree := default
  modified : Instant := { seconds := 0 }

/-- What stands at a place. A broken entry is listed as a file but cannot be read. -/
inductive Entry where
  | folder
  | file (f : FileEntry)
  | store (s : Store)
  | broken

/-- The text of a file. A store with tables is no text, and one without is empty. -/
def Entry.content? : Entry → Option String
  | file f => String.fromUTF8? (ByteArray.mk f.bytes.toArray)
  | store s => if s.hasTables then none else some ""
  | _ => none

/-- The files and folders below one folder. -/
structure Workspace where
  entries : List (Place × Entry) := []

namespace Workspace

def get? (w : Workspace) (place : Place) : Option Entry :=
  if place.isEmpty then some .folder else w.entries.lookup place

def isFolder (w : Workspace) (place : Place) : Bool :=
  match w.get? place with
  | some .folder => true
  | _ => false

/-- Puts an entry in the place of the one that stood there. -/
def put (w : Workspace) (place : Place) (e : Entry) : Workspace :=
  ⟨w.entries.filter (fun p => p.1 != place) ++ [(place, e)]⟩

def makeFolder (w : Workspace) (place : Place) : Workspace :=
  if (w.get? place).isSome then w else w.put place .folder

/-- Puts an entry, with the folders on the way to it. -/
def write (w : Workspace) (place : Place) (e : Entry) : Workspace :=
  (place.above.foldr (fun folder w => w.makeFolder folder) w).put place e

def remove (w : Workspace) (place : Place) : Workspace :=
  ⟨w.entries.filter fun p => !place.isPrefixOf p.1⟩

/-- Follows the names of a path from a place, through folders that are there; nothing if it leads
out. -/
def walk? (w : Workspace) : List String → Place → Option Place
  | [], place => some place
  | name :: names, place =>
    if !w.isFolder place then none
    else if name == "" || name == "." then w.walk? names place
    else if name == ".." then if place.isEmpty then none else w.walk? names place.dropLast
    else w.walk? names (place ++ [name])

/-- The place a path leads to if something can stand there. -/
def reach? (w : Workspace) (path : String) : Option Place :=
  if path.toList.head? == some '/' then none
  else w.walk? ((Text.splitOn '/' path.toList).map String.ofList) []

def placeAt? (w : Workspace) (path : String) : Option Place :=
  (w.reach? path).filter fun place => (w.get? place).isSome

def entryAt? (w : Workspace) (path : String) : Option Entry :=
  (w.reach? path).bind w.get?

/-- The place a path leads to if a file can be put there: its folder is there, and it is no
folder. -/
def roomAt? (w : Workspace) (path : String) : Option Place :=
  (w.reach? path).filter fun place => w.isFolder place.dropLast && !w.isFolder place

/-- Puts a file with a text at a path, if there is room for it. -/
def writeText? (w : Workspace) (path text : String) : Option Workspace :=
  (w.roomAt? path).map fun place => w.put place (.file { bytes := text.toUTF8.toList })

/-- The paths of everything but folders, in order. -/
def files (w : Workspace) : List String :=
  (w.entries.filterMap fun p =>
    match p.2 with
    | .folder => none
    | _ => some p.1.toText).mergeSort fun a b => a ≤ b

end Workspace

end CodeAtlas
