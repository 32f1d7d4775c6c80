import CodeAtlas.Document.Printer
import CodeAtlas.Document.Reader
import CodeAtlas.Source.Outline
import CodeAtlas.Store.Record
import CodeAtlas.Workspace.Basic

/-!
Workspaces as documents: a list of what stands in them, by path. The bytes of a file are written as
text where they are one.
-/

namespace CodeAtlas

open Document

namespace FileEntry

def bytes? : Document → Option (List UInt8)
  | text s => some s.toUTF8.toList
  | d => (listOf? size? d).map fun ns => ns.map Nat.toUInt8

def bytesDocument (bytes : List UInt8) : Document :=
  match String.fromUTF8? (ByteArray.mk bytes.toArray) with
  | some s => text s
  | none => list (bytes.map fun b => ofNat b.toNat)

end FileEntry

namespace Entry

def declared : List FieldName :=
  [⟨"kind", []⟩, ⟨"source", []⟩, ⟨"tree", []⟩, ⟨"modified", []⟩, ⟨"store", []⟩]

def ofFields? (fs : Fields) : Option Entry := do
  match ← fs.required "kind" text? with
  | "folder" => return folder
  | "file" =>
    return file {
      bytes := ← fs.required "source" FileEntry.bytes?
      root := (← fs.optional "tree" Source.Tree.ofDocument?).getD default
      modified := ← fs.defaulted "modified" { seconds := 0 } Instant.ofDocument? }
  | "store" => return store (← fs.required "store" Store.ofDocument?)
  | "broken" => return broken
  | _ => none

def fields : Entry → List (String × Document)
  | folder => [("kind", text "folder")]
  | file f =>
    [("kind", text "file"), ("source", FileEntry.bytesDocument f.bytes),
      ("tree", f.root.toDocument), ("modified", f.modified.toDocument)]
  | store s => [("kind", text "store"), ("store", s.toDocument)]
  | broken => [("kind", text "broken")]

end Entry

namespace Workspace

def entryOfDocument? (d : Document) : Option (Place × Entry) := do
  let fs ← Fields.ofDocument? (⟨"path", []⟩ :: Entry.declared) d
  return (← (← fs.required "path" text?) |> Place.ofText?, ← Entry.ofFields? fs)

def ofDocument? (d : Document) : Option Workspace := do
  let entries ← listOf? entryOfDocument? d
  return entries.foldl (fun w e => w.write e.1 e.2) {}

def toDocument (w : Workspace) : Document :=
  list (w.entries.map fun (place, e) => record (("path", text place.toText) :: e.fields))

def ofText? (s : String) : Option Workspace :=
  (parse? s).bind ofDocument?

def save (w : Workspace) : String :=
  w.toDocument.renderIndented

end Workspace

end CodeAtlas
