import CodeAtlas.Document.Basic

/-!
Free-form data of a chunk: documents under names, kept in the order of the names. When a name is
written twice the later value counts, at every depth.
-/

namespace CodeAtlas

/-- Documents under distinct names, in increasing order of the names. -/
abbrev Metadata := List (String × Document)

namespace Metadata

def insert (name : String) (d : Document) : Metadata → Metadata
  | [] => [(name, d)]
  | (n, e) :: rest =>
    if name < n then (name, d) :: (n, e) :: rest
    else if name == n then (name, d) :: rest
    else (n, e) :: insert name d rest

def ofFields (fields : List (String × Document)) : Metadata :=
  fields.foldl (fun m f => m.insert f.1 f.2) []

mutual

/-- A document with the fields of all its records in order, each name once. -/
def ordered : Document → Document
  | .list items => .list (orderedItems items)
  | .record fields => .record (ofFields (orderedFields fields))
  | d => d

def orderedItems : List Document → List Document
  | [] => []
  | d :: ds => ordered d :: orderedItems ds

def orderedFields : List (String × Document) → List (String × Document)
  | [] => []
  | (n, d) :: fields => (n, ordered d) :: orderedFields fields

end

def ofDocument? : Document → Option Metadata
  | .record fields => some (ofFields (orderedFields fields))
  | _ => none

def flag (m : Metadata) (name : String) : Bool :=
  ((m.lookup name).bind Document.boolean?).getD false

/-- The texts in the list that stands under a name; other items of the list are passed over. -/
def texts (m : Metadata) (name : String) : List String :=
  (((m.lookup name).bind Document.list?).getD []).filterMap Document.text?

end Metadata

end CodeAtlas
