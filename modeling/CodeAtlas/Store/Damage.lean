import CodeAtlas.Graph.NodeLink
import CodeAtlas.Store.Basic

/-!
Damage to the store from outside: the text in a column of a row is overwritten. Columns that hold
documents fall back to defaults when the text is no such document; in a column for numbers a text
that is no numeral spoils the row.
-/

namespace CodeAtlas.Store

open Document

/-- A decimal numeral with spaces around it: its sign, digits and exponent. -/
def numeral? (s : String) : Option (Bool × Nat × Int) :=
  let isSpace (c : Char) : Bool := c == ' ' || ('\t' ≤ c && c ≤ '\r')
  let value (ds : List Char) : Nat := ds.foldl (fun n c => n * 10 + (c.toNat - '0'.toNat)) 0
  let body := Text.strip isSpace s.toList
  let negative := body.head? == some '-'
  let body := if negative || body.head? == some '+' then body.drop 1 else body
  let whole := body.takeWhile Char.isDigit
  let rest := body.dropWhile Char.isDigit
  let (fraction, rest) :=
    match rest with
    | '.' :: rest => (rest.takeWhile Char.isDigit, rest.dropWhile Char.isDigit)
    | rest => ([], rest)
  if whole.isEmpty && fraction.isEmpty then none
  else
    let n := value (whole ++ fraction)
    let shift : Int := -fraction.length
    match rest with
    | [] => some (negative, n, shift)
    | e :: rest =>
      let down := rest.head? == some '-'
      let ds := if down || rest.head? == some '+' then rest.drop 1 else rest
      if (e == 'e' || e == 'E') && !ds.isEmpty && ds.all Char.isDigit then
        some (negative, n, if down then shift - value ds else shift + value ds)
      else none

/-- The whole number of 64 bits with a sign that a text stands for, as it is read without a sign. -/
def lineNumber? (s : String) : Option Nat := do
  let (negative, n, e) ← numeral? s
  let size ←
    if n == 0 then some 0
    else if 0 ≤ e then if e ≤ 18 then some (n * Nat.pow 10 e.toNat) else none
    else if e < -400 then none
    else if n % Nat.pow 10 (-e).toNat == 0 then some (n / Nat.pow 10 (-e).toNat) else none
  if negative then
    if size ≤ UInt64.size / 2 then some ((UInt64.size - size) % UInt64.size) else none
  else if size < UInt64.size / 2 then some size else none

def realNumber? (s : String) : Option Float := do
  let (negative, n, e) ← numeral? s
  let size :=
    if n == 0 || e < -1000 then 0.0
    else if e < 0 then Float.ofScientific n true (-e).toNat
    else if e ≤ 400 then Float.ofScientific n false e.toNat
    else 1.0 / 0.0
  return if negative then -size else size

def markSpoiled (column : String) (isSpoiled : Bool) (spoiled : List String) : List String :=
  let others := spoiled.filter (· != column)
  if isSpoiled then column :: others else others

namespace ChunkRow

def overwriteLine (r : ChunkRow) (column value : String) (set : Chunk → Nat → Chunk) : ChunkRow :=
  match lineNumber? value with
  | some n =>
    { r with chunk := set r.chunk n, spoiled := markSpoiled column false r.spoiled }
  | none => { r with spoiled := markSpoiled column true r.spoiled }

/-- A row with a column overwritten that may be empty; nothing if there is no such column. -/
def overwriteOptional (r : ChunkRow) (column : String) (value : Option String) : Option ChunkRow :=
  let c := r.chunk
  match column with
  | "name" => some { r with chunk := { c with name := value } }
  | "qualified_name" => some { r with chunk := { c with qualifiedName := value } }
  | "parent_id" => some { r with chunk := { c with parent := value } }
  | "context" => some { r with chunk := { c with declaration := Column.declaration value } }
  | "metadata" => some { r with chunk := { c with metadata := Column.metadata value } }
  | "children_ids" => some { r with chunk := { c with children := Column.texts value } }
  | "reference_ids" => some { r with chunk := { c with references := Column.texts value } }
  | "referenced_by_ids" => some { r with chunk := { c with referencedBy := Column.texts value } }
  | "graph_metadata" => some { r with profile := Column.profile value }
  | _ => none

/-- A row with a column overwritten that may not be empty; nothing if there is no such column. -/
def overwriteRequired (r : ChunkRow) (column value : String) : Option ChunkRow :=
  let c := r.chunk
  match column with
  | "node_id" => some { r with chunk := { c with id := value } }
  | "chunk_type" =>
    some { r with chunk := { c with kind := (ChunkKind.ofLabel? value).getD .member } }
  | "content" => some { r with chunk := { c with content := value } }
  | "file_path" => some { r with chunk := { c with path := value } }
  | "language" => some { r with chunk := { c with language := value } }
  | "start_line" => some (r.overwriteLine column value fun c n => { c with startLine := n })
  | "end_line" => some (r.overwriteLine column value fun c n => { c with endLine := n })
  | _ => none

def overwrite (r : ChunkRow) (column : String) (value : Option String) : Option ChunkRow :=
  (r.overwriteOptional column value).or (value.bind (r.overwriteRequired column))

end ChunkRow

namespace EdgeRow

def overwriteFlag (r : EdgeRow) (column value : String) (set : Dependency → Bool → Dependency) :
    EdgeRow :=
  match lineNumber? value with
  | some n =>
    { r with edge := set r.edge (n != 0), spoiled := markSpoiled column false r.spoiled }
  | none => { r with spoiled := markSpoiled column true r.spoiled }

/-- A row with a column overwritten that may not be empty; nothing if there is no such column. -/
def overwriteRequired (r : EdgeRow) (column value : String) : Option EdgeRow :=
  let e := r.edge
  match column with
  | "source_id" => some { r with edge := { e with source := value } }
  | "target_id" => some { r with edge := { e with target := value } }
  | "edge_type" => some { r with label := value }
  | "strength" =>
    match realNumber? value with
    | some x =>
      let spoiled := markSpoiled column false r.spoiled
      some { r with edge := { e with strength := keptReal x }, spoiled }
    | none => some { r with spoiled := markSpoiled column true r.spoiled }
  | "is_direct" => some (r.overwriteFlag column value fun e b => { e with direct := b })
  | "is_required" => some (r.overwriteFlag column value fun e b => { e with required := b })
  | _ => none

def overwrite (r : EdgeRow) (column : String) (value : Option String) : Option EdgeRow :=
  match column with
  | "description" => some { r with edge := { r.edge with description := value.getD "" } }
  | "locations" =>
    let locations := decodeOr [] (listOf? Location.ofDocument?) value
    some { r with edge := { r.edge with locations } }
  | _ => value.bind (r.overwriteRequired column)

end EdgeRow

/-- Rows with those that are chosen changed, and how many they are; nothing if one change is
refused. -/
def changeRows {ρ : Type} (chosen : ρ → Bool) (change : ρ → Option ρ) (rows : List ρ) :
    Option (Nat × List ρ) := do
  let changed ← rows.mapM fun r => if chosen r then change r else some r
  return (rows.countP chosen, changed)

/-- Overwrites a column of the chunk with an id; says how many rows that were. -/
def overwriteChunk (s : Store) (id column : String) (value : Option String) :
    Except Failure (Nat × Store) :=
  let result := do
    let t ← s.tables?
    let (count, chunks) ← changeRows (fun r => r.chunk.id == id) (·.overwrite column value) t.chunks
    if (chunks.map fun r => r.chunk.id).eraseDups.length == chunks.length then
      return (count, { s with tables? := some { t with chunks } })
    else none
  match result with
  | some r => .ok r
  | none => .error .store

/-- Overwrites a column of the dependencies that start at an id; says how many rows that were. -/
def overwriteEdges (s : Store) (id column : String) (value : Option String) :
    Except Failure (Nat × Store) :=
  let result := do
    let t ← s.tables?
    let (count, edges) ← changeRows (fun r => r.edge.source == id)
      (·.overwrite column value) t.edges
    if (edges.map EdgeRow.key).eraseDups.length == edges.length then
      return (count, { s with tables? := some { t with edges } })
    else none
  match result with
  | some r => .ok r
  | none => .error .store

end CodeAtlas.Store
