import CodeAtlas.Document.Basic

/-!
Reading the declared fields of a record. A record may be written by field names, in any order and
with unknown names among them, or as a list of the values in the declared order. A declared field
that is written twice makes the record unreadable.
-/

namespace CodeAtlas.Document

/-- A declared field: the name it is written under, and the other spellings that are read. -/
structure FieldName where
  name : String
  spellings : List String := []

/-- What a document says about a declared field. In a list the last fields may be cut off. -/
inductive Slot where
  | given (d : Document)
  | absent
  | cutOff

/-- The declared fields of a record with what was found for each. -/
abbrev Fields := List (String × Slot)

namespace Fields

/-- The slot of one declared field among written ones; nothing if it is written more than once. -/
def slotOf (written : List (String × Document)) (f : FieldName) : Option (String × Slot) :=
  match written.filter fun w => w.1 == f.name || f.spellings.contains w.1 with
  | [] => some (f.name, .absent)
  | [(_, d)] => some (f.name, .given d)
  | _ => none

/-- The values of a list taken for the declared fields in order; nothing if there are too many. -/
def positional : List FieldName → List Document → Option Fields
  | fs, [] => some (fs.map fun f => (f.name, .cutOff))
  | [], _ :: _ => none
  | f :: fs, d :: ds => (positional fs ds).map ((f.name, .given d) :: ·)

/-- The declared fields of a document, if it is a record or a list of at most that many values. -/
def ofDocument? (declared : List FieldName) : Document → Option Fields
  | record written => declared.mapM (slotOf written)
  | list items => positional declared items
  | _ => none

def required {α : Type} (fs : Fields) (name : String) (decode : Document → Option α) : Option α :=
  match fs.lookup name with
  | some (.given d) => decode d
  | _ => none

/-- A field that may be missing or `null`; a list may not leave it out. -/
def optional {α : Type} (fs : Fields) (name : String) (decode : Document → Option α) :
    Option (Option α) :=
  match fs.lookup name with
  | some (.given null) => some none
  | some (.given d) => (decode d).map some
  | some .absent => some none
  | _ => none

/-- A field that stands for a default when it is missing. -/
def defaulted {α : Type} (fs : Fields) (name : String) (default : α)
    (decode : Document → Option α) : Option α :=
  match fs.lookup name with
  | some (.given d) => decode d
  | some _ => some default
  | none => none

def optionalOrCut {α : Type} (fs : Fields) (name : String) (decode : Document → Option α) :
    Option (Option α) :=
  match fs.lookup name with
  | some (.given null) => some none
  | some (.given d) => (decode d).map some
  | some _ => some none
  | none => none

end Fields

/-- A size: a whole number that fits in 64 bits without a sign. -/
def size? : Document → Option Nat
  | integer n => if 0 ≤ n && n < UInt64.size then some n.toNat else none
  | _ => none

/-- A real number; whole numbers count, and become the nearest double. -/
def real? : Document → Option Float
  | integer n =>
    some (if n < 0 then -(n.natAbs.toUInt64.toFloat) else n.natAbs.toUInt64.toFloat)
  | real x => some x
  | _ => none

def listOf? {α : Type} (decode : Document → Option α) : Document → Option (List α)
  | list items => items.mapM decode
  | _ => none

def texts? : Document → Option (List String) :=
  listOf? text?

/-- One of several names: the name itself, or a record with that name and `null`. -/
def choice? {α : Type} (ofName : String → Option α) : Document → Option α
  | text s => ofName s
  | record [(s, null)] => ofName s
  | _ => none

end CodeAtlas.Document
