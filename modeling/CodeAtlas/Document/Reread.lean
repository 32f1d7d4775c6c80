import CodeAtlas.Document.Printer
import CodeAtlas.Document.Reader

/-!
What becomes of documents that are kept as text: real numbers are written with their shortest digits
and read back, which may change the last bit. All else stays.
-/

namespace CodeAtlas.Document

/-- The number that is read back from the text of a number. -/
def rereadReal (x : Float) : Float :=
  match parse? (String.ofList (Decimal.writeFloat x)) with
  | some (real y) => y
  | _ => x

mutual

def reread : Document → Document
  | real x => real (rereadReal x)
  | list items => list (rereadItems items)
  | record fields => record (rereadFields fields)
  | d => d

def rereadItems : List Document → List Document
  | [] => []
  | d :: ds => reread d :: rereadItems ds

def rereadFields : List (String × Document) → List (String × Document)
  | [] => []
  | (name, d) :: fields => (name, reread d) :: rereadFields fields

end

/-- What the text of a record stands for; a default if it is missing or cannot be read. -/
def decodeOr {α : Type} (default : α) (decode : Document → Option α) (raw : Option String) : α :=
  ((raw.bind parse?).bind decode).getD default

end CodeAtlas.Document
