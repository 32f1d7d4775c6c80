/-!
Documents: the values that records, settings and requests are written in. The fields of a record
keep their order and may repeat; whoever reads a record decides what a repetition means.
-/

namespace CodeAtlas

/-- A value of a document. Whole numbers that fit in 64 bits are kept apart from real ones. -/
inductive Document where
  | null
  | boolean (b : Bool)
  | integer (n : Int)
  | real (x : Float)
  | text (s : String)
  | list (items : List Document)
  | record (fields : List (String × Document))
  deriving Inhabited

namespace Document

/-- Whether a whole number is written as one: it fits in 64 bits, with or without a sign. -/
def inIntegerRange (n : Int) : Bool :=
  -(UInt64.size / 2 : Nat) ≤ n && n < UInt64.size

def text? : Document → Option String
  | text s => some s
  | _ => none

def list? : Document → Option (List Document)
  | list items => some items
  | _ => none

def boolean? : Document → Option Bool
  | boolean b => some b
  | _ => none

def ofTexts (texts : List String) : Document :=
  list (texts.map text)

def ofText? : Option String → Document
  | some s => text s
  | none => null

def ofNat (n : Nat) : Document :=
  integer n

end Document

end CodeAtlas
