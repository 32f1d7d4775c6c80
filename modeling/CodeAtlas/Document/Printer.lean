import CodeAtlas.Decimal.Layout
import CodeAtlas.Document.Basic

/-!
Writing documents as text: on one line without spaces, or with every item on a line of its own, two
spaces deeper than the line that opens the list or record.
-/

namespace CodeAtlas.Document

def hexChar (n : Nat) : Char :=
  if n < 10 then Char.ofNat ('0'.toNat + n) else Char.ofNat ('a'.toNat + (n - 10))

/-- A character inside quotation marks. Only marks, backslashes and control characters are
escaped. -/
def escape (c : Char) : List Char :=
  match c with
  | '\x22' => ['\\', '\x22']
  | '\\' => ['\\', '\\']
  | '\x08' => ['\\', 'b']
  | '\x0c' => ['\\', 'f']
  | '\n' => ['\\', 'n']
  | '\r' => ['\\', 'r']
  | '\t' => ['\\', 't']
  | c =>
    if c.toNat < 32 then ['\\', 'u', '0', '0', hexChar (c.toNat / 16), hexChar (c.toNat % 16)]
    else [c]

def quote (s : String) : List Char :=
  '\x22' :: s.toList.flatMap escape ++ ['\x22']

def writeInteger (n : Int) : List Char :=
  if n < 0 then '-' :: Decimal.digitChars n.natAbs else Decimal.digitChars n.natAbs

def joined (sep : List Char) : List (List Char) → List Char
  | [] => []
  | [p] => p
  | p :: q :: ps => p ++ sep ++ joined sep (q :: ps)

mutual

def compact : Document → List Char
  | null => "null".toList
  | boolean true => "true".toList
  | boolean false => "false".toList
  | integer n => writeInteger n
  | real x => Decimal.writeFloat x
  | text s => quote s
  | list items => '[' :: joined [','] (compactItems items) ++ [']']
  | record fields => '\x7b' :: joined [','] (compactFields fields) ++ ['\x7d']

def compactItems : List Document → List (List Char)
  | [] => []
  | d :: ds => compact d :: compactItems ds

def compactFields : List (String × Document) → List (List Char)
  | [] => []
  | (name, d) :: fields => (quote name ++ ':' :: compact d) :: compactFields fields

end

def newLine (depth : Nat) : List Char :=
  '\n' :: List.replicate (2 * depth) ' '

/-- A bracketed list of pieces, one a line; the brackets close up when there is none. -/
def block (opening closing : Char) (depth : Nat) (pieces : List (List Char)) : List Char :=
  if pieces.isEmpty then [opening, closing]
  else
    opening :: newLine (depth + 1) ++ joined (',' :: newLine (depth + 1)) pieces ++
      newLine depth ++ [closing]

mutual

/-- A document with one item a line, when its first line stands `depth` levels deep. -/
def indentedAt (depth : Nat) : Document → List Char
  | null => "null".toList
  | boolean true => "true".toList
  | boolean false => "false".toList
  | integer n => writeInteger n
  | real x => Decimal.writeFloat x
  | text s => quote s
  | list items => block '[' ']' depth (indentedItems (depth + 1) items)
  | record fields => block '\x7b' '\x7d' depth (indentedFields (depth + 1) fields)

def indentedItems (depth : Nat) : List Document → List (List Char)
  | [] => []
  | d :: ds => indentedAt depth d :: indentedItems depth ds

def indentedFields (depth : Nat) : List (String × Document) → List (List Char)
  | [] => []
  | (name, d) :: fields =>
    (quote name ++ ": ".toList ++ indentedAt depth d) :: indentedFields depth fields

end

def render (d : Document) : String :=
  String.ofList d.compact

def renderIndented (d : Document) : String :=
  String.ofList (d.indentedAt 0)

end CodeAtlas.Document
