import CodeAtlas.Source.Tree
import CodeAtlas.Text.Blank
import CodeAtlas.Text.Utf8

/-!
The bytes of a source file: the text of a span, the line of a byte, and spans without the ASCII
blanks at their ends.
-/

namespace CodeAtlas.Source

def slice (bytes : List UInt8) (first last : Nat) : List UInt8 :=
  (bytes.drop first).take (last - first)

def textOf (bytes : List UInt8) (first last : Nat) : String :=
  Text.Utf8.decode (slice bytes first last)

def Tree.text (t : Tree) (bytes : List UInt8) : String :=
  textOf bytes t.first t.last

/-- The bytes that lines start at: the first of all, and those behind the line feeds. -/
def lineStarts (bytes : List UInt8) : List Nat :=
  0 :: (bytes.zipIdx.filter fun (b, _) => b == 10).map fun (_, i) => i + 1

/-- The line of a byte, counted from one: the lines that start up to it, and no less than one. -/
def lineOf (bytes : List UInt8) (offset : Nat) : Nat :=
  max 1 ((lineStarts bytes).takeWhile (· ≤ offset)).length

/-- The line of the last byte of a span, or of its start if it is empty. -/
def lastLineOf (bytes : List UInt8) (first last : Nat) : Nat :=
  lineOf bytes (max first (last - 1))

/-- Space, tab, line feed, form feed and carriage return. -/
def isAsciiBlank (b : UInt8) : Bool :=
  b == 32 || b == 9 || b == 10 || b == 12 || b == 13

/-- The span without the blanks at its ends, if anything is left of it. -/
def trimSpan? (bytes : List UInt8) (first last : Nat) : Option (Nat × Nat) :=
  let inside := slice bytes first last
  let leading := (inside.takeWhile isAsciiBlank).length
  let trailing := (inside.reverse.takeWhile isAsciiBlank).length
  if leading < inside.length then some (first + leading, first + inside.length - trailing) else none

def collapsed (s : String) : String :=
  String.ofList (Text.collapse s.toList)

end CodeAtlas.Source
