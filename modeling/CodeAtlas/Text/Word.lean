import CodeAtlas.Text.Blank

/-!
Identifier words of a text and the calls among them. A word is what remains of a maximal run of
ASCII letters, digits and underscores once the leading digits are dropped. A call is a word that is
not a control word and is followed by an opening parenthesis, blanks between them allowed.
-/

namespace CodeAtlas.Text

/-- The characters of identifiers: ASCII letters, digits and the underscore. -/
def isWordChar (c : Char) : Bool :=
  c.isAlphanum || c == '_'

/-- A word where it stands in a text; the text before it is kept in reverse order. -/
structure Occurrence where
  before : List Char
  word : List Char
  after : List Char

/-- The words of a text that continues `before`, in order. -/
def occurrencesAfter (before : List Char) : List Char → List Occurrence
  | [] => []
  | c :: rest =>
    if isWordChar c then
      let run := c :: rest.takeWhile isWordChar
      let after := rest.dropWhile isWordChar
      let word := run.dropWhile Char.isDigit
      let others := occurrencesAfter (run.reverse ++ before) after
      if word.isEmpty then others
      else ⟨(run.takeWhile Char.isDigit).reverse ++ before, word, after⟩ :: others
    else occurrencesAfter (c :: before) rest
termination_by cs => cs.length
decreasing_by
  · have := length_dropWhile_le isWordChar rest
    simp only [List.length_cons]
    omega
  · simp

/-- The words of a text, in order, each with its surroundings. -/
def occurrences (text : List Char) : List Occurrence :=
  occurrencesAfter [] text

/-- The identifiers of a text, one entry for every place they stand at. -/
def allIdentifiers (text : String) : List String :=
  (occurrences text.toList).map fun o => String.ofList o.word

/-- The distinct identifiers of a text, in order of first appearance. -/
def identifiers (text : String) : List String :=
  (allIdentifiers text).eraseDups

/-- Whether an identifier stands in a text as a whole word. -/
def mentions (text word : String) : Bool :=
  (allIdentifiers text).contains word

/-- Control words, which look like calls before a parenthesis but never are. -/
def controlWords : List String :=
  ["if", "while", "for", "match", "return", "switch", "catch", "elif", "and", "or", "not",
    "in", "fn", "def", "function", "func"]

/-- A call in a text: lines are counted from zero, columns in characters from one. -/
structure CallSite where
  name : String
  lineOffset : Nat
  column : Nat
  /-- The line of the name without the blanks at its ends. -/
  snippet : String
  deriving DecidableEq, Repr

namespace Occurrence

/-- Whether an opening parenthesis follows the word, after any number of blanks. -/
def opensCall (o : Occurrence) : Bool :=
  (trimStart o.after).head? == some '('

/-- What stands on the line of the word before it, in reverse order. -/
def lineBefore (o : Occurrence) : List Char :=
  o.before.takeWhile (· != '\n')

def line (o : Occurrence) : List Char :=
  o.lineBefore.reverse ++ o.word ++ o.after.takeWhile (· != '\n')

def toCallSite (o : Occurrence) : CallSite where
  name := String.ofList o.word
  lineOffset := o.before.count '\n'
  column := o.lineBefore.length + 1
  snippet := String.ofList (trim o.line)

end Occurrence

def callSites (text : String) : List CallSite :=
  ((occurrences text.toList).filter fun o =>
    o.opensCall && !controlWords.contains (String.ofList o.word)).map Occurrence.toCallSite

end CodeAtlas.Text
