import CodeAtlas.Text.Alphanumeric
import CodeAtlas.Text.Blank
import CodeAtlas.Text.LowerCase
import CodeAtlas.Text.Pieces

/-!
Terms of a text: the maximal runs of alphanumeric characters and underscores, in lower case. Unlike
identifiers they may come from any script and may begin with a digit.
-/

namespace CodeAtlas.Text

def isTermChar (c : Char) : Bool :=
  isAlphanumeric c || c == '_'

/-- The terms of a text, one entry for every place they stand at. -/
def terms (text : String) : List String :=
  (runs isTermChar text.toList).map fun t => String.ofList (toLower t)

/-- Whether a word stands anywhere in a text, inside of other words too. -/
def hasPart (word : List Char) : List Char → Bool
  | [] => word.isEmpty
  | c :: text => (dropWord? word (c :: text)).isSome || hasPart word text

end CodeAtlas.Text
