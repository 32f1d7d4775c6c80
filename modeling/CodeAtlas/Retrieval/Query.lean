import CodeAtlas.Chunk.Basic
import CodeAtlas.Text.Term

/-!
How well a chunk answers the words of a query.
-/

namespace CodeAtlas.Retrieval

def queryTerms (query : String) : List String :=
  (Text.terms query).eraseDups

/-- The text in which the terms of a query are looked for: names and content in lower case. -/
def searchText (c : Chunk) : List Char :=
  let name := c.name.getD ""
  let qualifiedName := c.qualifiedName.getD ""
  Text.toLower s!"{name} {qualifiedName} {c.content}".toList

def hits (terms : List String) (c : Chunk) : Nat :=
  let text := searchText c
  terms.countP fun t => Text.hasPart t.toList text

/-- The share of terms that stand in a chunk; zero without terms. -/
def relevance (terms : List String) (c : Chunk) : Float :=
  if terms.isEmpty then 0.0 else Float.ofNat (hits terms c) / Float.ofNat terms.length

end CodeAtlas.Retrieval
