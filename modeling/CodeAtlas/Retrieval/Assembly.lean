import CodeAtlas.Chunk.Basic

/-!
Packing chunks into a text for a reader who can take in only so many tokens. Chunks are taken in
order; one that does not fit in what is left of the budget is passed over, and packing goes on
behind it.
-/

namespace CodeAtlas.Retrieval

/-- A rough count of tokens: four characters make one. -/
def estimateTokens (text : String) : Nat :=
  text.length / 4

/-- A chunk as it stands in the packed text, below a line that says where it comes from. -/
def sectionText (c : Chunk) : String :=
  s!"// {c.path}:{c.startLine}-{c.endLine} {c.displayName}\n{c.content}\n"

structure Packed where
  text : String := ""
  included : List String := []
  excluded : List String := []
  tokens : Nat := 0
  deriving DecidableEq, Repr, Inhabited

namespace Packed

/-- Packs one more chunk if it fits; between two sections stands an empty line. -/
def add (budget : Nat) (p : Packed) (c : Chunk) : Packed :=
  let text := sectionText c
  let tokens := estimateTokens text
  if budget < p.tokens + tokens then { p with excluded := p.excluded ++ [c.id] }
  else
    { p with
      text := if p.text.isEmpty then text else p.text ++ "\n" ++ text
      included := p.included ++ [c.id]
      tokens := p.tokens + tokens }

end Packed

/-- Packs chunks, best first, within a budget of tokens. -/
def pack (budget : Nat) (chunks : List Chunk) : Packed :=
  chunks.foldl (Packed.add budget) {}

end CodeAtlas.Retrieval
