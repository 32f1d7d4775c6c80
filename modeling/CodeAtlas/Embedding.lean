import CodeAtlas.Failure
import CodeAtlas.Text.Hash
import CodeAtlas.Text.Term

/-!
Embeddings of texts, and the embedder by feature hashing: every term of a text adds one to, or takes
one from, the place its hash points to, and the sums are scaled to length one. So texts with the
same terms have the same embedding, in whatever order the terms stand. No embedding is zero: a text
without terms marks the place of its own hash, and where all sums cancel the first place is marked.
-/

namespace CodeAtlas

/-- A vector that stands for a text. -/
abbrev Embedding := List Float32

/-- A way to embed texts; it may fail. -/
abbrev Embedder := String → Except Failure Embedding

namespace Embedder

def embedAll (embed : Embedder) (texts : List String) : Except Failure (List Embedding) :=
  texts.mapM embed

end Embedder

namespace Embedding

/-- The four bytes of a number, the lowest first. -/
def wordBytes (x : Float32) : List UInt8 :=
  let bits := x.toBits
  [bits.toUInt8, (bits >>> 8).toUInt8, (bits >>> 16).toUInt8, (bits >>> 24).toUInt8]

def toBytes (v : Embedding) : List UInt8 :=
  v.flatMap wordBytes

end Embedding

namespace FeatureHashing

/-- What a term adds: one, or one less, at a place. -/
structure Mark where
  place : Nat
  amount : Int
  deriving DecidableEq, Repr

/-- The mark of a word, by the remainder and the top bit of its hash. -/
def markOf (dimensions : Nat) (word : String) : Mark :=
  let hash := Text.Hash.ofText word
  ⟨hash.toNat % dimensions, if hash >>> 63 == 0 then 1 else -1⟩

/-- What marks add up to at so many places. -/
def tally (dimensions : Nat) (marks : List Mark) : List Int :=
  marks.foldl (fun sums m => sums.modify m.place (· + m.amount)) (List.replicate dimensions 0)

/-- The sums of a text at all places; without terms the place of its own hash is marked. -/
def weights (dimensions : Nat) (text : String) : List Int :=
  let terms := Text.terms text
  let sums := tally dimensions (terms.map (markOf dimensions))
  if terms.isEmpty then sums.set (markOf dimensions text).place 1 else sums

section Scaling

variable {α : Type} [Add α] [Mul α] [Div α] [LT α] [DecidableLT α] [OfNat α 0] [OfNat α 1]

def squares (v : List α) : α :=
  v.foldl (fun sum x => sum + x * x) 0

/-- Numbers scaled to length one; when all are zero the first is raised to one. -/
def scaledBy (sqrt : α → α) (v : List α) : List α :=
  if 0 < squares v then v.map (· * (1 / sqrt (squares v))) else v.set 0 1

/-- The embedding of a text in so many dimensions, in numbers of any kind that whole numbers can be
turned into and that have square roots. -/
def embedBy (ofInt : Int → α) (sqrt : α → α) (dimensions : Nat) (text : String) :
    Except Failure (List α) :=
  if dimensions == 0 then
    .error (.embedder "inference failed: embedder configured with zero dimensions")
  else .ok (scaledBy sqrt ((weights dimensions text).map ofInt))

end Scaling

def embedder (dimensions : Nat) : Embedder :=
  embedBy Float32.ofInt Float32.sqrt dimensions

end FeatureHashing

end CodeAtlas
