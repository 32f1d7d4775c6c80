import CodeAtlas.Embedding

/-!
The cosine distance of embeddings: zero for the same direction, one at right angles, two for
opposite directions. Sums are kept in single precision, the quotient is taken in double precision
and rounded.
-/

namespace CodeAtlas.Embedding

/-- The sum of the products of two embeddings, place by place. -/
def dot (a b : Embedding) : Float32 :=
  (a.zip b).foldl (fun sum p => sum + p.1 * p.2) 0

/-- The cosine distance, unless it is no number, as it is for the zero vector. -/
def distance? (a b : Embedding) : Option Float :=
  let norms := (a.dot a).toFloat.sqrt * (b.dot b).toFloat.sqrt
  let d := (1 - (a.dot b).toFloat / norms).toFloat32.toFloat
  if d.isNaN then none else some d

/-- The similarity at a distance: one for the same direction, zero for opposite ones. -/
def similarityAt (distance : Float) : Float :=
  1 - distance / 2

end CodeAtlas.Embedding
