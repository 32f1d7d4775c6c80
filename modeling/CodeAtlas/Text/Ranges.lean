/-!
Tables of character codes. A table lists disjoint ranges, both ends included.
-/

namespace CodeAtlas.Text

def inRanges (ranges : List (Nat × Nat)) (code : Nat) : Bool :=
  ranges.any fun r => r.1 ≤ code && code ≤ r.2

end CodeAtlas.Text
