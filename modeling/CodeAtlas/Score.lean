/-!
The order of doubles, and sorting by scores.
-/

namespace CodeAtlas

/-- A whole number for a double such that the doubles are in order as these numbers are. The
negative zero is below zero, and what is no number is below all numbers. -/
def orderKey (x : Float) : Int :=
  let bits := x.toBits.toNat
  if x.isNaN then -(UInt64.size : Int)
  else if bits < UInt64.size / 2 then bits
  else -((bits - UInt64.size / 2 : Nat) : Int) - 1

/-- Sorts by a score, highest first; what has equal scores keeps its order. -/
def sortByScore {α : Type} (score : α → Float) (xs : List α) : List α :=
  xs.mergeSort fun a b => orderKey (score b) ≤ orderKey (score a)

end CodeAtlas
