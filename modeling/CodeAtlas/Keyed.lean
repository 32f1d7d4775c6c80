/-!
Lists whose elements are told apart by a key.
-/

namespace CodeAtlas

/-- A list without repetitions: of elements with one key the first is kept, and none whose key is
among `seen`. -/
def distinctBy {α κ : Type} [BEq κ] (key : α → κ) (seen : List κ) : List α → List α
  | [] => []
  | x :: rest =>
    if seen.contains (key x) then distinctBy key seen rest
    else x :: distinctBy key (key x :: seen) rest

def idAt {α : Type} (id : α → String) (xs : List α) (i : Nat) : String := (xs[i]?.map id).getD ""

end CodeAtlas
