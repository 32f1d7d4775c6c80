/-!
Chains of parents. The parents of the members of a list are given as positions in it. A chain that
does not come back to its start is shorter than the list, so that many steps up reach its end.
-/

namespace CodeAtlas.Lineage

/-- At most `steps` positions above one: its parent, the parent of that, and so on. The walk up that
this bounds has no bound of its own: where parents form a cycle it never returns, while this has an
answer. -/
def chain (parents : List (Option Nat)) : (steps : Nat) → Nat → List Nat
  | 0, _ => []
  | steps + 1, i =>
    match parents[i]? with
    | some (some p) => p :: chain parents steps p
    | _ => []

def ancestors (parents : List (Option Nat)) (i : Nat) : List Nat :=
  chain parents parents.length i

def isAncestor (parents : List (Option Nat)) (a i : Nat) : Bool :=
  (ancestors parents i).contains a

end CodeAtlas.Lineage
