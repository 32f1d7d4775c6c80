/-!
Simple paths: walks along the steps of a graph that meet no node twice. They are listed depth first,
and the listing stops when there are enough.
-/

namespace CodeAtlas.Retrieval.SimplePath

/-- The first `limit` results of a search in each of several places; each search is told how many
results are still wanted. -/
def gather {α β : Type} (search : Nat → α → List β) : Nat → List α → List β
  | 0, _ => []
  | _, [] => []
  | limit + 1, a :: as =>
    let found := search (limit + 1) a
    found ++ gather search (limit + 1 - found.length) as

/--
The first `limit` simple paths to `goal` that go on from `path`, which is in reverse order, through
at most `inner` more nodes. The steps out of a node are tried in the order in which `steps` lists
them.
-/
def onwards (steps : Nat → List Nat) (goal : Nat) :
    (inner limit : Nat) → (path : List Nat) → (v : Nat) → List (List Nat)
  | 0, limit, path, v =>
    if (steps v).contains goal then [(goal :: path).reverse].take limit else []
  | inner + 1, limit, path, v =>
    gather
      (fun limit w =>
        if w == goal then [(goal :: path).reverse]
        else if path.contains w then []
        else onwards steps goal inner limit (w :: path) w)
      limit (steps v)

/-- The first `limit` simple paths from one node to another with at most `inner` nodes between
them. -/
def between (steps : Nat → List Nat) (inner limit start goal : Nat) : List (List Nat) :=
  onwards steps goal inner limit [start] start

end CodeAtlas.Retrieval.SimplePath
