/-!
Depth-first traversal of a directed graph. The graph is given by the successors of each node, in
order. The traversal is the list of its events; what is computed from it, such as cycles and depths,
is read off the events.
-/

namespace CodeAtlas.Traversal

inductive Event where
  /-- A node is met for the first time. -/
  | enter (v : Nat)
  /-- From the last node of a path a step leads back to the first. -/
  | close (cycle : List Nat)
  /-- A step leads to a node that was left before. -/
  | again (v w : Nat)
  /-- All successors of a node were looked at; `above` is the node it was entered from. -/
  | leave (v : Nat) (above : Option Nat)
  deriving DecidableEq, Repr

/-- The nodes being visited, the last entered first, each with the successors not yet looked at. -/
abbrev Stack := List (Nat × List Nat)

def Stack.size (stack : Stack) : Nat :=
  stack.foldr (fun f n => f.2.length + 1 + n) 0

/-- The nodes being visited, in the order they were entered. -/
def Stack.path (stack : Stack) : List Nat :=
  (stack.map Prod.fst).reverse

/--
The events of a traversal that goes on with a stack, where `fresh` lists the nodes not yet met. When
the stack is empty the first fresh node is entered.
-/
def run (successors : Nat → List Nat) (fresh : List Nat) (stack : Stack) : List Event :=
  match stack with
  | [] =>
    match fresh with
    | [] => []
    | v :: rest => .enter v :: run successors rest [(v, successors v)]
  | (v, []) :: below => .leave v (below.head?.map Prod.fst) :: run successors fresh below
  | (v, w :: ws) :: below =>
    if w ∈ fresh then
      .enter w :: run successors (fresh.erase w) ((w, successors w) :: (v, ws) :: below)
    else
      let path := Stack.path ((v, ws) :: below)
      if w ∈ path then
        .close (path.dropWhile (· != w)) :: run successors fresh ((v, ws) :: below)
      else .again v w :: run successors fresh ((v, ws) :: below)
termination_by (fresh.length, stack.size)
decreasing_by
  · exact Prod.Lex.left _ _ (by simp)
  · exact Prod.Lex.right _ (by simp [Stack.size])
  · rename_i h
    refine Prod.Lex.left _ _ ?_
    have := List.length_pos_of_mem h
    rw [List.length_erase_of_mem h]
    omega
  · exact Prod.Lex.right _ (by simp [Stack.size])
  · exact Prod.Lex.right _ (by simp [Stack.size])

def events (successors : List (List Nat)) : List Event :=
  run (fun v => successors[v]?.getD []) (List.range successors.length) []

end CodeAtlas.Traversal
