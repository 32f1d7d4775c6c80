/-!
PageRank of a weighted graph. Rank flows out of a node in proportion to the weights of its steps; a
node without steps spreads its rank over all nodes. The definitions leave open what the numbers are.
-/

namespace CodeAtlas.Retrieval

structure Flow (α : Type) where
  source : Nat
  target : Nat
  weight : α

namespace PageRank

section

variable {α : Type} [NatCast α] [Add α] [Sub α] [Mul α] [Div α] [LT α] [DecidableLT α] [BEq α]

def total (xs : List α) : α :=
  xs.foldl (· + ·) ((0 : Nat) : α)

def magnitude (x : α) : α :=
  if x < ((0 : Nat) : α) then ((0 : Nat) : α) - x else x

/-- The weight of all steps out of a node; the last one is counted first. -/
def outWeight (flows : List (Flow α)) (v : Nat) : α :=
  total ((flows.filter fun f => f.source == v).reverse.map Flow.weight)

def outWeights (nodes : Nat) (flows : List (Flow α)) : List α :=
  (List.range nodes).map (outWeight flows)

def rankAt (ranks : List α) (v : Nat) : α :=
  ranks[v]?.getD ((0 : Nat) : α)

/-- The ranks of the nodes without steps, together. -/
def dangling (out : List α) (ranks : List α) : α :=
  total (((out.zip ranks).filter fun p => p.1 == ((0 : Nat) : α)).map Prod.snd)

/-- What every node gets in one round, whatever steps lead to it. -/
def base (damping : α) (out ranks : List α) : α :=
  let uniform := ((1 : Nat) : α) / (ranks.length : α)
  (((1 : Nat) : α) - damping) * uniform + damping * dangling out ranks * uniform

/-- What a node gets in one round, with what flows along the steps to it. -/
def gained (damping : α) (flows : List (Flow α)) (out ranks : List α) (v : Nat) : α :=
  (flows.filter fun f => f.target == v).foldl
    (fun rank f => rank + damping * rankAt ranks f.source * f.weight / rankAt out f.source)
    (base damping out ranks)

def next (damping : α) (flows : List (Flow α)) (out ranks : List α) : List α :=
  (List.range ranks.length).map (gained damping flows out ranks)

def distance (xs ys : List α) : α :=
  total (List.zipWith (fun x y => magnitude (x - y)) xs ys)

/-- The ranks after a number of rounds, or sooner, once they change by less than the tolerance. -/
def settle (step : List α → List α) (tolerance : α) : Nat → List α → List α
  | 0, ranks => ranks
  | rounds + 1, ranks =>
    let after := step ranks
    if distance after ranks < tolerance then after else settle step tolerance rounds after

def uniform (nodes : Nat) : List α :=
  List.replicate nodes (((1 : Nat) : α) / (nodes : α))

def ranks (nodes : Nat) (flows : List (Flow α)) (damping : α) (rounds : Nat) (tolerance : α) :
    List α :=
  settle (next damping flows (outWeights nodes flows)) tolerance rounds (uniform nodes)

end

end PageRank

end CodeAtlas.Retrieval
