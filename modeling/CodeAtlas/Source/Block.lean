import CodeAtlas.Source.Language
import CodeAtlas.Source.Text

/-!
The nesting of declarations. The nodes of a file that matter are collected from its tree; what lies
inside a member is left alone. A container or member belongs to the narrowest container that is
wider than it and encloses its bytes, and so the declarations form blocks within blocks.
-/

namespace CodeAtlas.Source

/-- The nodes of a file that matter, each kind in order of their first bytes. -/
structure Parts where
  contexts : List Tree := []
  primaries : List Tree := []
  secondaries : List Tree := []

namespace Parts

def append (p q : Parts) : Parts :=
  ⟨p.contexts ++ q.contexts, p.primaries ++ q.primaries, p.secondaries ++ q.secondaries⟩

mutual

def ofTree (l : Language) : Tree → Parts
  | .node info children =>
    if !info.named then {}
    else if l.isContext info.kind then { contexts := [.node info children] }
    else if l.isSecondary info.kind then { secondaries := [.node info children] }
    else if l.isPrimary info.kind then
      append { primaries := [.node info children] } (ofTrees l children)
    else ofTrees l children

def ofTrees (l : Language) : List Tree → Parts
  | [] => {}
  | t :: ts => append (ofTree l t) (ofTrees l ts)

end

/-- Trees in order of their first bytes; those with the same one stay in their order. -/
def sorted (ts : List Tree) : List Tree :=
  ts.mergeSort fun a b => a.first ≤ b.first

def ofRoot (l : Language) (root : Tree) : Parts :=
  let p := ofTrees l root.children
  ⟨sorted p.contexts, sorted p.primaries, sorted p.secondaries⟩

end Parts

/-- Whether a container that spans `outer` is wider than a span and encloses it. -/
def encloses (outer : Tree) (first last : Nat) : Bool :=
  outer.first ≤ first && last ≤ outer.last && last - first < outer.width

/-- Of two positions with widths the one with the lesser width, the former if they are equal. -/
def narrower (a b : Nat × Tree) : Nat × Tree :=
  if b.2.width < a.2.width then b else a

def narrowest? : List (Nat × Tree) → Option (Nat × Tree)
  | [] => none
  | a :: rest => some (rest.foldl narrower a)

/-- The position of the narrowest container that encloses a span, the one at `self` left out. -/
def owner? (primaries : List Tree) (self : Option Nat) (first last : Nat) : Option Nat :=
  (narrowest? ((primaries.zipIdx.filter fun (p, i) =>
    some i != self && encloses p first last).map fun (p, i) => (i, p))).map Prod.fst

/-- A declaration among the parts of a file: the container or the member at a position. -/
inductive Item where
  | container (i : Nat)
  | member (k : Nat)
  deriving DecidableEq, Repr

namespace Parts

def primary (p : Parts) (i : Nat) : Tree := p.primaries[i]?.getD default

def secondary (p : Parts) (k : Nat) : Tree := p.secondaries[k]?.getD default

def containerOwner? (p : Parts) (i : Nat) : Option Nat :=
  owner? p.primaries (some i) (p.primary i).first (p.primary i).last

def memberOwner? (p : Parts) (k : Nat) : Option Nat :=
  owner? p.primaries none (p.secondary k).first (p.secondary k).last

def node (p : Parts) : Item → Tree
  | .container i => p.primary i
  | .member k => p.secondary k

/-- The items that belong to a container, or to none, in order of their first bytes. -/
def itemsOf (p : Parts) (owner : Option Nat) : List Item :=
  let containers := (List.range p.primaries.length).filter fun i => p.containerOwner? i == owner
  let members := (List.range p.secondaries.length).filter fun k => p.memberOwner? k == owner
  (containers.map Item.container ++ members.map Item.member).mergeSort fun a b =>
    (p.node a).first ≤ (p.node b).first

/-- The room that the items of an item have to fit in. -/
def room (p : Parts) : Item → Nat
  | .container i => (p.primary i).width + 1
  | .member _ => 0

theorem foldl_narrower_mem (a : Nat × Tree) (rest : List (Nat × Tree)) :
    rest.foldl narrower a ∈ a :: rest := by
  induction rest generalizing a with
  | nil => simp
  | cons b rest ih =>
    have h := ih (narrower a b)
    simp only [List.foldl_cons, List.mem_cons] at h ⊢
    rcases h with h | h
    · rw [h, narrower]
      split
      · exact .inr (.inl rfl)
      · exact .inl rfl
    · exact .inr (.inr h)

theorem narrowest?_mem {xs : List (Nat × Tree)} {a : Nat × Tree} (h : narrowest? xs = some a) :
    a ∈ xs := by
  cases xs with
  | nil => simp [narrowest?] at h
  | cons b rest =>
    simp only [narrowest?, Option.some.injEq] at h
    exact h ▸ foldl_narrower_mem b rest

theorem encloses_of_owner? {primaries : List Tree} {self : Option Nat} {first last i : Nat}
    (h : owner? primaries self first last = some i) :
    encloses (primaries[i]?.getD default) first last = true := by
  simp only [owner?, Option.map_eq_some_iff] at h
  obtain ⟨⟨j, t⟩, hn, rfl⟩ := h
  have hm := narrowest?_mem hn
  simp only [List.mem_map, List.mem_filter, Prod.mk.injEq, Bool.and_eq_true] at hm
  obtain ⟨⟨u, k⟩, ⟨hz, -, he⟩, rfl, rfl⟩ := hm
  have := List.mem_zipIdx' hz
  simp_all

theorem room_lt_of_mem_itemsOf {p : Parts} {i : Nat} {item : Item}
    (h : item ∈ p.itemsOf (some i)) : p.room item < p.room (.container i) := by
  simp only [itemsOf, List.mem_mergeSort, List.mem_append, List.mem_map, List.mem_filter,
    beq_iff_eq] at h
  rcases h with ⟨j, ⟨-, hj⟩, rfl⟩ | ⟨k, -, rfl⟩
  · have := encloses_of_owner? hj
    simp only [encloses, Bool.and_eq_true, decide_eq_true_eq] at this
    simp only [room, primary, Tree.width] at this ⊢
    omega
  · simp [room]

end Parts

/-- A declaration with the declarations that belong to it; a container keeps its position. -/
inductive Block where
  | container (i : Nat) (node : Tree) (children : List Block)
  | member (node : Tree)

namespace Block

def node : Block → Tree
  | container _ node _ => node
  | member node => node

def ofItem (p : Parts) : Item → Block
  | .member k => member (p.secondary k)
  | .container i =>
    container i (p.primary i) ((p.itemsOf (some i)).attach.map fun item => ofItem p item.1)
termination_by item => p.room item
decreasing_by exact Parts.room_lt_of_mem_itemsOf item.2

/-- The blocks of a file that belong to no container. -/
def roots (p : Parts) : List Block :=
  (p.itemsOf none).map (ofItem p)

end Block

end CodeAtlas.Source
