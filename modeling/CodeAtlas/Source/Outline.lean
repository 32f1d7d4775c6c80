import CodeAtlas.Document.Fields
import CodeAtlas.Source.Tree

/-!
Syntax trees as documents: the outline of a tree lists its nodes in pre-order, each with its depth,
kind and bytes, and with its field if it stands in one. An unnamed node is marked after its field.
-/

namespace CodeAtlas.Source

open Document

namespace NodeInfo

def ofDocument? : Document → Option (Nat × NodeInfo)
  | list (depth :: kind :: first :: last :: rest) => do
    return (← size? depth,
      { kind := ← text? kind, first := ← size? first, last := ← size? last
        field := rest.head?.bind text?, named := rest.length < 2 })
  | _ => none

def toDocument (depth : Nat) (n : NodeInfo) : Document :=
  let rest :=
    if !n.named then [ofText? n.field, ofNat 0]
    else if n.field.isSome then [ofText? n.field]
    else []
  list ([ofNat depth, text n.kind, ofNat n.first, ofNat n.last] ++ rest)

end NodeInfo

namespace Tree

mutual

def outline (depth : Nat) : Tree → List (Nat × NodeInfo)
  | node info children => (depth, info) :: outlineAll (depth + 1) children

def outlineAll (depth : Nat) : List Tree → List (Nat × NodeInfo)
  | [] => []
  | t :: ts => outline depth t ++ outlineAll depth ts

end

def ofDocument? (d : Document) : Option Tree :=
  (listOf? NodeInfo.ofDocument? d).bind ofOutline?

def toDocument (t : Tree) : Document :=
  list ((t.outline 0).map fun (depth, info) => info.toDocument depth)

end Tree

end CodeAtlas.Source
