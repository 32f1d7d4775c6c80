import CodeAtlas.ImportPath
import CodeAtlas.Source.Block

/-!
The packages and imports that the context nodes of a file declare.
-/

namespace CodeAtlas.Source

structure Context where
  node : Tree
  package : Option String
  imports : List String

namespace Context

def package? (l : Language) (bytes : List UInt8) (t : Tree) : Option String :=
  ((l.packages.flatMap fun p => (p.matchesIn t).flatten).find? fun c => c.role == .package).map
    fun c => String.ofList (Text.trim (c.node.text bytes).toList)

def captured? (captures : List Capture) (role : Role) : Option Tree :=
  (captures.find? fun c => c.role == role).map Capture.node

/-- The import a match stands for, as it is written, with the byte it is ordered by: a name from a
module, everything from a module, or an import by itself. -/
def written? (bytes : List UInt8) (t : Tree) (captures : List Capture) : Option (Nat × String) :=
  match captured? captures .module, captured? captures .imported, captured? captures .wildcard with
  | some m, _, some _ => some (t.first, s!"{m.text bytes}.*")
  | some m, some n, none => some (n.first, s!"{m.text bytes}.{n.text bytes}")
  | none, some n, _ => some (n.first, n.text bytes)
  | _, _, _ => none

/-- The distinct imports in dotted form, in order of the bytes they start at. -/
def importsOf (l : Language) (bytes : List UInt8) (t : Tree) : List String :=
  let found := (l.imports.flatMap fun p => p.matchesIn t).filterMap (written? bytes t)
  let normalized :=
    found.flatMap fun (first, raw) => (ImportPath.normalize raw).map fun s => (first, s)
  ((normalized.mergeSort fun a b => a.1 ≤ b.1).map Prod.snd).eraseDups

def ofNode (l : Language) (bytes : List UInt8) (t : Tree) : Context :=
  ⟨t, package? l bytes t, importsOf l bytes t⟩

end Context

end CodeAtlas.Source
