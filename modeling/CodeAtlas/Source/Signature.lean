import CodeAtlas.Chunk.Name
import CodeAtlas.Source.Language
import CodeAtlas.Source.Text

/-!
What the head of a declaration says: its name, its signature on one line, its parameters and return
type, and whether it is an interface.
-/

namespace CodeAtlas.Source

open Text

def fieldName? (l : Language) (bytes : List UInt8) (t : Tree) : Option String :=
  (l.nameFields.findSome? t.inField?).map fun n => Name.simple (n.text bytes)

/-- The name of a declaration, or else the first that one of its named children has. -/
def declarationName? (l : Language) (bytes : List UInt8) (t : Tree) : Option String :=
  match fieldName? l bytes t with
  | some name => some name
  | none => (t.namedChildren.findSome? (fieldName? l bytes)).filter fun n => !n.isEmpty

/-- Whether a node has a kind that marks interfaces, or marks its container as one from up to two
levels below. -/
def isInterfaceLike (l : Language) (t : Tree) : Bool :=
  let marks (n : Tree) : Bool := l.interfaceKinds.contains n.kind && !l.isPrimary n.kind
  l.interfaceKinds.contains t.kind ||
    t.namedChildren.any fun c => marks c || c.namedChildren.any marks

def bracedSignature (s : List Char) : List Char :=
  match cutAt? ['\x7b'] s with
  | some (head, _) => collapse head
  | none => collapse (dropEndWhile (· == ';') (firstLine s))

def colonSignature (s : List Char) : List Char :=
  let line := trim (firstLine s)
  match dropEndWord? [':'] line with
  | some head => head
  | none =>
    match cutAt? "):".toList s with
    | some (head, _) => collapse (head ++ [')'])
    | none => line

/-- The head of a declaration on one line. -/
def signature (l : Language) (content : String) : String :=
  let s := trim content.toList
  String.ofList (if l.name == "python" then colonSignature s else bracedSignature s)

/-- The parameters of a member, without comments. -/
def parametersOf (bytes : List UInt8) (t : Tree) : List String :=
  match t.inField? "parameters" with
  | none => []
  | some ps =>
    (ps.namedChildren.filter fun p => p.kind != "comment").map fun p => collapsed (p.text bytes)

def returnType? (l : Language) (bytes : List UInt8) (t : Tree) : Option String :=
  ((l.returnTypeFields.findSome? t.inField?).map fun r =>
    String.ofList (collapse ((r.text bytes).toList.dropWhile (· == ':')))).filter
      fun s => !s.isEmpty

end CodeAtlas.Source
