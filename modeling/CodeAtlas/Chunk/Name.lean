import CodeAtlas.Chunk.Basic

/-!
Names of chunks: the dotted module path of a file, the last part of a written type name, and names
qualified by those of the parents.
-/

namespace CodeAtlas.Name

open Text

/-- The directories at the start of a path that are no part of the module path. -/
def sourceRoots : List (List Char) :=
  ["src".toList, "lib".toList]

/-- The file names that stand for the directory they are in. -/
def directoryFiles : List (List Char) :=
  ["mod".toList, "__init__".toList, "index".toList]

/-- The parts of a path between slashes, without empty ones and single points. -/
def pathParts (path : List Char) : List (List Char) :=
  (splitOn '/' path).filter fun p => !p.isEmpty && p != ['.']

/-- A file name without what follows its last point. -/
def stem (name : List Char) : List Char :=
  ((cutAtLast? '.' name).map Prod.fst).getD name

/--
The dotted module path of a file: `src/util/logger.ts` has `util.logger`. A source root at the start
and a directory file at the end are left out, and the root files of a project have no module path.
-/
def modulePath? (path : String) : Option String :=
  match (pathParts path.toList).reverse with
  | [] => none
  | last :: before =>
    let parts := before.reverse ++ [stem last]
    let parts :=
      if 1 < parts.length && sourceRoots.contains (parts.headD []) then parts.drop 1 else parts
    let parts := if directoryFiles.contains (parts.getLastD []) then parts.dropLast else parts
    if parts.isEmpty || parts == ["lib".toList] || parts == ["main".toList] then none
    else some (String.ofList (List.intercalate ['.'] parts))

/-- What follows the last point of a text, or all of it. -/
def afterLastPoint (s : List Char) : List Char :=
  ((cutAtLast? '.' s).map Prod.snd).getD s

def afterLastColons (s : List Char) : List Char :=
  ((cutAt? "::".toList s.reverse).map fun p => p.1.reverse).getD s

/-- A type name without type arguments and without what stands before its last part:
`crate::a::Foo<T>` has `Foo`. -/
def simple (name : String) : String :=
  let whole := trim (name.toList.takeWhile (· != '<'))
  String.ofList (trim (afterLastPoint (afterLastColons whole)))

/-- A name behind that of its parent, with a point between; a parent without a name adds nothing. -/
def qualify (parent : Option String) (name : String) : String :=
  match parent with
  | some p => if p.isEmpty then name else s!"{p}.{name}"
  | none => name

end CodeAtlas.Name
