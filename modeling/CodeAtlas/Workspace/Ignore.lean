import CodeAtlas.Glob.Reader
import CodeAtlas.Text.Blank
import CodeAtlas.Workspace.Basic

/-!
Ignore files: lists of globs for what is to be passed over in their folder and below. The last line
that matches decides, and a line with an exclamation mark takes back. A file in a nearer folder
counts before one further up. Next to the plain ignore files there are those of version control;
they count only from where a repository begins.
-/

namespace CodeAtlas.Workspace

structure IgnoreRule where
  glob : Glob
  /-- Whether what matches is wanted after all. -/
  negated : Bool
  foldersOnly : Bool

namespace IgnoreRule

/-- A line without its leading escape, exclamation mark and slash: what it negates, whether it
stands for a place right in the folder, and the rest. -/
def opening (line : List Char) : Bool × Bool × List Char :=
  match line with
  | '\\' :: '!' :: rest => (false, false, '!' :: rest)
  | '\\' :: '#' :: rest => (false, false, '#' :: rest)
  | '!' :: '/' :: rest => (true, true, rest)
  | '!' :: rest => (true, false, rest)
  | '/' :: rest => (false, true, rest)
  | rest => (false, false, rest)

/-- A line without its final slash, which may be escaped, and whether it had one. -/
def ending (line : List Char) : Bool × List Char :=
  match line.reverse with
  | '/' :: '\\' :: rest => (true, rest.reverse)
  | '/' :: rest => (true, rest.reverse)
  | _ => (false, line)

/-- The glob of a line without a slash matches in every folder below; one that ends in two stars
takes everything below a place, but not the place. -/
def globText (anchored : Bool) (line : List Char) : List Char :=
  let line := if anchored || line.contains '/' || line == "**".toList then line
    else "**/".toList ++ line
  if (Text.dropEndWord? "/**".toList line).isSome then line ++ "/*".toList else line

/-- The rule of a line, unless it is empty, a comment or no glob. -/
def ofLine? (line : List Char) : Option IgnoreRule :=
  let keepsBlank := (Text.dropEndWord? "\\ ".toList line).isSome
  let line := if keepsBlank then line else Text.dropEndWhile Text.isBlank line
  if line.isEmpty || line.head? == some '#' then none
  else
    let (negated, anchored, line) := opening line
    let (foldersOnly, line) := ending line
    (Glob.ofText? (String.ofList (globText anchored line))).map fun glob =>
      { glob, negated, foldersOnly }

/-- What a rule says of a path in its folder: to ignore it, not to ignore it, or nothing. -/
def verdict? (isFolder : Bool) (path : String) (r : IgnoreRule) : Option Bool :=
  if (!r.foldersOnly || isFolder) && r.glob.covers false path then some !r.negated else none

end IgnoreRule

/-- The lines of bytes as text; reading stops at a line that is no text. -/
def textLines (bytes : List UInt8) : List (List Char) :=
  let lines := (bytes.splitOn 10).map fun line =>
    String.fromUTF8? (ByteArray.mk (if line.getLast? == some 13 then line.dropLast
      else line).toArray)
  (lines.takeWhile Option.isSome).filterMap fun line => line.map String.toList

/-- The rules of an ignore file, the last first. -/
def rulesOf (bytes : List UInt8) : List IgnoreRule :=
  let lines :=
    match textLines bytes with
    | [] => []
    | line :: lines => line.dropWhile (· == '\ufeff') :: lines
  (lines.filterMap IgnoreRule.ofLine?).reverse

def rulesAt (w : Workspace) (place : Place) : List IgnoreRule :=
  match w.get? place with
  | some (.file f) => rulesOf f.bytes
  | _ => []

def verdictIn? (w : Workspace) (folder : Place) (file : Place) (place : Place) (isFolder : Bool) :
    Option Bool :=
  let path := Place.toText (place.drop folder.length)
  (w.rulesAt (folder ++ file)).findSome? (IgnoreRule.verdict? isFolder path)

def beginsRepository (w : Workspace) (folder : Place) : Bool :=
  (w.get? (folder ++ [".git"])).isSome

/-- The folders above a place up to where its repository begins; none outside of repositories. -/
def repositoryFolders (w : Workspace) (place : Place) : List Place :=
  match place.above.dropWhile fun folder => !w.beginsRepository folder with
  | [] => []
  | first :: _ => (place.above.takeWhile fun folder => !w.beginsRepository folder) ++ [first]

def isIgnored (w : Workspace) (place : Place) (isFolder : Bool) : Bool :=
  let inRepository := w.repositoryFolders place
  let plain := place.above.findSome? fun folder => w.verdictIn? folder [".ignore"] place isFolder
  let tracked := inRepository.findSome? fun folder =>
    w.verdictIn? folder [".gitignore"] place isFolder
  let local? := inRepository.getLast?.bind fun folder =>
    w.verdictIn? folder [".git", "info", "exclude"] place isFolder
  ((plain.or tracked).or local?).getD false

/-- Whether neither a place nor a folder on the way to it from another place is ignored. -/
def isVisited (w : Workspace) (root place : Place) : Bool :=
  !w.isIgnored place false &&
    place.above.all fun folder => folder.length ≤ root.length || !w.isIgnored folder true

end CodeAtlas.Workspace
