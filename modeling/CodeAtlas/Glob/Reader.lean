import CodeAtlas.Glob.Basic

/-!
Reading globs. A glob is unreadable when a bracket or brace is not closed, a brace closes nothing, a
range of characters is upside down, or nothing follows a backslash.
-/

namespace CodeAtlas.Glob

/-- The byte ranges of a range of characters. Where a character takes several bytes each of them
counts, and the last byte of the first character begins the range that the first byte of the last
one ends. -/
def byteRanges (a b : Char) : List (UInt8 × UInt8) :=
  let single (x : UInt8) : UInt8 × UInt8 := (x, x)
  let first := String.utf8EncodeChar a
  if a == b then first.map single
  else
    match first.getLast?, String.utf8EncodeChar b with
    | some low, high :: rest => first.dropLast.map single ++ (low, high) :: rest.map single
    | _, _ => []

/-- What follows the opening bracket of a class, up to the bracket that closes it: the ranges, last
first, and what is left. A bracket or dash in front, and a dash at the end, stand for themselves. -/
def readClass (isFirst inRange : Bool) (ranges : List (Char × Char)) :
    List Char → Option (List (Char × Char) × List Char)
  | [] => none
  | c :: rest =>
    if c == ']' && !isFirst then some (if inRange then ('-', '-') :: ranges else ranges, rest)
    else if c == '-' && !isFirst && !inRange then readClass false true ranges rest
    else
      match inRange, ranges with
      | true, (a, _) :: others =>
        if c < a then none else readClass false false ((a, c) :: others) rest
      | _, _ => readClass false false ((c, c) :: ranges) rest

theorem length_of_readClass {isFirst inRange : Bool} {ranges found : List (Char × Char)}
    {text rest : List Char} (h : readClass isFirst inRange ranges text = some (found, rest)) :
    rest.length < text.length := by
  fun_induction readClass isFirst inRange ranges text
  all_goals grind

/-- What is read so far at one depth of braces. -/
structure Level where
  /-- The finished branches, last first. -/
  branches : List Glob := []
  /-- The parts of the present branch, last first. -/
  items : List GlobItem := []

/-- Where the reading stands: inside how many braces, and behind which character. -/
structure ReaderState where
  level : Level := {}
  outer : List Level := []
  before : Option Char := none

namespace ReaderState

def push (s : ReaderState) (item : GlobItem) (before : Char) : ReaderState :=
  { s with level := { s.level with items := item :: s.level.items }, before }

/-- The state after two stars that mean no more than one. -/
def pushStars (s : ReaderState) : ReaderState :=
  (s.push .anyBytes '*').push .anyBytes '*'

/-- The state after two stars that take the place of the separator before them. Where that belongs
to two stars already, these are kept. -/
def absorb (s : ReaderState) (item : GlobItem) (before : Char) : ReaderState :=
  let items :=
    match s.level.items with
    | .leading :: items => .leading :: items
    | .trailing :: items => .trailing :: items
    | _ :: items => item :: items
    | [] => [item]
  { s with level := { s.level with items }, before }

/-- Whether the last character separates: a slash or, inside of braces, what begins a branch. -/
def isSeparated (s : ReaderState) : Bool :=
  s.before == some '/' ||
    (!s.outer.isEmpty && (s.before == some ',' || s.before == some '\x7b'))

/-- The state after two stars and a slash behind them. -/
def pushStarsSlash (s : ReaderState) : ReaderState :=
  if s.level.items.isEmpty then s.push .leading '/'
  else if s.isSeparated then s.absorb .inner '/'
  else s.pushStars.push (.literal '/') '/'

/-- The state after two stars, when no slash follows them; `ends` tells whether the branch does. -/
def pushStarsEnd (s : ReaderState) (atEnd endsBranch : Bool) : ReaderState :=
  if s.level.items.isEmpty then
    if atEnd then s.push .leading '*' else s.pushStars
  else if s.isSeparated && (atEnd || endsBranch) then s.absorb .trailing '*'
  else s.pushStars

def opened (s : ReaderState) : ReaderState :=
  { level := {}, outer := s.level :: s.outer, before := some '\x7b' }

def comma (s : ReaderState) : ReaderState :=
  if s.outer.isEmpty then s.push (.literal ',') ','
  else
    { s with
      level := { branches := s.level.items.reverse :: s.level.branches, items := [] }
      before := some ',' }

/-- The state behind a closing brace, if one is open. -/
def closed? (s : ReaderState) : Option ReaderState :=
  match s.outer with
  | [] => none
  | level :: outer =>
    let branches := (s.level.items.reverse :: s.level.branches).reverse
    some { level := { level with items := .oneOf branches :: level.items }, outer
           before := some '\x7d' }

end ReaderState

def readFrom (s : ReaderState) : List Char → Option Glob
  | [] => if s.outer.isEmpty then some s.level.items.reverse else none
  | '?' :: rest => readFrom (s.push .anyByte '?') rest
  | '*' :: '*' :: '/' :: rest => readFrom s.pushStarsSlash rest
  | '*' :: '*' :: rest =>
    let endsBranch := !s.outer.isEmpty && (rest.head? == some ',' || rest.head? == some '\x7d')
    readFrom (s.pushStarsEnd rest.isEmpty endsBranch) rest
  | '*' :: rest => readFrom (s.push .anyBytes '*') rest
  | '[' :: '!' :: rest =>
    match _ : readClass true false [] rest with
    | some (ranges, rest) =>
      readFrom (s.push (.byteIn true (ranges.flatMap fun r => byteRanges r.1 r.2)) ']') rest
    | none => none
  | '[' :: '^' :: rest =>
    match _ : readClass true false [] rest with
    | some (ranges, rest) =>
      readFrom (s.push (.byteIn true (ranges.flatMap fun r => byteRanges r.1 r.2)) ']') rest
    | none => none
  | '[' :: rest =>
    match _ : readClass true false [] rest with
    | some (ranges, rest) =>
      readFrom (s.push (.byteIn false (ranges.flatMap fun r => byteRanges r.1 r.2)) ']') rest
    | none => none
  | '\x7b' :: rest => readFrom s.opened rest
  | '\x7d' :: rest =>
    match s.closed? with
    | some s => readFrom s rest
    | none => none
  | ',' :: rest => readFrom s.comma rest
  | ['\\'] => none
  | '\\' :: c :: rest => readFrom (s.push (.literal c) c) rest
  | c :: rest => readFrom (s.push (.literal c) c) rest
termination_by text => text.length
decreasing_by
  all_goals simp only [List.length_cons]
  all_goals try have := length_of_readClass ‹_›
  all_goals omega

def ofText? (text : String) : Option Glob :=
  readFrom {} text.toList

end CodeAtlas.Glob
