/-!
Globs: patterns for whole paths. Paths are matched byte by byte, so a place for one character takes
one byte. Whether places and stars take slashes too is left to whoever matches. Matching is told by
what may be left of a text behind a part of a pattern.
-/

namespace CodeAtlas

inductive GlobItem where
  | literal (c : Char)
  | anyByte
  | anyBytes
  /-- A byte in one of the ranges or, negated, in none. -/
  | byteIn (negated : Bool) (ranges : List (UInt8 × UInt8))
  /-- Two stars in front of a slash at the start: nothing, or anything up to a slash. -/
  | leading
  /-- A slash and two stars at the end: a slash and anything. -/
  | trailing
  /-- Two stars between slashes: a slash, or anything between two slashes. -/
  | inner
  /-- Alternatives in braces. -/
  | oneOf (branches : List (List GlobItem))
  deriving Inhabited

abbrev Glob := List GlobItem

namespace Glob

/-- A text and all that is left when bytes are taken from its start. -/
def suffixes : List UInt8 → List (List UInt8)
  | [] => [[]]
  | b :: bs => (b :: bs) :: suffixes bs

/-- What is left of a text when bytes that are no slashes are taken from its start. -/
def suffixesInName : List UInt8 → List (List UInt8)
  | [] => [[]]
  | b :: bs => if b == 47 then [b :: bs] else (b :: bs) :: suffixesInName bs

def afterSlash : List (List UInt8) → List (List UInt8)
  | [] => []
  | [] :: texts => afterSlash texts
  | (b :: bs) :: texts => if b == 47 then bs :: afterSlash texts else afterSlash texts

def afterWord : (word text : List UInt8) → List (List UInt8)
  | [], text => [text]
  | _ :: _, [] => []
  | w :: word, b :: text => if w == b then afterWord word text else []

def inByteRanges (ranges : List (UInt8 × UInt8)) (b : UInt8) : Bool :=
  ranges.any fun r => r.1 ≤ b && b ≤ r.2

mutual

/-- Whether a part stands for nothing: braces without a branch that stands for something. -/
def isVoid : GlobItem → Bool
  | .oneOf branches => areVoid branches
  | _ => false

def areVoid : List (List GlobItem) → Bool
  | [] => true
  | branch :: branches => allVoid branch && areVoid branches

def allVoid : List GlobItem → Bool
  | [] => true
  | item :: items => isVoid item && allVoid items

end

mutual

/-- What may be left of a text behind a part of a pattern; `crossing` tells whether places and stars
take slashes. -/
def restsOfItem (crossing : Bool) (text : List UInt8) : GlobItem → List (List UInt8)
  | .literal c => afterWord (String.utf8EncodeChar c) text
  | .anyByte => (if crossing || text.head? != some 47 then text.tail? else none).toList
  | .anyBytes => if crossing then suffixes text else suffixesInName text
  | .byteIn negated ranges =>
    match text with
    | [] => []
    | b :: bs => if inByteRanges ranges b != negated then [bs] else []
  | .leading => text :: afterSlash (suffixes text)
  | .trailing => (afterSlash [text]).flatMap suffixes
  | .inner =>
    afterSlash [text] ++ (afterSlash [text]).flatMap fun rest => afterSlash (suffixes rest)
  | .oneOf branches =>
    if areVoid branches then [text] else restsOfBranches crossing text branches

/-- What may be left of a text behind one of some branches; branches that stand for nothing are left
out. -/
def restsOfBranches (crossing : Bool) (text : List UInt8) :
    List (List GlobItem) → List (List UInt8)
  | [] => []
  | branch :: branches =>
    (if allVoid branch then [] else restsOfItems crossing [text] branch) ++
      restsOfBranches crossing text branches

/-- What may be left of some texts behind parts of a pattern. -/
def restsOfItems (crossing : Bool) (texts : List (List UInt8)) :
    List GlobItem → List (List UInt8)
  | [] => texts
  | item :: items =>
    restsOfItems crossing (texts.flatMap fun t => restsOfItem crossing t item).eraseDups items

end

/-- Whether a glob matches a whole path. A glob that is nothing but two leading stars matches
all. -/
def covers (g : Glob) (crossing : Bool) (path : String) : Bool :=
  match g with
  | [.leading] => true
  | _ => (restsOfItems crossing [path.toUTF8.toList] g).any List.isEmpty

end Glob

end CodeAtlas
