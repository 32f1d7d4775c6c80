import CodeAtlas.Text.Ranges

/-!
Blank characters, and the cutting of text at them. A character is blank when it has the White_Space
property, which takes in the no-break and the ideographic space but not the zero-width ones. Text is
a list of characters here; strings are converted where they enter.
-/

namespace CodeAtlas.Text

def blankRanges : List (Nat × Nat) :=
  [(9, 13), (32, 32), (0x85, 0x85), (0xa0, 0xa0), (0x1680, 0x1680), (0x2000, 0x200a),
    (0x2028, 0x2029), (0x202f, 0x202f), (0x205f, 0x205f), (0x3000, 0x3000)]

/-- Whether a character has the White_Space property. -/
def isBlank (c : Char) : Bool :=
  inRanges blankRanges c.toNat

def dropEndWhile {α : Type} (p : α → Bool) (xs : List α) : List α :=
  (xs.reverse.dropWhile p).reverse

def strip {α : Type} (p : α → Bool) (xs : List α) : List α :=
  dropEndWhile p (xs.dropWhile p)

def trimStart (cs : List Char) : List Char :=
  cs.dropWhile isBlank

def trim (cs : List Char) : List Char :=
  strip isBlank cs

theorem length_dropWhile_le {α : Type} (p : α → Bool) (xs : List α) :
    (xs.dropWhile p).length ≤ xs.length :=
  (List.dropWhile_sublist p).length_le

/-- The maximal runs of characters that satisfy `p`, in order. -/
def runs (p : Char → Bool) : List Char → List (List Char)
  | [] => []
  | c :: rest =>
    if p c then (c :: rest.takeWhile p) :: runs p (rest.dropWhile p)
    else runs p rest
termination_by cs => cs.length
decreasing_by
  · have := length_dropWhile_le p rest
    simp only [List.length_cons]
    omega
  · simp

/-- The words of a text, a word being a maximal run of characters that are not blank. -/
def words (cs : List Char) : List (List Char) :=
  runs (fun c => !isBlank c) cs

def collapse (cs : List Char) : List Char :=
  List.intercalate [' '] (words cs)

/-- The first line of a text, without its line feed and without one carriage return before that. -/
def firstLine (cs : List Char) : List Char :=
  match cs.dropWhile (· != '\n') with
  | [] => cs
  | _ :: _ =>
    let line := cs.takeWhile (· != '\n')
    if line.getLast? == some '\r' then line.dropLast else line

end CodeAtlas.Text
