import CodeAtlas.Document.Numeral

/-!
Reading documents from text. A reading step returns what it read with the text left over, which is
shorter than the text it was given, so that loops over items end. Nesting is bounded.
-/

namespace CodeAtlas.Document

/-- What a reading step leaves of a text: a shorter text. -/
abbrev Rest (s : List Char) := { rest : List Char // rest.length < s.length }

/-- A reading step: nothing when the text does not start as it should. -/
abbrev Reader (α : Type) := (s : List Char) → Option (α × Rest s)

/-- The blanks that may stand between the parts of a document. -/
def isSpace (c : Char) : Bool :=
  c == ' ' || c == '\n' || c == '\t' || c == '\r'

def skipSpaces (s : List Char) : List Char :=
  s.dropWhile isSpace

theorem length_skipSpaces_le (s : List Char) : (skipSpaces s).length ≤ s.length :=
  (List.dropWhile_sublist isSpace).length_le

def hexDigit? (c : Char) : Option Nat :=
  if '0' ≤ c && c ≤ '9' then some (c.toNat - '0'.toNat)
  else if 'a' ≤ c && c ≤ 'f' then some (c.toNat - 'a'.toNat + 10)
  else if 'A' ≤ c && c ≤ 'F' then some (c.toNat - 'A'.toNat + 10)
  else none

def hexCode? (a b c d : Char) : Option Nat := do
  return (((← hexDigit? a) * 16 + (← hexDigit? b)) * 16 + (← hexDigit? c)) * 16 + (← hexDigit? d)

def escaped? (c : Char) : Option Char :=
  match c with
  | '\x22' => some '\x22'
  | '\\' => some '\\'
  | '/' => some '/'
  | 'b' => some '\x08'
  | 'f' => some '\x0c'
  | 'n' => some '\n'
  | 'r' => some '\r'
  | 't' => some '\t'
  | _ => none

/-- The inside of a quoted text up to its closing mark, and what follows the mark. -/
def quoted : Reader (List Char)
  | [] => none
  | '\x22' :: rest => some ([], ⟨rest, by simp⟩)
  | '\\' :: 'u' :: a :: b :: c :: d :: rest =>
    match hexCode? a b c d with
    | none => none
    | some high =>
      if 0xdc00 ≤ high && high < 0xe000 then none
      else if 0xd800 ≤ high && high < 0xdc00 then
        match rest with
        | '\\' :: 'u' :: a' :: b' :: c' :: d' :: rest' =>
          match hexCode? a' b' c' d' with
          | none => none
          | some low =>
            if 0xdc00 ≤ low && low < 0xe000 then
              match quoted rest' with
              | none => none
              | some (cs, r) =>
                some (Char.ofNat (0x10000 + (high - 0xd800) * 0x400 + (low - 0xdc00)) :: cs,
                  ⟨r.1, by have := r.2; simp only [List.length_cons]; omega⟩)
            else none
        | _ => none
      else
        match quoted rest with
        | none => none
        | some (cs, r) =>
          some (Char.ofNat high :: cs, ⟨r.1, by have := r.2; simp only [List.length_cons]; omega⟩)
  | '\\' :: c :: rest =>
    match escaped? c with
    | none => none
    | some d =>
      match quoted rest with
      | none => none
      | some (cs, r) =>
        some (d :: cs, ⟨r.1, by have := r.2; simp only [List.length_cons]; omega⟩)
  | c :: rest =>
    if c == '\\' || c.toNat < 32 then none
    else
      match quoted rest with
      | none => none
      | some (cs, r) =>
        some (c :: cs, ⟨r.1, by have := r.2; simp only [List.length_cons]; omega⟩)

def leadingDigits (s : List Char) : List Nat :=
  (s.takeWhile Char.isDigit).map fun c => c.toNat - '0'.toNat

def afterDigits (s : List Char) : List Char :=
  s.dropWhile Char.isDigit

def exponentPart : List Char → Option (Option (Bool × List Nat) × List Char)
  | c :: rest =>
    if c == 'e' || c == 'E' then
      let (negative, rest) :=
        match rest with
        | '+' :: rest => (false, rest)
        | '-' :: rest => (true, rest)
        | rest => (false, rest)
      let ds := leadingDigits rest
      if ds.isEmpty then none else some (some (negative, ds), afterDigits rest)
    else some (none, c :: rest)
  | [] => some (none, [])

/-- The point and the digits behind it at the start of a text, if there is a point. -/
def fractionPart : List Char → Option (Option (List Nat) × List Char)
  | '.' :: rest =>
    let ds := leadingDigits rest
    if ds.isEmpty then none else some (some ds, afterDigits rest)
  | rest => some (none, rest)

/-- The numeral at the start of a text, without a sign, and what follows it. -/
def numeralPart (negative : Bool) (s : List Char) : Option (Numeral × List Char) := do
  let whole := leadingDigits s
  if whole.isEmpty || (whole.head? == some 0 && 1 < whole.length) then none
  else
    let (fraction, rest) ← fractionPart (afterDigits s)
    let (exponent, rest) ← exponentPart rest
    return (⟨negative, whole, fraction, exponent⟩, rest)

def number : Reader Document := fun s =>
  let numeral :=
    match s with
    | '-' :: rest => numeralPart true rest
    | _ => numeralPart false s
  match numeral with
  | none => none
  | some (v, rest) =>
    if h : rest.length < s.length then v.toDocument?.map fun d => (d, ⟨rest, h⟩) else none

def word (w : List Char) (d : Document) : Reader Document := fun s =>
  if w.isPrefixOf s && !w.isEmpty then
    if h : (s.drop w.length).length < s.length then some (d, ⟨s.drop w.length, h⟩) else none
  else none

def itemsUntil {α : Type} (close : Char) (item : Reader α) : Reader (List α) := fun s =>
  match item (skipSpaces s) with
  | none => none
  | some (a, r) =>
    match hr : skipSpaces r.1 with
    | [] => none
    | c :: rest =>
      have hlt : rest.length < s.length := by
        have h₁ := r.2
        have h₂ := length_skipSpaces_le s
        have h₃ := length_skipSpaces_le r.1
        rw [hr, List.length_cons] at h₃
        omega
      if c == close then some ([a], ⟨rest, hlt⟩)
      else if c == ',' then
        match itemsUntil close item rest with
        | none => none
        | some (as, r') => some (a :: as, ⟨r'.1, Nat.lt_trans r'.2 hlt⟩)
      else none
termination_by s => s.length

def itemsOrNone {α : Type} (close : Char) (item : Reader α) : Reader (List α) := fun s =>
  match hs : skipSpaces s with
  | [] => none
  | c :: rest =>
    if c == close then
      some ([], ⟨rest, by
        have := length_skipSpaces_le s
        rw [hs, List.length_cons] at this
        omega⟩)
    else itemsUntil close item s

def field (value : Reader Document) : Reader (String × Document) := fun s =>
  match s with
  | '\x22' :: s' =>
    match quoted s' with
    | none => none
    | some (name, r) =>
      match hr : skipSpaces r.1 with
      | ':' :: rest =>
        match value (skipSpaces rest) with
        | none => none
        | some (d, r') =>
          some ((String.ofList name, d), ⟨r'.1, by
            have h₁ := r.2
            have h₂ := r'.2
            have h₃ := length_skipSpaces_le r.1
            have h₄ := length_skipSpaces_le rest
            rw [hr, List.length_cons] at h₃
            simp only [List.length_cons]
            omega⟩)
      | _ => none
  | _ => none

/-- A document at the start of a text, with lists and records nested at most `depth` deep. -/
def value : (depth : Nat) → Reader Document
  | depth, s =>
    match s with
    | [] => none
    | '\x22' :: rest =>
      (quoted rest).map fun p =>
        (text (String.ofList p.1), ⟨p.2.1, by have := p.2.2; simp only [List.length_cons]; omega⟩)
    | '[' :: rest =>
      match depth with
      | 0 => none
      | depth + 1 =>
        (itemsOrNone ']' (value depth) rest).map fun p =>
          (list p.1, ⟨p.2.1, by have := p.2.2; simp only [List.length_cons]; omega⟩)
    | '\x7b' :: rest =>
      match depth with
      | 0 => none
      | depth + 1 =>
        (itemsOrNone '\x7d' (field (value depth)) rest).map fun p =>
          (record p.1, ⟨p.2.1, by have := p.2.2; simp only [List.length_cons]; omega⟩)
    | c :: rest =>
      if c == 'n' then word "null".toList null (c :: rest)
      else if c == 't' then word "true".toList (boolean true) (c :: rest)
      else if c == 'f' then word "false".toList (boolean false) (c :: rest)
      else number (c :: rest)

/-- The greatest depth to which lists and records may be nested. -/
def nestingLimit : Nat := 127

/-- The document a text stands for; spaces may surround it, and nothing else. -/
def parse? (s : String) : Option Document :=
  match value nestingLimit (skipSpaces s.toList) with
  | none => none
  | some (d, rest) => if (skipSpaces rest.1).isEmpty then some d else none

end CodeAtlas.Document
