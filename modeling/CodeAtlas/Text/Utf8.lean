/-!
Text from bytes. Bytes are read as UTF-8; where they are not well formed, the longest start of a
character that does not go on as it should is read as one replacement character.
-/

namespace CodeAtlas.Text.Utf8

def replacement : Char := '\ufffd'

/-- Where the reading stands: between characters, or with bits of one and the bytes it still
needs. -/
inductive State where
  | start
  /-- `more + 1` bytes are owed, and the next lies between `low` and `high`. -/
  | inside (bits more low high : Nat)
  deriving DecidableEq, Repr

/-- The first byte of a character: what it completes, and where the reading stands after it. -/
def first (b : Nat) : List Char × State :=
  if b < 0x80 then ([Char.ofNat b], .start)
  else if 0xc2 ≤ b && b ≤ 0xdf then ([], .inside (b - 0xc0) 0 0x80 0xbf)
  else if b == 0xe0 then ([], .inside 0 1 0xa0 0xbf)
  else if b == 0xed then ([], .inside 0xd 1 0x80 0x9f)
  else if 0xe1 ≤ b && b ≤ 0xef then ([], .inside (b - 0xe0) 1 0x80 0xbf)
  else if b == 0xf0 then ([], .inside 0 2 0x90 0xbf)
  else if 0xf1 ≤ b && b ≤ 0xf3 then ([], .inside (b - 0xf0) 2 0x80 0xbf)
  else if b == 0xf4 then ([], .inside 4 2 0x80 0x8f)
  else ([replacement], .start)

/-- One byte: what it completes, and where the reading stands after it. -/
def step : State → Nat → List Char × State
  | .start, b => first b
  | .inside bits more low high, b =>
    if low ≤ b && b ≤ high then
      match more with
      | 0 => ([Char.ofNat (bits * 64 + b % 64)], .start)
      | more + 1 => ([], .inside (bits * 64 + b % 64) more 0x80 0xbf)
    else (replacement :: (first b).1, (first b).2)

def decodeFrom : State → List UInt8 → List Char
  | .start, [] => []
  | .inside .., [] => [replacement]
  | s, b :: bs => (step s b.toNat).1 ++ decodeFrom (step s b.toNat).2 bs

def decode (bytes : List UInt8) : String :=
  String.ofList (decodeFrom .start bytes)

end CodeAtlas.Text.Utf8
