/-!
SipHash with a zero key, one round for each word of the message and three at its end. A text is
hashed as its bytes in UTF-8 with the byte `0xff` behind them, which no text contains.
-/

namespace CodeAtlas.Text.Hash

structure State where
  v0 : UInt64
  v1 : UInt64
  v2 : UInt64
  v3 : UInt64
  deriving DecidableEq, Repr

def rotate (x : UInt64) (n : UInt64) : UInt64 :=
  (x <<< n) ||| (x >>> (64 - n))

def start : State :=
  ⟨0x736f6d6570736575, 0x646f72616e646f6d, 0x6c7967656e657261, 0x7465646279746573⟩

def round (s : State) : State :=
  let v0 := s.v0 + s.v1
  let v1 := rotate s.v1 13 ^^^ v0
  let v0 := rotate v0 32
  let v2 := s.v2 + s.v3
  let v3 := rotate s.v3 16 ^^^ v2
  let v0 := v0 + v3
  let v3 := rotate v3 21 ^^^ v0
  let v2 := v2 + v1
  let v1 := rotate v1 17 ^^^ v2
  ⟨v0, v1, rotate v2 32, v3⟩

def absorb (s : State) (word : UInt64) : State :=
  let s := round { s with v3 := s.v3 ^^^ word }
  { s with v0 := s.v0 ^^^ word }

def wordOf : List UInt8 → UInt64
  | [] => 0
  | b :: bs => b.toUInt64 ||| (wordOf bs <<< 8)

def absorbWords (s : State) : List UInt8 → State × List UInt8
  | a :: b :: c :: d :: e :: f :: g :: h :: rest =>
    absorbWords (absorb s (wordOf [a, b, c, d, e, f, g, h])) rest
  | rest => (s, rest)

/-- The hash of a message. Its last word has the length of the message, modulo 256, on top. -/
def ofBytes (bytes : List UInt8) : UInt64 :=
  let (s, rest) := absorbWords start bytes
  let s := absorb s ((UInt64.ofNat bytes.length <<< 56) ||| wordOf rest)
  let s := round (round (round { s with v2 := s.v2 ^^^ 0xff }))
  s.v0 ^^^ s.v1 ^^^ s.v2 ^^^ s.v3

def ofText (text : String) : UInt64 :=
  ofBytes (text.toUTF8.toList ++ [0xff])

end CodeAtlas.Text.Hash
