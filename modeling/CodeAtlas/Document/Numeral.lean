import CodeAtlas.Document.Basic

/-!
Numbers in documents. A numeral without point and exponent that fits in 64 bits is a whole number;
any other is a double, found in two steps. Its digits are taken as one whole number as long as that
fits in 64 bits, and the double nearest to it is then multiplied or divided once by a power of ten.
For short decimals this is the nearest double; for long ones it may be a neighbour of it.
-/

namespace CodeAtlas.Document

/-- A numeral taken apart; the digits are kept as their values. -/
structure Numeral where
  negative : Bool
  whole : List Nat
  /-- The digits after the point, if there is a point. -/
  fraction : Option (List Nat)
  /-- Whether the exponent is negative, and its digits, if there is an exponent. -/
  exponent : Option (Bool × List Nat)

namespace Numeral

/-- The greatest number that fits in 64 bits. -/
def digitLimit : Nat := UInt64.size - 1

/-- Takes in digits while the number stays within the limit, and says how many are left over. -/
def takeDigits (n : Nat) : List Nat → Nat × Nat
  | [] => (n, 0)
  | d :: ds => if n * 10 + d ≤ digitLimit then takeDigits (n * 10 + d) ds else (n, ds.length + 1)

def ofDigits (ds : List Nat) : Nat :=
  ds.foldl (fun n d => n * 10 + d) 0

/-- The power of ten nearest to `10^n`. -/
def powerOfTen (n : Nat) : Float :=
  Float.ofScientific 1 false n

/-- A double divided by `10^n`, in steps of `10^308`. -/
def divideByPower (x : Float) (n : Nat) : Float :=
  if n ≤ 308 then x / powerOfTen n
  else if x == 0 then x
  else divideByPower (x / powerOfTen 308) (n - 308)
termination_by n

/-- The double for `n * 10^e`, unless it is too great for one. -/
def scaled? (n : Nat) (e : Int) : Option Float :=
  let x := n.toUInt64.toFloat
  if e < 0 then some (divideByPower x e.natAbs)
  else if e ≤ 308 then
    let y := x * powerOfTen e.toNat
    if y.isInf then none else some y
  else if n == 0 then some x
  else none

/-- The greatest exponent that is counted; a greater one stands for zero or for too great a
number. -/
def exponentLimit : Nat := UInt32.size / 2 - 1

/-- The size of the number, unless it is too great for a double. -/
def magnitude? (v : Numeral) : Option Float :=
  let (n, skipped) := takeDigits 0 v.whole
  let fraction := v.fraction.getD []
  let (n, untaken) := takeDigits n fraction
  let e : Int := skipped - (fraction.length - untaken : Nat)
  match v.exponent with
  | none => scaled? n e
  | some (negative, ds) =>
    if exponentLimit < ofDigits ds then
      if n == 0 || negative then some 0 else none
    else scaled? n (if negative then e - ofDigits ds else e + ofDigits ds)

/-- The number as a document, unless it is too great. Minus zero and what lies beyond 64 bits are
real. -/
def toDocument? (v : Numeral) : Option Document :=
  let n : Int := if v.negative then -(ofDigits v.whole : Int) else ofDigits v.whole
  if v.fraction.isNone && v.exponent.isNone && inIntegerRange n && !(v.negative && n == 0) then
    some (integer n)
  else v.magnitude?.map fun x => real (if v.negative then -x else x)

end Numeral

end CodeAtlas.Document
