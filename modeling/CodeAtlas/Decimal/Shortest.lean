/-!
The shortest decimal that reads back as a given binary number. A finite double is `m * 2^q` for
whole numbers `m` and `q`; the reals that round to it form an interval, closed exactly when `m` is
even. On the decimal grids from coarse to fine, the first grid with a point in the interval gives
the digits; of two such points the one nearer to the number is taken.
-/

namespace CodeAtlas.Decimal

/-- The number `digits * 10^exponent`. -/
structure Scaled where
  digits : Nat
  exponent : Int
  deriving DecidableEq, Repr

/-- A positive binary number `mantissa * 2^exponent`; below a `narrow` one the spacing halves. -/
structure Binary where
  mantissa : Nat
  exponent : Int
  narrow : Bool
  deriving DecidableEq, Repr

/-- The absolute value of a finite double that is not zero, read from its bits. -/
def Binary.ofBits (bits : UInt64) : Binary :=
  let fraction : Nat := bits.toNat % (1 <<< 52)
  let scale : Nat := (bits.toNat >>> 52) % (1 <<< 11)
  if scale == 0 then ⟨fraction, -1074, false⟩
  else ⟨(1 <<< 52) + fraction, (scale : Int) - 1075, fraction == 0 && scale != 1⟩

namespace Binary

/-- Three times the resolution: bounds and centre of the interval in units of `2^(exponent - 2)`. -/
def bounds (b : Binary) : Nat × Nat × Nat :=
  (4 * b.mantissa - (if b.narrow then 1 else 2), 4 * b.mantissa, 4 * b.mantissa + 2)

/-- The ratio, as two whole numbers, of `2^(exponent - 2)` to `10^k`. -/
def ratio (b : Binary) (k : Int) : Nat × Nat :=
  (Nat.pow 10 (-k).toNat <<< (b.exponent - 2).toNat, Nat.pow 10 k.toNat <<< (2 - b.exponent).toNat)

/-- Whether `c * 10^k` rounds to the number. -/
def covers (b : Binary) (k : Int) (c : Nat) : Bool :=
  let (low, _, high) := b.bounds
  let (num, den) := b.ratio k
  if b.mantissa % 2 == 0 then low * num ≤ c * den && c * den ≤ high * num
  else low * num < c * den && c * den < high * num

/-- The point of the grid `10^k` that rounds to the number and is nearest to it, if there is one. -/
def onGrid? (b : Binary) (k : Int) : Option Scaled :=
  let (_, centre, _) := b.bounds
  let (num, den) := b.ratio k
  let below := centre * num / den
  let rest := centre * num % den
  match b.covers k below, b.covers k (below + 1) with
  | false, false => none
  | true, false => some ⟨below, k⟩
  | false, true => some ⟨below + 1, k⟩
  | true, true =>
    if 2 * rest < den || (2 * rest == den && below % 2 == 0) then some ⟨below, k⟩
    else some ⟨below + 1, k⟩

/-- A power of ten above the number. -/
def ceiling (b : Binary) : Int :=
  ((b.mantissa.log2 : Int) + b.exponent + 1) * 30103 / 100000 + 1

/-- The shortest decimal that rounds to the number. -/
def shortest (b : Binary) : Scaled :=
  ((List.range 20).findSome? fun i : Nat => b.onGrid? (b.ceiling - (i : Int))).getD ⟨0, 0⟩

end Binary

end CodeAtlas.Decimal
