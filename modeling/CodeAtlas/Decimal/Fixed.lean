import CodeAtlas.Decimal.Layout

/-!
Numbers with a fixed count of digits after the point. The exact value is rounded to the nearest such
number, and a value half way between two of them goes to the one with the even last digit.
-/

namespace CodeAtlas.Decimal

/-- The whole number nearest to `num / den`; of two the even one. -/
def nearest (num den : Nat) : Nat :=
  let below := num / den
  let rest := num % den
  if 2 * rest < den || (2 * rest == den && below % 2 == 0) then below else below + 1

/-- How many units of `10^-places` come nearest to a binary number. -/
def Binary.units (b : Binary) (places : Nat) : Nat :=
  nearest ((b.mantissa <<< b.exponent.toNat) * Nat.pow 10 places) (1 <<< (-b.exponent).toNat)

def writeUnits (places units : Nat) : List Char :=
  let ds := digitChars units
  let ds := List.replicate (places + 1 - ds.length) '0' ++ ds
  let whole := ds.take (ds.length - places)
  if places == 0 then whole else whole ++ '.' :: ds.drop (ds.length - places)

/-- The absolute value of a finite double with so many digits after the point. -/
def writeFixed (places : Nat) (x : Float) : List Char :=
  writeUnits places ((Binary.ofBits x.toBits).units places)

end CodeAtlas.Decimal
