import CodeAtlas.Decimal.Shortest

/-!
The writing of numbers. Digits come from the shortest decimal; a record of decisions says where
plain positions end and the exponent begins.
-/

namespace CodeAtlas.Decimal

/-- Where the point may stand for a number to be written without an exponent. -/
structure Layout where
  /-- Most zeros between the point and the first digit. -/
  leadingZeros : Nat
  /-- Most digits before the point. -/
  wholeDigits : Nat

/-- Numbers from `0.00001` up to, but not including, ten to the sixteenth are written plainly. -/
def plain : Layout := ⟨4, 16⟩

def digitChars (n : Nat) : List Char :=
  Nat.toDigits 10 n

/-- A positive decimal in a layout: plain with at least one digit after the point, or `d.ddde±x`. -/
def Layout.write (layout : Layout) (d : Scaled) : List Char :=
  let ds := digitChars d.digits
  let point : Int := ds.length + d.exponent
  if point ≤ 0 && -point ≤ layout.leadingZeros then
    "0.".toList ++ List.replicate (-point).toNat '0' ++ ds
  else if 0 < point && point ≤ layout.wholeDigits then
    if ds.length ≤ point.toNat then
      ds ++ List.replicate (point.toNat - ds.length) '0' ++ ".0".toList
    else ds.take point.toNat ++ '.' :: ds.drop point.toNat
  else
    let fraction := if ds.length ≤ 1 then [] else '.' :: ds.drop 1
    let e := point - 1
    ds.take 1 ++ fraction ++ 'e' :: (if e < 0 then '-' else '+') :: digitChars e.natAbs

/-- A double as text; both zeros keep their sign, and what is not finite is written as `null`. -/
def writeFloat (x : Float) : List Char :=
  let bits := x.toBits
  let sign := if bits.toNat >>> 63 == 1 then ['-'] else []
  if (bits.toNat >>> 52) % (1 <<< 11) == 2047 then "null".toList
  else if bits.toNat % (1 <<< 63) == 0 then sign ++ "0.0".toList
  else sign ++ plain.write (Binary.ofBits bits).shortest

end CodeAtlas.Decimal
