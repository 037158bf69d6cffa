import RegisterVM.Decimal.Shortest

/-!
# Floats as text

A float is written with its shortest digits in positional notation whatever its size, without a
point when it is integral. Zero keeps its sign. A value that is not a number has no sign.
-/

namespace RegisterVM
namespace Decimal

/-- `n` zeros. -/
def zeros (n : Nat) : String := "".pushn '0' n

/-- Positional notation of digits times a power of ten. -/
def positional (d : Scaled) : String :=
  let ds := toString d.digits
  if 0 ≤ d.exponent then ds ++ zeros d.exponent.toNat
  else
    let places := (-d.exponent).toNat
    if places < ds.length then
      let whole := ds.length - places
      String.ofList (ds.toList.take whole) ++ "." ++ String.ofList (ds.toList.drop whole)
    else "0." ++ zeros (places - ds.length) ++ ds

/-- The magnitude of a pattern that is a number. -/
def magnitudeText (x : UInt64) : String :=
  if Binary64.isInfinite x then "inf"
  else if Binary64.isZero x then "0"
  else positional (shortest x)

/-- A float, with a minus sign where it is negative. -/
def text (x : UInt64) : String :=
  if Binary64.isNaN x then "NaN"
  else if Binary64.isNegative x then "-" ++ magnitudeText x
  else magnitudeText x

/-- A float with its sign always written. -/
def signedText (x : UInt64) : String :=
  if Binary64.isNaN x then "NaN"
  else if Binary64.isNegative x then "-" ++ magnitudeText x
  else "+" ++ magnitudeText x

/-- A complex number: the real part, then the signed imaginary part. -/
def complexText (re im : UInt64) : String := text re ++ signedText im ++ "i"

end Decimal
end RegisterVM
