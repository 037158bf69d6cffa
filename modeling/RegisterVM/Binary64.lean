/-!
# Binary64 arithmetic on bit patterns

A float is carried as its 64-bit pattern, so moving one never changes a bit, and every operation
is a function from patterns to patterns. A finite pattern stands for
`± mantissa · 2 ^ scale`; conversion to an integer, conversion from an integer, rounding to an
integral value and the remainder are computed on that reading in exact arithmetic.
-/

namespace RegisterVM
namespace Binary64

/-- The sign bit alone. -/
def signBit : UInt64 := 0x8000000000000000

/-- The quiet not-a-number pattern. -/
def nan : UInt64 := 0x7ff8000000000000

/-- The eleven exponent bits. -/
def exponentField (x : UInt64) : Nat := ((x >>> 52) &&& 0x7ff).toNat

/-- The 52 fraction bits. -/
def fraction (x : UInt64) : Nat := (x &&& 0xfffffffffffff).toNat

/-- Whether the sign bit is set. -/
def isNegative (x : UInt64) : Bool := x &&& signBit != 0

/-- Not-a-number: the exponent is full and the fraction is not zero. -/
def isNaN (x : UInt64) : Bool := exponentField x == 0x7ff && fraction x != 0

/-- Infinite of either sign. -/
def isInfinite (x : UInt64) : Bool := exponentField x == 0x7ff && fraction x == 0

/-- Zero of either sign. -/
def isZero (x : UInt64) : Bool := x &&& 0x7fffffffffffffff == 0

/-- The integer significand; subnormal patterns have no hidden bit. -/
def mantissa (x : UInt64) : Nat :=
  if exponentField x = 0 then fraction x else fraction x + 0x10000000000000

/-- The power of two that scales the significand. -/
def scale (x : UInt64) : Int := (max (exponentField x) 1 : Nat) - 1075

/-- The pattern of `± m · 2 ^ e`, for a value that binary64 holds exactly. -/
def ofExact (negative : Bool) (m : Nat) (e : Int) : UInt64 :=
  let sign := if negative then signBit else 0
  if m = 0 then sign
  else
    let top : Int := e + m.log2
    if top < -1022 then sign ||| UInt64.ofNat (m <<< (e + 1074).toNat)
    else sign ||| UInt64.ofNat (((top + 1022).toNat <<< 52) + (m <<< (52 - m.log2)))

/-- `n / 2 ^ s` to the nearest natural number, a half going to the even neighbour. -/
def roundShift (n s : Nat) : Nat :=
  let q := n >>> s
  let unit := Nat.pow 2 s
  let r := n % unit
  if 2 * r > unit ∨ (2 * r = unit ∧ q % 2 = 1) then q + 1 else q

/-- The nearest float to an integer, ties to even. -/
def ofInt (i : Int64) : UInt64 :=
  let n := i.toInt.natAbs
  let sign := if i < 0 then signBit else 0
  if n = 0 then 0
  else
    let k := n.log2
    let m := if k ≤ 52 then n <<< (52 - k) else roundShift n (k - 52)
    sign ||| UInt64.ofNat (((k + 1022) <<< 52) + m)

/-- The magnitude without its fractional part. -/
def wholePart (x : UInt64) : Nat :=
  if 0 ≤ scale x then mantissa x <<< (scale x).toNat else mantissa x >>> (-scale x).toNat

/-- Conversion toward zero, held at the ends of the integer range; not-a-number gives zero. -/
def toInt (x : UInt64) : Int64 :=
  if isNaN x then 0
  else
    let n : Int := wholePart x
    if isNegative x then
      if 0x8000000000000000 ≤ n then Int64.minValue else Int64.ofInt (-n)
    else
      if 0x8000000000000000 ≤ n then Int64.maxValue else Int64.ofInt n

/-- Rounding to an integral float; `away` says whether a fractional part moves the magnitude up. -/
def roundWhole (away : Bool) (x : UInt64) : UInt64 :=
  if 0 ≤ scale x then x
  else
    let n := wholePart x
    let isWhole := n <<< (-scale x).toNat = mantissa x
    ofExact (isNegative x) (if isWhole ∨ !away then n else n + 1) 0

/-- The greatest integral float that is not above `x`. -/
def floor (x : UInt64) : UInt64 := roundWhole (isNegative x) x

/-- The least integral float that is not below `x`. -/
def ceil (x : UInt64) : UInt64 := roundWhole (!isNegative x) x

/-- The remainder of truncated division, with the sign of `x`. -/
def mod (x y : UInt64) : UInt64 :=
  if isNaN x || isNaN y || isInfinite x || isZero y then nan
  else if isInfinite y then x
  else
    let e := min (scale x) (scale y)
    let m := mantissa x <<< (scale x - e).toNat
    let n := mantissa y <<< (scale y - e).toNat
    ofExact (isNegative x) (m % n) e

def add (x y : UInt64) : UInt64 := (Float.ofBits x + Float.ofBits y).toBits

def sub (x y : UInt64) : UInt64 := (Float.ofBits x - Float.ofBits y).toBits

def mul (x y : UInt64) : UInt64 := (Float.ofBits x * Float.ofBits y).toBits

def div (x y : UInt64) : UInt64 := (Float.ofBits x / Float.ofBits y).toBits

def pow (x y : UInt64) : UInt64 := (Float.pow (Float.ofBits x) (Float.ofBits y)).toBits

def sqrt (x : UInt64) : UInt64 := (Float.sqrt (Float.ofBits x)).toBits

/-- Negation flips the sign bit, of a not-a-number too. -/
def neg (x : UInt64) : UInt64 := x ^^^ signBit

/-- The absolute value clears the sign bit. -/
def abs (x : UInt64) : UInt64 := x &&& 0x7fffffffffffffff

/-- Ordered less-than: false as soon as one side is not a number. -/
def lt (x y : UInt64) : Bool := Float.ofBits x < Float.ofBits y

/-- Ordered less-or-equal: false as soon as one side is not a number. -/
def le (x y : UInt64) : Bool := Float.ofBits x ≤ Float.ofBits y

/-- Numeric equality: the two zeros are equal, a not-a-number equals nothing. -/
def eq (x y : UInt64) : Bool := Float.ofBits x == Float.ofBits y

end Binary64
end RegisterVM
