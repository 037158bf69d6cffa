import RegisterVM.Binary64

/-!
# Shortest decimals

A finite float `m · 2 ^ q` is what every real number in an interval around it rounds to: half way to
its neighbours on either side, the ends included when `m` is even. The shortest decimal of the float
is the multiple of the largest power of ten that lies in this interval. Of two such multiples it is
the nearer, and of two equally near the greater.

Everything is measured in quarters of the last place of the significand, so that the ends of the
interval are whole numbers.
-/

namespace RegisterVM
namespace Decimal

/-- A natural number times a power of ten. -/
structure Scaled where
  digits : Nat
  exponent : Int
deriving DecidableEq, Repr, Inhabited

/-- The interval of a float over a common denominator. -/
structure Interval where
  low : Nat
  value : Nat
  high : Nat
  denominator : Nat
  closed : Bool
deriving Repr

/-- The interval of reals that round to the magnitude of a finite nonzero pattern. -/
def Interval.ofBits (x : UInt64) : Interval :=
  let m := Binary64.mantissa x
  let q := Binary64.scale x - 2
  let below := if Binary64.fraction x = 0 ∧ 1 < Binary64.exponentField x then 1 else 2
  let up := Nat.pow 2 q.toNat
  { low := (4 * m - below) * up
    value := 4 * m * up
    high := (4 * m + 2) * up
    denominator := Nat.pow 2 (-q).toNat
    closed := m % 2 = 0 }

namespace Interval

/-- The interval with its denominator grown, or its numerators, to measure in units of `10 ^ e`. -/
def inUnits (i : Interval) (e : Int) : Interval :=
  let up := Nat.pow 10 (-e).toNat
  { low := i.low * up
    value := i.value * up
    high := i.high * up
    denominator := i.denominator * Nat.pow 10 e.toNat
    closed := i.closed }

/-- Whether the whole number `n` lies in the interval. -/
def holds (i : Interval) (n : Nat) : Bool :=
  let p := n * i.denominator
  if i.closed then i.low ≤ p && p ≤ i.high else i.low < p && p < i.high

/-- The whole number in the interval that is nearest to the value, the greater of two. -/
def nearest? (i : Interval) : Option Nat :=
  let n := i.value / i.denominator
  let fromBelow := i.value - n * i.denominator
  let fromAbove := (n + 1) * i.denominator - i.value
  if i.holds n && (fromBelow < fromAbove || !i.holds (n + 1)) then some n
  else if i.holds (n + 1) then some (n + 1)
  else none

end Interval

/-- A power of ten above the value of the interval. -/
def ceilingExponent (i : Interval) : Int :=
  ((i.high.log2 : Int) - i.denominator.log2 + 1) * 30103 / 100000 + 2

/-- The shortest decimal of a finite nonzero pattern, its sign left out. Seven hundred powers of ten
cover the whole range of the format. -/
def shortest (x : UInt64) : Scaled :=
  let i := Interval.ofBits x
  let top := ceilingExponent i
  let found := (List.range 700).findSome? fun (k : Nat) =>
    let e := top - (k : Int)
    (i.inUnits e).nearest?.map fun n => Scaled.mk n e
  found.getD default

end Decimal
end RegisterVM
