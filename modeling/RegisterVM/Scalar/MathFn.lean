import RegisterVM.Random.Generator

/-!
# The table of mathematical functions

Thirteen functions of one float, selected by number. All but the last are functions of their
argument alone; the last draws from the seeded generator.
-/

namespace RegisterVM

/-- A function of the table. -/
inductive MathFn where
  | sin
  | cos
  | tan
  | asin
  | acos
  | atan
  | exp
  | ln
  | sqrt
  | abs
  | ceil
  | floor
  | rand
deriving DecidableEq, Repr, Inhabited

namespace MathFn

/-- The table in numbering order. -/
def all : List MathFn :=
  [sin, cos, tan, asin, acos, atan, exp, ln, sqrt, abs, ceil, floor, rand]

/-- The function of a number. -/
def ofNumber? (n : Int) : Option MathFn := if n < 0 then none else all[n.toNat]?

def name : MathFn → String
  | sin => "Sin"
  | cos => "Cos"
  | tan => "Tan"
  | asin => "Asin"
  | acos => "Acos"
  | atan => "Atan"
  | exp => "Exp"
  | ln => "Ln"
  | sqrt => "Sqrt"
  | abs => "Abs"
  | ceil => "Ceil"
  | floor => "Floor"
  | rand => "Rand"

/-- A function of floats as a function of their patterns. -/
def onBits (f : Float → Float) (x : UInt64) : UInt64 := (f (Float.ofBits x)).toBits

/-- The value of a function at `x`, with the generator after a possible draw. -/
def apply (f : MathFn) (x : UInt64) (g : Random.Generator) : UInt64 × Random.Generator :=
  match f with
  | sin => (onBits Float.sin x, g)
  | cos => (onBits Float.cos x, g)
  | tan => (onBits Float.tan x, g)
  | asin => (onBits Float.asin x, g)
  | acos => (onBits Float.acos x, g)
  | atan => (onBits Float.atan x, g)
  | exp => (onBits Float.exp x, g)
  | ln => (onBits Float.log x, g)
  | sqrt => (Binary64.sqrt x, g)
  | abs => (Binary64.abs x, g)
  | ceil => (Binary64.ceil x, g)
  | floor => (Binary64.floor x, g)
  | rand => g.uniform x

end MathFn

end RegisterVM
