import RegisterVM.Kind
import RegisterVM.Scalar.Complex

/-!
# Operations on one scalar

What the unary opcodes and the kind-changing moves do to payload words, and between which kinds.
-/

namespace RegisterVM

namespace UnaryOp

/-- The kind of the operand and of the result. -/
def kind : UnaryOp → ScalarKind
  | notBool => .bool
  | notInt | negInt | bitNot => .int
  | negFloat => .float
  | negComplex => .complex

def apply (op : UnaryOp) (w : Words) : Words :=
  match op with
  | notBool => .single (Words.ofBool (!w.bool))
  | notInt => .single (Words.ofBool (w.int == 0))
  | negInt => .single (-w.int).toUInt64
  | negFloat => .single (Binary64.neg w.lo)
  | negComplex => Complex.neg w
  | bitNot => .single (~~~w.int).toUInt64

end UnaryOp

namespace Conversion

def source : Conversion → ScalarKind
  | intOfFloat | complexOfFloat => .float
  | floatOfInt | boolOfInt | complexOfInt => .int
  | intOfBool => .bool

def target : Conversion → ScalarKind
  | intOfFloat | intOfBool => .int
  | floatOfInt => .float
  | boolOfInt => .bool
  | complexOfInt | complexOfFloat => .complex

def apply (v : Conversion) (w : Words) : Words :=
  match v with
  | intOfFloat => .single (Binary64.toInt w.lo).toUInt64
  | floatOfInt => .single (Binary64.ofInt w.int)
  | intOfBool => .single (Words.ofBool w.bool)
  | boolOfInt => .single (Words.ofBool (w.int != 0))
  | complexOfInt => .single (Binary64.ofInt w.int)
  | complexOfFloat => .single w.lo

end Conversion

end RegisterVM
