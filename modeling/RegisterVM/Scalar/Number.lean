import RegisterVM.Kind
import RegisterVM.Scalar.Complex
import RegisterVM.Scalar.Integer

/-!
# Numbers of any kind

Generic arithmetic first brings both operands to the wider of their kinds and then applies the
operation of that kind. Widening always succeeds, floats convert to integers, and a complex number
never narrows.
-/

namespace RegisterVM

/-- A numeric operand. -/
inductive Number where
  | int (value : Int64)
  | float (bits : UInt64)
  | complex (lanes : Words)
deriving DecidableEq, Repr, Inhabited

/-- An arithmetic operation on floats. -/
def ArithOp.float (op : ArithOp) (x y : UInt64) : UInt64 :=
  match op with
  | .add => Binary64.add x y
  | .sub => Binary64.sub x y
  | .mul => Binary64.mul x y
  | .div => Binary64.div x y
  | .mod => Binary64.mod x y
  | .pow => Binary64.pow x y

/-- An arithmetic operation on complex numbers, which have no remainder and no power. -/
def ArithOp.complex (op : ArithOp) (x y : Words) : Except ErrorCode Words :=
  match op with
  | .add => .ok (Complex.add x y)
  | .sub => .ok (Complex.sub x y)
  | .mul => .ok (Complex.mul x y)
  | .div => .ok (Complex.div x y)
  | .mod | .pow => .error .value

namespace Number

def kind : Number → ElementKind
  | int _ => .int
  | float _ => .float
  | complex _ => .complex

/-- The payload words of a number. -/
def words : Number → Words
  | int i => .single i.toUInt64
  | float x => .single x
  | complex z => z

/-- The number of an element kind in payload words. -/
def ofWords (kind : ElementKind) (w : Words) : Number :=
  match kind with
  | .int => int w.int
  | .float => float w.lo
  | .complex => complex w

/-- Conversion to a kind; only a complex number can fail to convert. -/
def convert (n : Number) (kind : ElementKind) : Except ErrorCode Number :=
  match n, kind with
  | int i, .int => .ok (int i)
  | int i, .float => .ok (float (Binary64.ofInt i))
  | int i, .complex => .ok (complex (.single (Binary64.ofInt i)))
  | float x, .int => .ok (int (Binary64.toInt x))
  | float x, .float => .ok (float x)
  | float x, .complex => .ok (complex (.single x))
  | complex z, .complex => .ok (complex z)
  | complex _, _ => .error .shape

/-- An operation on two numbers of one kind. -/
def applySame (op : ArithOp) (x y : Number) : Except ErrorCode Number :=
  match x, y with
  | int a, int b => (op.int a b).map int
  | float a, float b => .ok (float (op.float a b))
  | complex a, complex b => (op.complex a b).map complex
  | _, _ => .error .shape

/-- An operation on two numbers brought to a common kind. -/
def applyAt (op : ArithOp) (kind : ElementKind) (x y : Number) : Except ErrorCode Number := do
  let a ← x.convert kind
  let b ← y.convert kind
  applySame op a b

/-- Generic arithmetic on two numbers. -/
def apply (op : ArithOp) (x y : Number) : Except ErrorCode Number :=
  applyAt op (x.kind.join y.kind) x y

/-- A number is read from words with the kind that was asked for. -/
@[simp] theorem kind_ofWords (k : ElementKind) (w : Words) : (ofWords k w).kind = k := by
  cases k <;> rfl

/-- A number of the right kind is not converted. -/
@[simp] theorem convert_kind (n : Number) : n.convert n.kind = .ok n := by
  cases n <;> rfl

end Number

end RegisterVM
