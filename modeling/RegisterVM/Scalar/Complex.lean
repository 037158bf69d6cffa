import RegisterVM.Binary64
import RegisterVM.Opcode.Basic
import RegisterVM.Words

/-!
# Complex arithmetic

A complex number is a pair of binary64 lanes. Division multiplies by the conjugate and divides both
lanes by the squared modulus.
-/

namespace RegisterVM
namespace Complex

def add (x y : Words) : Words := ⟨Binary64.add x.lo y.lo, Binary64.add x.hi y.hi⟩

def sub (x y : Words) : Words := ⟨Binary64.sub x.lo y.lo, Binary64.sub x.hi y.hi⟩

def mul (x y : Words) : Words :=
  ⟨Binary64.sub (Binary64.mul x.lo y.lo) (Binary64.mul x.hi y.hi),
    Binary64.add (Binary64.mul x.lo y.hi) (Binary64.mul x.hi y.lo)⟩

def div (x y : Words) : Words :=
  let norm := Binary64.add (Binary64.mul y.lo y.lo) (Binary64.mul y.hi y.hi)
  ⟨Binary64.div (Binary64.add (Binary64.mul x.lo y.lo) (Binary64.mul x.hi y.hi)) norm,
    Binary64.div (Binary64.sub (Binary64.mul x.hi y.lo) (Binary64.mul x.lo y.hi)) norm⟩

def neg (x : Words) : Words := ⟨Binary64.neg x.lo, Binary64.neg x.hi⟩

/-- Equal in both lanes. -/
def eq (x y : Words) : Bool := Binary64.eq x.lo y.lo && Binary64.eq x.hi y.hi

end Complex

def FieldOp.complex (op : FieldOp) (x y : Words) : Words :=
  match op with
  | .add => Complex.add x y
  | .sub => Complex.sub x y
  | .mul => Complex.mul x y
  | .div => Complex.div x y

def Equality.complex (rel : Equality) (x y : Words) : Bool :=
  match rel with
  | .eq => Complex.eq x y
  | .ne => !Complex.eq x y

end RegisterVM
