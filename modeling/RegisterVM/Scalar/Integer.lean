import RegisterVM.Binary64
import RegisterVM.ErrorCode
import RegisterVM.Opcode.Basic

/-!
# Integer arithmetic

Integers are 64-bit words in two's complement: sums, differences and products wrap, division
truncates, and dividing by zero is the only way to fail. Powers are computed in binary64 and
converted back. Indices may be negative, counting from the end.
-/

namespace RegisterVM

/-- The place a possibly negative index denotes among `len` items. -/
def normalizeIndex (i len : Int64) : Option Nat :=
  let j := if i < 0 then i + len else i
  if j.toUInt64 < len.toUInt64 then some j.toUInt64.toNat else none

/-- An index or the error for it. -/
def checkIndex (i len : Int64) : Except ErrorCode Nat :=
  match normalizeIndex i len with
  | some k => .ok k
  | none => .error .index

namespace Integer

/-- Truncated quotient; the least integer divided by minus one wraps to itself. -/
def div (x y : Int64) : Except ErrorCode Int64 :=
  if y = 0 then .error .arithmetic else .ok (x / y)

/-- The remainder of the truncated quotient. -/
def rem (x y : Int64) : Except ErrorCode Int64 :=
  if y = 0 then .error .arithmetic else .ok (x % y)

/-- The power taken in binary64 and converted back. -/
def pow (x y : Int64) : Int64 :=
  Binary64.toInt (Binary64.pow (Binary64.ofInt x) (Binary64.ofInt y))

end Integer

/-- An arithmetic operation on integers. -/
def ArithOp.int (op : ArithOp) (x y : Int64) : Except ErrorCode Int64 :=
  match op with
  | .add => .ok (x + y)
  | .sub => .ok (x - y)
  | .mul => .ok (x * y)
  | .div => Integer.div x y
  | .mod => Integer.rem x y
  | .pow => .ok (Integer.pow x y)

/-- A bit operation; shifts use the low six bits of the amount. -/
def BitOp.apply (op : BitOp) (x y : Int64) : Int64 :=
  match op with
  | .and => x &&& y
  | .or => x ||| y
  | .xor => x ^^^ y
  | .shl => x <<< y
  | .shr => x >>> y

def LogicOp.apply (op : LogicOp) (x y : Bool) : Bool :=
  match op with
  | .and => x && y
  | .or => x || y

namespace Relation

def int (rel : Relation) (x y : Int64) : Bool :=
  match rel with
  | lt => x < y
  | le => x ≤ y
  | eq => x == y
  | ne => x != y

/-- Float comparison; `ne` is the negation of `eq` and so holds of a not-a-number. -/
def float (rel : Relation) (x y : UInt64) : Bool :=
  match rel with
  | lt => Binary64.lt x y
  | le => Binary64.le x y
  | eq => Binary64.eq x y
  | ne => !Binary64.eq x y

/-- Reads a relation off a three-way comparison. -/
def ordering (rel : Relation) (o : Ordering) : Bool :=
  match rel with
  | lt => o == .lt
  | le => o != .gt
  | eq => o == .eq
  | ne => o != .eq

end Relation

end RegisterVM
