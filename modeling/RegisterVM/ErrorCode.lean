/-!
# Error codes

The four causes for which an operation of the machine can fail, and the packed form in which
compiled code reports one together with the instruction it happened at:

`packed = code · 2 ^ 16 + index`, with `0` for success.
-/

namespace RegisterVM

/-- Why an operation failed. -/
inductive ErrorCode where
  | index
  | value
  | arithmetic
  | shape
deriving DecidableEq, Repr, Inhabited

namespace ErrorCode

/-- The number of a code; zero is kept for success. -/
def code : ErrorCode → Nat
  | index => 1
  | value => 2
  | arithmetic => 3
  | shape => 4

def ofCode? : Nat → Option ErrorCode
  | 1 => some index
  | 2 => some value
  | 3 => some arithmetic
  | 4 => some shape
  | _ => none

def name : ErrorCode → String
  | index => "Index"
  | value => "Value"
  | arithmetic => "Arithmetic"
  | shape => "Shape"

def message : ErrorCode → String
  | index => "Index error: index out of range"
  | value => "Value error: invalid value"
  | arithmetic => "Arithmetic error: division by zero"
  | shape => "Shape error: incompatible operands"

/-- The largest instruction index a packed report can carry. -/
def maxPackedIndex : Nat := 0xFFFF

/-- A nonzero status word of a code. -/
def status (c : ErrorCode) : Int32 := Int32.ofNat c.code

/-- The code of a status word; only its low sixteen bits count. -/
def ofStatus? (s : Int32) : Option ErrorCode := ofCode? (s.toUInt32.toNat % UInt16.size)

/-- Code and instruction index in one word. -/
def pack (c : ErrorCode) (index : Nat) : Int32 :=
  Int32.ofNat (c.code * UInt16.size + index % UInt16.size)

/-- Reads a packed report back; success and unknown codes give nothing. -/
def unpack? (packed : Int32) : Option (ErrorCode × Nat) :=
  let n := packed.toUInt32.toNat
  (ofCode? (n / UInt16.size)).map fun c => (c, n % UInt16.size)

/-- An error is read back from its code. -/
@[simp] theorem ofCode?_code (c : ErrorCode) : ofCode? c.code = some c := by
  cases c <;> rfl

end ErrorCode

end RegisterVM
