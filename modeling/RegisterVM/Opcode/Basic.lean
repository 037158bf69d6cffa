import RegisterVM.Kind

/-!
# Opcodes

The instruction set, by family. A typed family is one constructor with the kind as its argument, so
that what holds for a family is said once.

Operands `a`, `b`, `c` are registers, immediates, constants or targets depending on the layout of
the opcode. Unless a layout says otherwise the destination register is `c` and the sources are `a`,
`b`.
-/

namespace RegisterVM

/-- The six arithmetic operations shared by integers, floats and generic arithmetic. -/
inductive ArithOp where
  | add
  | sub
  | mul
  | div
  | mod
  | pow
deriving DecidableEq, Repr, Inhabited

/-- Integer operations on bits. -/
inductive BitOp where
  | and
  | or
  | xor
  | shl
  | shr
deriving DecidableEq, Repr, Inhabited

/-- Boolean operations. -/
inductive LogicOp where
  | and
  | or
deriving DecidableEq, Repr, Inhabited

/-- The four operations on complex numbers. -/
inductive FieldOp where
  | add
  | sub
  | mul
  | div
deriving DecidableEq, Repr, Inhabited

/-- Operations on one scalar of one kind. -/
inductive UnaryOp where
  | notBool
  | notInt
  | negInt
  | negFloat
  | negComplex
  | bitNot
deriving DecidableEq, Repr, Inhabited

/-- Moves that change the scalar kind, named destination first. -/
inductive Conversion where
  | intOfFloat
  | floatOfInt
  | intOfBool
  | boolOfInt
  | complexOfInt
  | complexOfFloat
deriving DecidableEq, Repr, Inhabited

/-- Comparisons of ordered values. -/
inductive Relation where
  | lt
  | le
  | eq
  | ne
deriving DecidableEq, Repr, Inhabited

/-- Comparisons of values without an order. -/
inductive Equality where
  | eq
  | ne
deriving DecidableEq, Repr, Inhabited

/-- Heap values that have a size. -/
inductive Sized where
  | string
  | array
  | list
deriving DecidableEq, Repr, Inhabited

/-- Where a variable outside the register file lives. -/
inductive StorageClass where
  | receiver
  | statics
  | globals
  | outer
deriving DecidableEq, Repr, Inhabited

/-- What a conditional jump looks at. -/
inductive TestKind where
  | bool
  | int
  | float
  | any
deriving DecidableEq, Repr, Inhabited

/-- The instruction set. -/
inductive Opcode where
  /-- no effect -/
  | nop
  /-- `rC` gets the immediate `b`, read by tag `a` -/
  | data
  /-- `rC` gets constant `b`, whatever it is -/
  | getConst
  | getConstScalar (kind : ScalarKind)
  | getConstString
  /-- `rC` gets `rA`, whatever it is -/
  | move
  | moveScalar (kind : ScalarKind)
  | convert (conversion : Conversion)
  | moveString
  | unary (op : UnaryOp)
  | intArith (op : ArithOp)
  | intBits (op : BitOp)
  | logic (op : LogicOp)
  | floatArith (op : ArithOp)
  /-- `rC` gets function `a` of `rB` -/
  | math
  | complexArith (op : FieldOp)
  | compareInt (rel : Relation)
  | compareFloat (rel : Relation)
  | compareComplex (rel : Equality)
  | compareString (rel : Relation)
  /-- arithmetic on any numeric values, elementwise on arrays -/
  | arith (op : ArithOp)
  /-- every element of array `rC` gets `rA`; `rB` must hold none -/
  | assignAll
  | concat
  | charAt
  | setChar
  | size (of : Sized)
  | arrayGet (kind : ElementKind)
  | arraySet (kind : ElementKind)
  /-- one index per dimension, in the `b` registers after `rA` -/
  | arrayGetMulti (kind : ElementKind)
  /-- one index per dimension, in the `b` registers after `rC` -/
  | arraySetMulti (kind : ElementKind)
  | listGet (kind : ElementKind)
  | listSet (kind : ElementKind)
  /-- item `b`, checked against the type of `rC` -/
  | tupleGetAny
  | tupleGet (kind : ScalarKind)
  /-- item `b`, checked against the item type of `rC` -/
  | tupleSetAny
  | tupleSet (kind : ScalarKind)
  | getVar (storage : StorageClass) (kind : ScalarKind)
  | setVar (storage : StorageClass) (kind : ScalarKind)
  | getField (kind : ScalarKind)
  | setField (kind : ScalarKind)
  /-- jump to `b` -/
  | goto
  /-- jump to `b` when `rA` is false or zero -/
  | test (kind : TestKind)
  /-- dispatch on `rA` over the `c` case entries that follow, `b` being the default -/
  | switch
  /-- constant `a` dispatches to `b` -/
  | caseEntry
  /-- leave the routine, with `rA` when `b` is not zero -/
  | ret
  | print
  /-- run compiled segment `a`, which stands for `b` instructions -/
  | callSegment
deriving DecidableEq, Repr, Inhabited

namespace Opcode

/-- A jump with one target, in `b`. -/
def isJump : Opcode → Bool
  | goto | test _ => true
  | _ => false

/-- Any opcode with an explicit target. -/
def isBranch : Opcode → Bool
  | switch => true
  | op => op.isJump

/-- A jump that may also fall through. -/
def isTest : Opcode → Bool
  | test _ => true
  | _ => false

/-- A typed comparison that yields a bool. -/
def isComparison : Opcode → Bool
  | compareInt _ | compareFloat _ | compareComplex _ | compareString _ => true
  | _ => false

/-- The generic arithmetic operation of an opcode, if it is one. -/
def arith? : Opcode → Option ArithOp
  | arith op => some op
  | _ => none

/-- Control never reaches the next instruction. -/
def isTerminator : Opcode → Bool
  | goto | switch | ret => true
  | _ => false

end Opcode

end RegisterVM
