import RegisterVM.Machine.Place
import RegisterVM.Native.Plan
import RegisterVM.Scalar.MathFn

/-!
# Compiled code

Compiled code has a variable for every scalar register its plan names, and reaches everything else
through places. It has one step for each instruction of its segment: operations done in order, then
a transfer of control. An operation that fails ends the code with the index of its instruction.

| part | does |
| --- | --- |
| `entry` | variables loaded from their registers before the first step |
| `body` | the steps, the first for the first instruction of the range |
| `flush` | variables stored into their registers at every exit, also after a failure |

A value is stored with the tag of its register's declared type. Storing a one-word scalar leaves the
second word of the slot as it was.
-/

namespace RegisterVM
namespace Native

/-- A scalar computed from variables and places. Operands named `slot` are registers of the frame,
the others are variables. -/
inductive Expr where
  | const (w : Words)
  | var (x : Reg)
  | unary (op : UnaryOp) (x : Reg)
  | convert (v : Conversion) (x : Reg)
  | intArith (op : ArithOp) (x y : Reg)
  | intBits (op : BitOp) (x y : Reg)
  | logic (op : LogicOp) (x y : Reg)
  | floatArith (op : ArithOp) (x y : Reg)
  | math (f : MathFn) (x : Reg)
  | complexArith (op : FieldOp) (x y : Reg)
  | compareInt (rel : Relation) (x y : Reg)
  | compareFloat (rel : Relation) (x y : Reg)
  | compareComplex (rel : Equality) (x y : Reg)
  | compareString (rel : Relation) (slot slot' : Reg)
  | charAt (slot i : Reg)
  | size (of : Sized) (slot : Reg)
  /-- element `i` of the array in `slot`, taken as an element of kind `kind` -/
  | element (kind : ElementKind) (slot i : Reg)
  | elementMulti (kind : ElementKind) (slot : Reg) (count : Int) (indices : List Reg)
  | load (p : Place)
deriving DecidableEq, Repr

/-- One operation of compiled code. -/
inductive Op where
  | assign (x : Reg) (e : Expr)
  /-- stores variable `x` at a place, under a tag -/
  | store (p : Place) (x : Reg) (tag : ScalarTag)
  /-- loads variable `x` from its register -/
  | reload (x : Reg)
  | check (slot : Reg) (expected : Option Tag)
  | loadConstant (dst : Reg) (constant : Nat)
  /-- copies a value whose tag is as expected -/
  | move (dst src : Place) (expected : Option Tag)
  | arrayArith (op : ArithOp) (dst slot slot' : Reg)
  | assignAll (dst src : Reg)
  | concat (dst slot slot' : Reg)
  | setChar (dst i ch : Reg)
  | setElement (kind : ElementKind) (slot i x : Reg)
  | setElementMulti (kind : ElementKind) (slot : Reg) (count : Int) (indices : List Reg) (x : Reg)
  | listGet (dst list i : Reg) (expected : Tag)
  | listSet (list i src : Reg)
deriving DecidableEq, Repr

/-- What a conditional branch looks at. -/
inductive Cond where
  /-- the word of a scalar is not zero -/
  | word (e : Expr)
  /-- a float does not equal zero -/
  | float (x : Reg)
deriving DecidableEq, Repr

/-- Where control goes after the operations of a step. -/
inductive Next where
  | fall
  | jump (t : Target)
  | branch (cond : Cond) (yes no : Target)
  | switch (x : Reg) (cases : List (Int64 × Target)) (other : Target)
  /-- leave and let the interpreter execute this instruction -/
  | leave
deriving DecidableEq, Repr

/-- The compiled form of one instruction. -/
structure CodeStep where
  ops : List Op
  next : Next
deriving DecidableEq, Repr

/-- The compiled form of a segment. -/
structure Code where
  range : IndexRange
  /-- variables have registers below this number -/
  width : Nat
  entry : List Reg
  body : Array CodeStep
  flush : List (Reg × ScalarTag)
deriving DecidableEq, Repr

end Native
end RegisterVM
