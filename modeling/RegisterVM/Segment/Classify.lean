import RegisterVM.Instruction
import RegisterVM.Opcode.Layout
import RegisterVM.Scalar.MathFn
import RegisterVM.Scalar.Unary
import RegisterVM.ValueType

/-!
# Which instructions can be compiled

An instruction can be compiled when its opcode is allowed and every register operand has a declared
type the opcode wants. Which opcodes are allowed is a table that can be overridden; the operand
rules always apply. Operands are looked up at their full width, so an operand outside the declared
registers is never acceptable. Case entries are accepted here and judged with their switch by the
segment finder.
-/

namespace RegisterVM

/-- What an opcode wants of the declared type of a register. -/
inductive Want where
  | scalar (kind : ScalarKind)
  | string
  | array (kind : ElementKind)
  | anyArray
  /-- a numeric array or an unboxed scalar -/
  | numeric
  | list
  | object
  | none
  /-- anything but an unboxed scalar -/
  | boxed
  /-- a tuple with an item at this position -/
  | tupleItem (i : Nat)
  /-- a tuple whose item at this position is a scalar of this kind -/
  | tupleScalar (i : Nat) (kind : ScalarKind)
deriving DecidableEq, Repr

/-- Whether a declared type is what is wanted. -/
def Want.admits : Want → ValueType → Bool
  | scalar kind, t => t.scalar? = some kind
  | string, .string => true
  | array kind, .array k => k = kind
  | anyArray, t => t.isArray
  | numeric, t => t.isArray || t.scalar?.isSome
  | list, .list _ => true
  | object, .object _ => true
  | none, .none => true
  | boxed, t => t.scalar?.isNone
  | tupleItem i, .tuple items => i < items.length
  | tupleScalar i kind, .tuple items => (items[i]?).any (·.scalar? = some kind)
  | _, _ => false

/-- Opcodes that have a compiled form at all. -/
def Opcode.isCompilable : Opcode → Bool
  | test .any | print | callSegment => false
  | _ => true

/-- The declared type of the register operand `r`. -/
def typeAt? (types : Array ValueType) (r : Int) : Option ValueType :=
  if r < 0 then none else types[r.toNat]?

/-- The kind of scalar an immediate of this tag makes in compiled code. -/
def Tag.immediateKind? : Tag → Option ScalarKind
  | .bool => some .bool
  | .int => some .int
  | .float => some .float
  | _ => Option.none

namespace Instruction

/-- The wanted types of the index registers after `base`. -/
def wantIndices (base count : Int) : List (Int × Want) :=
  (List.range count.toNat).map fun (k : Nat) => (base + 1 + k, .scalar .int)

/-- The same scalar kind wanted of several registers. -/
def wantScalars (kind : ScalarKind) (rs : List Int) : List (Int × Want) :=
  rs.map fun r => (r, .scalar kind)

/-- The wanted types of the register operands; nothing when an immediate operand already rules the
instruction out. -/
def wants (ins : Instruction) : Option (List (Int × Want)) :=
  let a := ins.a.toInt
  let b := ins.b.toInt
  let c := ins.c.toInt
  match ins.opcode with
  | .data =>
    ((Tag.ofCode? ins.a.toUInt32.toNat).bind Tag.immediateKind?).map fun kind => [(c, .scalar kind)]
  | .getConst => some [(c, .boxed)]
  | .move => some [(c, .boxed), (a, .boxed)]
  | .getConstScalar k => some [(c, .scalar k)]
  | .getConstString => some [(c, .string)]
  | .moveScalar k => some (wantScalars k [c, a])
  | .convert v => some [(c, .scalar v.target), (a, .scalar v.source)]
  | .moveString => some [(c, .string), (a, .string)]
  | .unary op => some (wantScalars op.kind [c, a])
  | .intArith _ | .intBits _ => some (wantScalars .int [c, a, b])
  | .logic _ => some (wantScalars .bool [c, a, b])
  | .floatArith _ => some (wantScalars .float [c, a, b])
  | .math => (MathFn.ofNumber? a).map fun _ => wantScalars .float [c, b]
  | .complexArith _ => some (wantScalars .complex [c, a, b])
  | .compareInt _ => some ((c, .scalar .bool) :: wantScalars .int [a, b])
  | .compareFloat _ => some ((c, .scalar .bool) :: wantScalars .float [a, b])
  | .compareComplex _ => some ((c, .scalar .bool) :: wantScalars .complex [a, b])
  | .compareString _ => some [(c, .scalar .bool), (a, .string), (b, .string)]
  | .arith _ => some [(c, .boxed), (a, .numeric), (b, .numeric)]
  | .assignAll => some [(c, .anyArray), (b, .none), (a, .numeric)]
  | .concat => some [(c, .string), (a, .string), (b, .string)]
  | .charAt => some [(c, .scalar .int), (a, .string), (b, .scalar .int)]
  | .setChar => some [(c, .string), (a, .scalar .int), (b, .scalar .int)]
  | .size .string => some [(c, .scalar .int), (a, .string)]
  | .size .array => some [(c, .scalar .int), (a, .anyArray)]
  | .size .list => some [(c, .scalar .int), (a, .list)]
  | .arrayGet k => some [(c, .scalar k.scalar), (a, .array k), (b, .scalar .int)]
  | .arraySet k => some [(c, .array k), (b, .scalar .int), (a, .scalar k.scalar)]
  | .arrayGetMulti k =>
    if b < 1 then none else some ((c, .scalar k.scalar) :: (a, .array k) :: wantIndices a b)
  | .arraySetMulti k =>
    if b < 1 then none else some ((c, .array k) :: (a, .scalar k.scalar) :: wantIndices c b)
  | .listGet k => some [(c, .scalar k.scalar), (a, .list), (b, .scalar .int)]
  | .listSet k => some [(c, .list), (b, .scalar .int), (a, .scalar k.scalar)]
  | .tupleGetAny => if b < 0 then none else some [(a, .tupleItem b.toNat)]
  | .tupleGet k => if b < 0 then none else some [(c, .scalar k), (a, .tupleScalar b.toNat k)]
  | .tupleSetAny => if b < 0 then none else some [(c, .tupleItem b.toNat)]
  | .tupleSet k => if b < 0 then none else some [(c, .tupleScalar b.toNat k), (a, .scalar k)]
  | .getVar .outer k => if a < 0 ∨ b < 0 then none else some [(c, .scalar k)]
  | .getVar _ k => if b < 0 then none else some [(c, .scalar k)]
  | .setVar .outer k => if b < 0 ∨ c < 0 then none else some [(a, .scalar k)]
  | .setVar _ k => if c < 0 then none else some [(a, .scalar k)]
  | .getField k => if b < 0 then none else some [(c, .scalar k), (a, .object)]
  | .setField k => if b < 0 then none else some [(c, .object), (a, .scalar k)]
  | .test .bool => some [(a, .scalar .bool)]
  | .test .int => some [(a, .scalar .int)]
  | .test .float => some [(a, .scalar .float)]
  | .nop | .goto | .test .any | .switch | .caseEntry | .ret | .print | .callSegment => some []

/-- Whether an operand of generic arithmetic is declared as a numeric array; without one, generic
arithmetic is left to the interpreter. -/
def hasArrayOperand (ins : Instruction) (types : Array ValueType) : Bool :=
  [ins.a, ins.b].any fun r => (typeAt? types r.toInt).any ValueType.isArray

end Instruction

/-- Which opcodes may be compiled. -/
structure Classifier where
  allows : Opcode → Bool

namespace Classifier

/-- Everything that has a compiled form. -/
def standard : Classifier := ⟨Opcode.isCompilable⟩

/-- The verdict for one opcode replaced. -/
def withOverride (k : Classifier) (op : Opcode) (allowed : Bool) : Classifier :=
  ⟨fun o => if o = op then allowed else k.allows o⟩

/-- Whether an instruction can be compiled, given the declared register types. -/
def isEligible (k : Classifier) (types : Array ValueType) (ins : Instruction) : Bool :=
  k.allows ins.opcode &&
    match ins.wants with
    | none => false
    | some wants =>
      (ins.opcode.arith?.isNone || ins.hasArrayOperand types) &&
        wants.all fun (r, want) => (typeAt? types r).any want.admits

end Classifier

end RegisterVM
