import RegisterVM.Heap.Element
import RegisterVM.Heap.Text
import RegisterVM.Machine.Place
import RegisterVM.Routine
import RegisterVM.Scalar.MathFn
import RegisterVM.Scalar.Unary

/-!
# One instruction

`step` executes one instruction of a routine and says where control goes. Typed reads take the
payload words of a register whatever its tag says; typed results are stored with the tag of the
destination's declared type. Everything that can fail is tried before anything changes, so a failing
instruction leaves the state as it found it, except that views it looked at may have been copied
out.

What an instruction does is written once, for any kind of actions that can reach registers
(`Machine`). Actions on the machine state are one kind.
-/

namespace RegisterVM

/-- Where control goes after an instruction. -/
inductive Flow where
  | next
  | jump (target : Nat)
  | ret (v : Value)
deriving DecidableEq, Repr

/-- Payload words stored as a scalar of a kind, in a register of type `t`. -/
def ScalarKind.value (kind : ScalarKind) (t : ValueType) (w : Words) : Value :=
  match kind with
  | bool => .ofBool w.bool
  | int =>
    match t with
    | .enum => .ofEnum w.int
    | _ => .ofInt w.int
  | float => .ofFloat w.lo
  | complex => .ofComplex w

/-- Actions that instructions can be made of. The registers are reached in four ways, and everything
else by actions on the rest of the state. -/
class Machine (M : Type → Type) where
  /-- the value of a register -/
  register : Nat → M Value
  /-- hands a value over to a register -/
  put : Nat → Value → M Unit
  /-- stores a copy of a value in a register -/
  write : Nat → Value → M Unit
  /-- puts a value into a register with no account of references -/
  overwrite : Nat → Value → M Unit
  /-- an action that needs no registers -/
  other : Exec α → M α

instance : Machine Exec where
  register := Exec.register
  put i v := Exec.put (.register i) v
  write i v := Exec.write (.register i) v
  overwrite i v := Exec.overwrite (.register i) fun _ => v
  other m := m

namespace Step

open Exec

/-! ### Actions without registers -/

/-- The declared type of the register an operand names. -/
def typeOf (r : Routine) (x : Int32) : Exec ValueType :=
  match r.types[placeOf x]? with
  | some t => pure t
  | none => throw (.fault (.register (placeOf x)))

/-- The constant an operand names. -/
def constant (r : Routine) (x : Int32) : Exec Value :=
  match r.constants[placeOf x]? with
  | some v => pure v
  | none => throw (.fault (.constant (placeOf x)))

/-- The operand that names the register `k` places after `base`. Operands are added as words, and a
sum that leaves their range stops the machine. -/
def following (base : Int32) (k : Nat) : Exec Int32 :=
  if base.toInt + k < 2147483648 then pure (base + Int32.ofNat k) else throw (.fault .overflow)

/-- The target of the first case entry whose constant is the discriminant. -/
def caseTarget? (r : Routine) (d : Int64) : List Instruction → Exec (Option Nat)
  | [] => return none
  | entry :: rest => do
    let k ← constant r entry.a
    if k.int? = some d then return some entry.target else caseTarget? r d rest

/-- Where a value leads over the case entries that follow. -/
def select (r : Routine) (pc : Nat) (ins : Instruction) (v : Value) : Exec Flow := do
  let count := placeOf ins.c
  if r.code.size ≤ pc + count then throw (.fault (.caseTable pc))
  match v.int? with
  | none => return .jump ins.target
  | some d =>
    let entries := (r.code.extract (pc + 1) (pc + 1 + count)).toList
    return .jump ((← caseTarget? r d entries).getD ins.target)

/-- Applies a mathematical function, which may draw from the generator. -/
def applyMath (f : MathFn) (x : UInt64) : Exec UInt64 :=
  modifyGet fun ⟨frame, names, heap, output, random⟩ =>
    let (y, random) := f.apply x random
    (y, ⟨frame, names, heap, output, random⟩)

/-- Prints a line. -/
def printLine (text : String) : Exec Unit :=
  modify fun ⟨frame, names, heap, output, random⟩ =>
    ⟨frame, names, heap, output ++ text ++ "\n", random⟩

/-- The tag a sized value has to carry. -/
def sizedTag : Sized → Tag
  | .string => .string
  | .array => .array
  | .list => .list

end Step

namespace Machine

open Exec Step

variable {M : Type → Type} [Monad M] [Machine M]

/-! ### Operands -/

/-- The value of the register an operand names. -/
def reg (x : Int32) : M Value := register (placeOf x)

/-- The payload words of the register an operand names. -/
def words (x : Int32) : M Words := return (← reg x).words

/-- The register an operand names, read as an integer. -/
def int (x : Int32) : M Int64 := return (← words x).int

/-- Hands a value over to the register an operand names. -/
def set (x : Int32) (v : Value) : M Unit := put (placeOf x) v

/-- Stores a copy of a value in the register an operand names. -/
def copyTo (x : Int32) (v : Value) : M Unit := write (placeOf x) v

/-- Stores a typed result. -/
def setScalar (r : Routine) (x : Int32) (kind : ScalarKind) (w : Words) : M Unit := do
  let t ← other (typeOf r x)
  set x (kind.value t w)

def setInt (r : Routine) (x : Int32) (i : Int64) : M Unit :=
  setScalar r x .int (.single i.toUInt64)

def setFloat (r : Routine) (x : Int32) (bits : UInt64) : M Unit :=
  setScalar r x .float (.single bits)

def setBool (r : Routine) (x : Int32) (b : Bool) : M Unit :=
  setScalar r x .bool (.single (Words.ofBool b))

/-- The integers in the `count` registers after `base`. -/
def indices (base count : Int32) : M (List Int64) :=
  (List.range (countOf count)).mapM fun k => do int (← other (following base (k + 1)))

/-- What is at position `i` of the container in a register. -/
def readItem (kind : ObjectKind) (x : Int32) (i : Nat) : M Value := do
  other (onHeap (Heap.readSlot kind (← reg x) i))

/-- Puts a value at position `i` of the container in a register, with no account of references. -/
def overwriteItem (kind : ObjectKind) (x : Int32) (i : Nat) (v : Value) : M Unit := do
  other (onHeap (Heap.overwriteSlot kind (← reg x) i fun _ => v))

/-- Stores a copy of a value at position `i` of the container in a register. -/
def writeItem (kind : ObjectKind) (x : Int32) (i : Nat) (v : Value) : M Unit := do
  let old ← readItem kind x i
  let _ ← other (onHeap (Heap.clone v))
  overwriteItem kind x i v
  other (onHeap (Heap.discard old))

/-! ### Instructions -/

/-- Stores the immediate of a data instruction. -/
def data (r : Routine) (ins : Instruction) : M Unit :=
  match Tag.ofCode? ins.a.toUInt32.toNat with
  | some .none => set ins.c .none
  | some .bool => setBool r ins.c (ins.b ≠ 0)
  | some .int => setInt r ins.c ins.b.toInt64
  | some .float => setFloat r ins.c (Binary64.ofInt ins.b.toInt64)
  | some .enum => set ins.c (.ofEnum ins.b.toInt64)
  | _ => other (fail .value)

/-- Whether the register of a test counts as true. -/
def testHolds (kind : TestKind) (x : Int32) : M Bool := do
  let v ← reg x
  match kind with
  | .bool | .int => return v.words.bool
  | .float => return !Binary64.eq v.words.lo 0
  | .any => return (← other get).heap.truthy v

/-- Dispatches on a register over the case entries that follow. -/
def dispatch (r : Routine) (pc : Nat) (ins : Instruction) : M Flow := do
  other (select r pc ins (← reg ins.a))

/-- Executes an instruction that does not transfer control. -/
def effect (r : Routine) (ins : Instruction) : M Unit := do
  let (a, b, c) := (ins.a, ins.b, ins.c)
  match ins.opcode with
  | .data => data r ins
  | .getConst | .getConstString => copyTo c (← other (constant r b))
  | .getConstScalar k => setScalar r c k (← other (constant r b)).words
  | .move | .moveString => copyTo c (← reg a)
  | .moveScalar k => setScalar r c k (← words a)
  | .convert v => setScalar r c v.target (v.apply (← words a))
  | .unary op => setScalar r c op.kind (op.apply (← words a))
  | .intArith op => setInt r c (← other (ofExcept (op.int (← int a) (← int b))))
  | .intBits op => setInt r c (op.apply (← int a) (← int b))
  | .logic op => setBool r c (op.apply (← words a).bool (← words b).bool)
  | .floatArith op => setFloat r c (op.float (← words a).lo (← words b).lo)
  | .math =>
    match MathFn.ofNumber? a.toInt with
    | some f => setFloat r c (← other (applyMath f (← words b).lo))
    | none => other (fail .value)
  | .complexArith op => setScalar r c .complex (op.complex (← words a) (← words b))
  | .compareInt rel => setBool r c (rel.int (← int a) (← int b))
  | .compareFloat rel => setBool r c (rel.float (← words a).lo (← words b).lo)
  | .compareComplex rel => setBool r c (rel.complex (← words a) (← words b))
  | .compareString rel =>
    let x ← reg a
    let y ← reg b
    setBool r c (rel.ordering ((← other get).heap.compareStrings x y))
  | .arith op => set c (← other (onHeap (Heap.genericArith op (← reg a) (← reg b))))
  | .assignAll =>
    other (checkTag (← reg b) (some .none))
    other (onHeap (Heap.assignAll (← reg c) (← reg a)))
  | .concat => set c (← other (onHeap (Heap.concat (← reg a) (← reg b))))
  | .charAt => setInt r c (← other (onHeap (Heap.charAt (← reg a) (← int b))))
  | .setChar =>
    let v ← other (onHeap (Heap.setChar (← reg c) (← int b) (← int a)))
    overwrite (placeOf c) v
  | .size s =>
    other (checkTag (← reg a) (some (sizedTag s)))
    setInt r c (← other (onHeap (Heap.size (← reg a))))
  | .arrayGet k =>
    setScalar r c k.scalar (← other (onHeap (Heap.arrayGet (← reg a) (← int b)))).words
  | .arraySet _ => other (onHeap (Heap.arraySet (← reg c) (← int b) (← words a)))
  | .arrayGetMulti k =>
    let is ← indices a b
    setScalar r c k.scalar (← other (onHeap (Heap.arrayGetMulti (← reg a) is))).words
  | .arraySetMulti _ =>
    let is ← indices c b
    other (onHeap (Heap.arraySetMulti (← reg c) is (← words a)))
  | .listGet k =>
    let item ← other (onHeap (Heap.listItem (← reg a) (← int b)))
    other (checkTag item (some ((← other (typeOf r c)).listItemTag k)))
    copyTo c item
  | .listSet _ => other (onHeap (Heap.listSet (← reg c) (← int b) (← reg a)))
  | .tupleGetAny =>
    let item ← readItem .tuple a (placeOf b)
    other (checkTag item (← other (typeOf r c)).tag?)
    copyTo c item
  | .tupleGet k => setScalar r c k (← readItem .tuple a (placeOf b)).words
  | .tupleSetAny =>
    let v ← reg a
    other (checkTag v ((← other (typeOf r c)).itemTag? (placeOf b)))
    writeItem .tuple c (placeOf b) v
  | .tupleSet _ => writeItem .tuple c (placeOf b) (← reg a)
  | .getVar s k => setScalar r c k (← other (read (ins.sourceVariable s))).words
  | .setVar s _ => other (Exec.write (ins.targetVariable s) (← reg a))
  | .getField k => setScalar r c k (← readItem .object a (placeOf b)).words
  | .setField _ => writeItem .object c (placeOf b) (← reg a)
  | .print => other (printLine (← other (onHeap (Heap.text (← reg a)))))
  | .caseEntry | .callSegment => other (throw (.notExecutable ins.opcode))
  | .nop | .goto | .test _ | .switch | .ret => pure ()

/-- Executes the instruction `ins` at `pc`. -/
def step (r : Routine) (pc : Nat) (ins : Instruction) : M Flow := do
  match ins.opcode with
  | .goto => return .jump ins.target
  | .test kind => if ← testHolds kind ins.a then return .next else return .jump ins.target
  | .switch => dispatch r pc ins
  | .ret =>
    if ins.b = 0 then return .ret .none
    else
      let v ← reg ins.a
      return .ret (← other (onHeap (Heap.clone v)))
  | _ =>
    effect r ins
    return .next

end Machine

/-! ### On the machine state -/

namespace Step

abbrev reg : Int32 → Exec Value := Machine.reg
abbrev words : Int32 → Exec Words := Machine.words
abbrev int : Int32 → Exec Int64 := Machine.int
abbrev set : Int32 → Value → Exec Unit := Machine.set
abbrev copyTo : Int32 → Value → Exec Unit := Machine.copyTo
abbrev setScalar : Routine → Int32 → ScalarKind → Words → Exec Unit := Machine.setScalar
abbrev setInt : Routine → Int32 → Int64 → Exec Unit := Machine.setInt
abbrev setFloat : Routine → Int32 → UInt64 → Exec Unit := Machine.setFloat
abbrev setBool : Routine → Int32 → Bool → Exec Unit := Machine.setBool
abbrev indices : Int32 → Int32 → Exec (List Int64) := Machine.indices
abbrev readItem : ObjectKind → Int32 → Nat → Exec Value := Machine.readItem
abbrev writeItem : ObjectKind → Int32 → Nat → Value → Exec Unit := Machine.writeItem
abbrev data : Routine → Instruction → Exec Unit := Machine.data
abbrev testHolds : TestKind → Int32 → Exec Bool := Machine.testHolds
abbrev dispatch : Routine → Nat → Instruction → Exec Flow := Machine.dispatch
abbrev effect : Routine → Instruction → Exec Unit := Machine.effect

end Step

@[inherit_doc Machine.step]
def step : Routine → Nat → Instruction → Exec Flow := Machine.step

end RegisterVM
