import RegisterVM.Instruction
import RegisterVM.Opcode.Layout
import RegisterVM.Value

/-!
# Routines

A routine is its code, the declared types of its registers and its constants. Code is checked once,
when the routine is made:

* every register operand names a declared register, spans of index registers included;
* every constant operand names a constant;
* every jump lands in the code or right behind it;
* a switch is followed by exactly the case entries it announces, and case entries stand nowhere
  else;
* the marker that calls compiled code does not occur.

The first fault in code order is the one reported. A `Routine` carries the evidence that its code
passed.
-/

namespace RegisterVM

/-- Why code was refused. -/
inductive RoutineError where
  | register (index : Nat) (reg : Int)
  | target (index : Nat) (target : Int)
  | constant (index : Nat) (constant : Int)
  | malformedSwitch (index : Nat)
  | strayCase (index : Nat)
  | reserved (index : Nat) (opcode : Opcode)
deriving DecidableEq, Repr

/-- The kind of a fault. -/
def RoutineError.name : RoutineError → String
  | register _ _ => "RegisterOutOfRange"
  | target _ _ => "TargetOutOfRange"
  | constant _ _ => "ConstantOutOfRange"
  | malformedSwitch _ => "MalformedSwitch"
  | strayCase _ => "StrayCase"
  | reserved _ _ => "Reserved"

def RoutineError.message : RoutineError → String
  | register i r =>
    "Register r" ++ toString r ++ " out of range at instruction " ++ toString i
  | target i t =>
    "Jump target " ++ toString t ++ " out of range at instruction " ++ toString i
  | constant i k =>
    "Constant " ++ toString k ++ " out of range at instruction " ++ toString i
  | malformedSwitch i => "Malformed switch at instruction " ++ toString i
  | strayCase i => "Case outside a switch at instruction " ++ toString i
  | reserved i op =>
    "Opcode " ++ op.mnemonic ++ " cannot appear in source routines (instruction "
      ++ toString i ++ ")"

/-- The bounds operands are checked against. -/
structure Bounds where
  instructions : Nat
  registers : Nat
  constants : Nat
deriving DecidableEq, Repr

namespace Bounds

/-- Operand `r` of instruction `i` names a register. -/
def register (n : Bounds) (i : Nat) (r : Int) : Except RoutineError Unit :=
  if 0 ≤ r ∧ r < n.registers then .ok () else .error (.register i r)

/-- Operand `t` of instruction `i` is a jump target; the place behind the code is one. -/
def target (n : Bounds) (i : Nat) (t : Int) : Except RoutineError Unit :=
  if 0 ≤ t ∧ t ≤ n.instructions then .ok () else .error (.target i t)

/-- Operand `k` of instruction `i` names a constant. -/
def constant (n : Bounds) (i : Nat) (k : Int) : Except RoutineError Unit :=
  if 0 ≤ k ∧ k < n.constants then .ok () else .error (.constant i k)

end Bounds

namespace Opcode

/-- Whether operand `b` of a load names a constant. -/
def loadsConstant : Opcode → Bool
  | getConst | getConstScalar _ | getConstString => true
  | _ => false

end Opcode

namespace Instruction

/-- The operands of instruction `i` are in bounds. -/
def check (n : Bounds) (i : Nat) (ins : Instruction) : Except RoutineError Unit := do
  let a := ins.a.toInt
  let b := ins.b.toInt
  let c := ins.c.toInt
  match ins.opcode.layout with
  | .empty =>
    if ins.opcode = .callSegment then throw (.reserved i ins.opcode)
    if ins.opcode = .goto then n.target i b
  | .loadC =>
    n.register i c
    if ins.opcode.loadsConstant then n.constant i b
  | .unaryAC | .staticGet | .staticSet =>
    n.register i a
    n.register i c
  | .unaryBC =>
    n.register i b
    n.register i c
  | .binaryABC | .indexSet | .indexUpdate =>
    n.register i a
    n.register i b
    n.register i c
  | .multiGet =>
    n.register i a
    n.register i (a + b)
    n.register i c
  | .multiSet =>
    n.register i a
    n.register i c
    n.register i (c + b)
  | .readA | .storeA => n.register i a
  | .testA =>
    n.register i a
    n.target i b
  | .switch =>
    n.register i a
    n.target i b
    if c < 0 ∨ (n.instructions : Int) ≤ i + c then throw (.malformedSwitch i)
  | .caseEntry =>
    n.constant i a
    n.target i b
  | .ret => if b ≠ 0 then n.register i a

end Instruction

/-- Checks code from instruction `i` on, with `cases` entries still owed to the last switch. -/
def checkFrom (n : Bounds) : (i cases : Nat) → List Instruction → Except RoutineError Unit
  | _, _, [] => .ok ()
  | i, cases, ins :: rest =>
    if ins.opcode = .caseEntry then
      if cases = 0 then .error (.strayCase i)
      else
        match ins.check n i with
        | .error e => .error e
        | .ok _ => checkFrom n (i + 1) (cases - 1) rest
    else if cases ≠ 0 then .error (.malformedSwitch i)
    else
      match ins.check n i with
      | .error e => .error e
      | .ok _ => checkFrom n (i + 1) (if ins.opcode = .switch then ins.caseCount else 0) rest

/-- Checks all of a routine's code. -/
def checkCode (code : Array Instruction) (registers constants : Nat) : Except RoutineError Unit :=
  checkFrom ⟨code.size, registers, constants⟩ 0 0 code.toList

/-- Checked code with its register types and constants. -/
structure Routine where
  name : String
  code : Array Instruction
  types : Array ValueType
  constants : Array Value
  checked : checkCode code types.size constants.size = .ok ()

/-- The routine made of these parts, if its code is sound. -/
def Routine.ofParts (name : String) (code : Array Instruction) (types : Array ValueType)
    (constants : Array Value) : Except RoutineError Routine :=
  match h : checkCode code types.size constants.size with
  | .ok () => .ok ⟨name, code, types, constants, h⟩
  | .error e => .error e

end RegisterVM
