import RegisterVM.Opcode.Table

/-!
# Instructions

An instruction is an opcode with three 32-bit operands and the source line it came from. Where an
operand names a register the analyses read its low sixteen bits; where it names a place in the code
or in a container it is widened to a 64-bit word with its sign, so a negative operand becomes a
place past every end.
-/

namespace RegisterVM

/-- A register as the analyses and compiled code name it. -/
abbrev Reg := UInt16

/-- One decoded instruction. -/
structure Instruction where
  opcode : Opcode
  a : Int32
  b : Int32
  c : Int32
  line : UInt32 := 0
deriving DecidableEq, Repr, Inhabited

/-- The register number in the low sixteen bits of an operand. -/
def Reg.ofOperand (x : Int32) : Reg := x.toUInt32.toUInt16

/-- An operand as a place: widened with its sign to an unsigned 64-bit word. -/
def placeOf (x : Int32) : Nat := x.toInt64.toUInt64.toNat

/-- A count operand; negative counts are none. -/
def countOf (x : Int32) : Nat := x.toInt.toNat

namespace Instruction

def ra (i : Instruction) : Reg := Reg.ofOperand i.a

def rb (i : Instruction) : Reg := Reg.ofOperand i.b

def rc (i : Instruction) : Reg := Reg.ofOperand i.c

/-- The jump target, operand `b` as a place. -/
def target (i : Instruction) : Nat := placeOf i.b

/-- The number of case entries a switch announces. -/
def caseCount (i : Instruction) : Nat := countOf i.c

/-- `text` with blanks after it, up to `width` characters. -/
def padRight (width : Nat) (text : String) : String :=
  text ++ "".pushn ' ' (width - text.length)

/-- `text` with blanks before it, up to `width` characters. -/
def padLeft (width : Nat) (text : String) : String :=
  "".pushn ' ' (width - text.length) ++ text

/-- The mnemonic in fourteen columns and each operand in five. -/
def text (i : Instruction) : String :=
  padRight 14 i.opcode.mnemonic ++ " " ++ padLeft 5 (toString i.a.toInt) ++ " "
    ++ padLeft 5 (toString i.b.toInt) ++ " " ++ padLeft 5 (toString i.c.toInt)

end Instruction

/-- One line per instruction, each with its index. -/
def listing (code : Array Instruction) : String :=
  String.join (code.toList.zipIdx.map fun (i, k) =>
    Instruction.padLeft 5 (toString k) ++ ": " ++ i.text ++ "\n")

end RegisterVM
