import RegisterVM.Opcode.Basic

/-!
# Numbers and mnemonics

Every opcode has a number below `0x100`, families sitting in consecutive numbers, and a mnemonic
made of a stem and the letters of its kinds, destination first. `Opcode.all` lists the instruction
set in numbering order, and decoding a number or a mnemonic is a search of that list.
-/

namespace RegisterVM

namespace ArithOp

def all : List ArithOp := [add, sub, mul, div, mod, pow]

def number : ArithOp → Nat
  | add => 0
  | sub => 1
  | mul => 2
  | div => 3
  | mod => 4
  | pow => 5

def stem : ArithOp → String
  | add => "Add"
  | sub => "Sub"
  | mul => "Mul"
  | div => "Div"
  | mod => "Mod"
  | pow => "Pow"

end ArithOp

namespace BitOp

def all : List BitOp := [and, or, xor, shl, shr]

def number : BitOp → Nat
  | and => 0
  | or => 1
  | xor => 2
  | shl => 3
  | shr => 4

def stem : BitOp → String
  | and => "BitAnd"
  | or => "BitOr"
  | xor => "BitXor"
  | shl => "Shl"
  | shr => "Shr"

end BitOp

namespace LogicOp

def all : List LogicOp := [and, or]

def number : LogicOp → Nat
  | and => 0
  | or => 1

def stem : LogicOp → String
  | and => "And"
  | or => "Or"

end LogicOp

namespace FieldOp

def all : List FieldOp := [add, sub, mul, div]

def number : FieldOp → Nat
  | add => 0
  | sub => 1
  | mul => 2
  | div => 3

def stem : FieldOp → String
  | add => "Add"
  | sub => "Sub"
  | mul => "Mul"
  | div => "Div"

end FieldOp

namespace UnaryOp

def all : List UnaryOp := [notBool, notInt, negInt, negFloat, negComplex, bitNot]

def number : UnaryOp → Nat
  | notBool => 0
  | notInt => 1
  | negInt => 2
  | negFloat => 3
  | negComplex => 4
  | bitNot => 5

def mnemonic : UnaryOp → String
  | notBool => "NotB"
  | notInt => "NotI"
  | negInt => "NegI"
  | negFloat => "NegF"
  | negComplex => "NegC"
  | bitNot => "BitNotI"

end UnaryOp

namespace Conversion

def all : List Conversion :=
  [intOfFloat, floatOfInt, intOfBool, boolOfInt, complexOfInt, complexOfFloat]

def number : Conversion → Nat
  | intOfFloat => 0
  | floatOfInt => 1
  | intOfBool => 2
  | boolOfInt => 3
  | complexOfInt => 4
  | complexOfFloat => 5

def mnemonic : Conversion → String
  | intOfFloat => "MoveIF"
  | floatOfInt => "MoveFI"
  | intOfBool => "MoveIB"
  | boolOfInt => "MoveBI"
  | complexOfInt => "MoveCI"
  | complexOfFloat => "MoveCF"

end Conversion

namespace Relation

def all : List Relation := [lt, le, eq, ne]

def number : Relation → Nat
  | lt => 0
  | le => 1
  | eq => 2
  | ne => 3

def stem : Relation → String
  | lt => "Lt"
  | le => "Le"
  | eq => "Eq"
  | ne => "Ne"

end Relation

namespace Equality

def all : List Equality := [eq, ne]

def number : Equality → Nat
  | eq => 0
  | ne => 1

def stem : Equality → String
  | eq => "Eq"
  | ne => "Ne"

end Equality

namespace Sized

def all : List Sized := [string, array, list]

def number : Sized → Nat
  | string => 0
  | array => 1
  | list => 2

def mnemonic : Sized → String
  | string => "SizeIS"
  | array => "SizeIA"
  | list => "SizeIL"

end Sized

namespace StorageClass

def all : List StorageClass := [receiver, statics, globals, outer]

def number : StorageClass → Nat
  | receiver => 0
  | statics => 1
  | globals => 2
  | outer => 3

def letter : StorageClass → String
  | receiver => "O"
  | statics => "K"
  | globals => "G"
  | outer => "H"

end StorageClass

namespace TestKind

def all : List TestKind := [bool, int, float, any]

def number : TestKind → Nat
  | bool => 0
  | int => 1
  | float => 2
  | any => 3

def letter : TestKind → String
  | bool => "B"
  | int => "I"
  | float => "F"
  | any => ""

end TestKind

namespace Opcode

/-- The number of an opcode. -/
def code : Opcode → Nat
  | nop => 0x00
  | data => 0x01
  | getConst => 0x02
  | getConstScalar k => 0x03 + k.number
  | getConstString => 0x07
  | move => 0x08
  | moveScalar k => 0x10 + k.number
  | convert v => 0x14 + v.number
  | moveString => 0x1A
  | unary u => 0x20 + u.number
  | intArith o => 0x30 + o.number
  | intBits o => 0x36 + o.number
  | logic o => 0x3B + o.number
  | floatArith o => 0x40 + o.number
  | math => 0x46
  | complexArith o => 0x50 + o.number
  | compareInt r => 0x60 + r.number
  | compareFloat r => 0x64 + r.number
  | compareComplex r => 0x68 + r.number
  | compareString r => 0x6A + r.number
  | arith o => 0x80 + o.number
  | assignAll => 0x86
  | concat => 0x90
  | charAt => 0x91
  | setChar => 0x92
  | size s => 0x93 + s.number
  | arrayGet k => 0xA0 + k.number
  | arraySet k => 0xA3 + k.number
  | arrayGetMulti k => 0xA6 + k.number
  | arraySetMulti k => 0xA9 + k.number
  | listGet k => 0xB0 + k.number
  | listSet k => 0xB3 + k.number
  | tupleGetAny => 0xB6
  | tupleGet k => 0xB7 + k.number
  | tupleSetAny => 0xBB
  | tupleSet k => 0xBC + k.number
  | getVar s k => 0xC0 + 8 * s.number + k.number
  | setVar s k => 0xC4 + 8 * s.number + k.number
  | getField k => 0xE0 + k.number
  | setField k => 0xE4 + k.number
  | goto => 0xF0
  | test k => 0xF1 + k.number
  | switch => 0xF5
  | caseEntry => 0xF6
  | ret => 0xF7
  | print => 0xF8
  | callSegment => 0xFF

/-- The name of an opcode in listings and messages. -/
def mnemonic : Opcode → String
  | nop => "Nop"
  | data => "Data"
  | getConst => "GetConst"
  | getConstScalar k => "GetConst" ++ k.letter
  | getConstString => "GetConstS"
  | move => "Move"
  | moveScalar k => "Move" ++ k.letter ++ k.letter
  | convert v => v.mnemonic
  | moveString => "MoveSS"
  | unary u => u.mnemonic
  | intArith o => o.stem ++ "III"
  | intBits o => o.stem ++ "III"
  | logic o => o.stem ++ "BBB"
  | floatArith o => o.stem ++ "FFF"
  | math => "MathF"
  | complexArith o => o.stem ++ "CCC"
  | compareInt r => r.stem ++ "BII"
  | compareFloat r => r.stem ++ "BFF"
  | compareComplex r => r.stem ++ "BCC"
  | compareString r => r.stem ++ "BSS"
  | arith o => o.stem
  | assignAll => "SetIndex"
  | concat => "AddSSS"
  | charAt => "StringGetChar"
  | setChar => "StringSetChar"
  | size s => s.mnemonic
  | arrayGet k => "ArrayGet" ++ k.letter
  | arraySet k => "ArraySet" ++ k.letter
  | arrayGetMulti k => "ArrayGetMulti" ++ k.letter
  | arraySetMulti k => "ArraySetMulti" ++ k.letter
  | listGet k => "ListGet" ++ k.letter
  | listSet k => "ListSet" ++ k.letter
  | tupleGetAny => "TupleGet"
  | tupleGet k => "TupleGet" ++ k.letter
  | tupleSetAny => "TupleSet"
  | tupleSet k => "TupleSet" ++ k.letter
  | getVar s k => "GetVar" ++ s.letter ++ k.letter
  | setVar s k => "SetVar" ++ s.letter ++ k.letter
  | getField k => "GetField" ++ k.letter
  | setField k => "SetField" ++ k.letter
  | goto => "Goto"
  | test k => "Test" ++ k.letter
  | switch => "Switch"
  | caseEntry => "Case"
  | ret => "Return"
  | print => "Print"
  | callSegment => "JitCall"

/-- The instruction set in numbering order. -/
def all : List Opcode :=
  [nop, data, getConst] ++ ScalarKind.all.map getConstScalar ++ [getConstString, move]
    ++ ScalarKind.all.map moveScalar ++ Conversion.all.map convert ++ [moveString]
    ++ UnaryOp.all.map unary
    ++ ArithOp.all.map intArith ++ BitOp.all.map intBits ++ LogicOp.all.map logic
    ++ ArithOp.all.map floatArith ++ [math]
    ++ FieldOp.all.map complexArith
    ++ Relation.all.map compareInt ++ Relation.all.map compareFloat
    ++ Equality.all.map compareComplex ++ Relation.all.map compareString
    ++ ArithOp.all.map arith ++ [assignAll]
    ++ [concat, charAt, setChar] ++ Sized.all.map size
    ++ ElementKind.all.map arrayGet ++ ElementKind.all.map arraySet
    ++ ElementKind.all.map arrayGetMulti ++ ElementKind.all.map arraySetMulti
    ++ ElementKind.all.map listGet ++ ElementKind.all.map listSet
    ++ [tupleGetAny] ++ ScalarKind.all.map tupleGet
    ++ [tupleSetAny] ++ ScalarKind.all.map tupleSet
    ++ StorageClass.all.flatMap (fun s =>
      ScalarKind.all.map (getVar s) ++ ScalarKind.all.map (setVar s))
    ++ ScalarKind.all.map getField ++ ScalarKind.all.map setField
    ++ [goto] ++ TestKind.all.map test ++ [switch, caseEntry, ret, print, callSegment]

/-- The opcode of a number. -/
def ofCode? (n : Nat) : Option Opcode := all.find? (·.code == n)

/-- The opcode of a mnemonic. -/
def ofMnemonic? (s : String) : Option Opcode := all.find? (·.mnemonic == s)

/-- Numbers decode to the opcode they encode. -/
@[simp] theorem ofCode?_code (op : Opcode) : ofCode? op.code = some op := by
  cases op with
  | getVar s k => cases s <;> cases k <;> rfl
  | setVar s k => cases s <;> cases k <;> rfl
  | getConstScalar k | moveScalar k | tupleGet k | tupleSet k | getField k | setField k =>
    cases k <;> rfl
  | arrayGet k | arraySet k | arrayGetMulti k | arraySetMulti k | listGet k | listSet k =>
    cases k <;> rfl
  | intArith o | intBits o | logic o | floatArith o | complexArith o | arith o => cases o <;> rfl
  | compareInt r | compareFloat r | compareComplex r | compareString r => cases r <;> rfl
  | convert v => cases v <;> rfl
  | unary u => cases u <;> rfl
  | size s => cases s <;> rfl
  | test k => cases k <;> rfl
  | _ => rfl

end Opcode

end RegisterVM
