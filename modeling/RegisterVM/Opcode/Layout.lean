import RegisterVM.Opcode.Basic

/-!
# Operand layouts

How the operands of an opcode map onto registers, constants and targets. Validation, the dataflow
roles and the listing read an opcode only through its layout.

| layout | meaning |
| --- | --- |
| `empty` | no register operand |
| `loadC` | `rC` from immediates |
| `unaryAC`, `unaryBC` | `rC` from `rA`, from `rB` |
| `binaryABC` | `rC` from `rA` and `rB` |
| `staticGet`, `staticSet` | item `b` of `rA` into `rC`; item `b` of `rC` from `rA` |
| `indexSet` | item `rB` of `rC` from `rA` |
| `indexUpdate` | the same, where `rC` itself is replaced |
| `multiGet`, `multiSet` | as get and set, with the `b` registers after the container as indices |
| `readA`, `storeA`, `testA` | reads `rA` only |
| `switch`, `caseEntry`, `ret` | dispatch, dispatch entry, leaving the routine |
-/

namespace RegisterVM

/-- The operand layout of an opcode. -/
inductive Layout where
  | empty
  | loadC
  | unaryAC
  | unaryBC
  | binaryABC
  | staticGet
  | staticSet
  | indexSet
  | indexUpdate
  | multiGet
  | multiSet
  | readA
  | storeA
  | testA
  | switch
  | caseEntry
  | ret
deriving DecidableEq, Repr, Inhabited

def Layout.name : Layout → String
  | empty => "Empty"
  | loadC => "LoadC"
  | unaryAC => "UnaryAC"
  | unaryBC => "UnaryBC"
  | binaryABC => "BinaryABC"
  | staticGet => "StaticGet"
  | staticSet => "StaticSet"
  | indexSet => "IndexSet"
  | indexUpdate => "IndexUpdate"
  | multiGet => "MultiGet"
  | multiSet => "MultiSet"
  | readA => "ReadA"
  | storeA => "StoreA"
  | testA => "TestA"
  | switch => "Switch"
  | caseEntry => "Case"
  | ret => "Return"

/-- The layout of an opcode. -/
def Opcode.layout : Opcode → Layout
  | nop | goto | callSegment => .empty
  | data | getConst | getConstScalar _ | getConstString | getVar _ _ => .loadC
  | move | moveScalar _ | convert _ | moveString | unary _ | size _ => .unaryAC
  | math => .unaryBC
  | intArith _ | intBits _ | logic _ | floatArith _ | complexArith _ => .binaryABC
  | compareInt _ | compareFloat _ | compareComplex _ | compareString _ => .binaryABC
  | arith _ | concat | charAt | arrayGet _ | listGet _ => .binaryABC
  | assignAll | arraySet _ | listSet _ => .indexSet
  | setChar => .indexUpdate
  | arrayGetMulti _ => .multiGet
  | arraySetMulti _ => .multiSet
  | tupleGetAny | tupleGet _ | getField _ => .staticGet
  | tupleSetAny | tupleSet _ | setField _ => .staticSet
  | setVar _ _ => .storeA
  | test _ => .testA
  | switch => .switch
  | caseEntry => .caseEntry
  | ret => .ret
  | print => .readA

end RegisterVM
