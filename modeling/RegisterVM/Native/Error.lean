import RegisterVM.IndexRange.Basic
import RegisterVM.Instruction

/-!
# Why a segment is not compiled

A segment that cannot be compiled is left to the interpreter, with the reason on record.
-/

namespace RegisterVM
namespace Native

/-- What is wrong with the shape of a segment. -/
inductive Defect where
  | outsideRoutine
  | branchLeaves
  | branchIntoCases
  | switchCrossesEnd
  | noBlocks
  | unknownBlock
  | notALeader
  | readBeforeDefinition
  | undeclaredVariable
  | baseNotLoaded
  | constantOutside
  | switchPastRoutine
deriving DecidableEq, Repr

def Defect.text : Defect → String
  | outsideRoutine => "range outside the routine"
  | branchLeaves => "branch leaves the segment"
  | branchIntoCases => "branch into a case table"
  | switchCrossesEnd => "switch table crosses the segment end"
  | noBlocks => "segment has no blocks"
  | unknownBlock => "unknown block"
  | notALeader => "branch target is not a block leader"
  | readBeforeDefinition => "register read before its definition"
  | undeclaredVariable => "undeclared stack value"
  | baseNotLoaded => "call data pointer not loaded"
  | constantOutside => "constant index out of range"
  | switchPastRoutine => "switch table runs past the routine"

/-- Why code generation gave up on a segment. -/
inductive CodegenError where
  /-- the machine code emitter refused -/
  | backend
  | unsupported (op : Opcode)
  | operandType (index : Nat) (reg : Reg)
  | malformed (range : IndexRange) (defect : Defect)
deriving DecidableEq, Repr

/-- The kind of an error. -/
def CodegenError.name : CodegenError → String
  | backend => "Backend"
  | unsupported _ => "Unsupported"
  | operandType _ _ => "OperandType"
  | malformed _ _ => "Malformed"

def CodegenError.message : CodegenError → String
  | backend => "Backend error"
  | unsupported op => "Unsupported instruction: " ++ op.mnemonic
  | operandType i r =>
    "Operand type mismatch at instruction " ++ toString i ++ ", register r" ++ toString r.toNat
  | malformed range d => "Malformed segment " ++ range.text ++ ": " ++ d.text

end Native
end RegisterVM
