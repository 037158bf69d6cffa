import RegisterVM.ErrorCode
import RegisterVM.Opcode.Basic

/-!
# Failures

An action on the machine ends early in one of three ways: with an error code, at an instruction that
cannot be executed, or by a fault. A fault is no result of the running code but stops the machine:
an access outside the register file, the constants or the code, or an address computation whose sum
is no machine word.
-/

namespace RegisterVM

/-- Why the machine stopped. -/
inductive Fault where
  | register (i : Nat)
  | constant (i : Nat)
  | caseTable (i : Nat)
  | instruction (i : Nat)
  /-- a sum that leaves the range of its words -/
  | overflow
deriving DecidableEq, Repr

/-- Why an action ended early. -/
inductive Failure where
  | code (e : ErrorCode)
  | notExecutable (op : Opcode)
  | fault (f : Fault)
deriving DecidableEq, Repr

end RegisterVM
