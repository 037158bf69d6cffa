import RegisterVM.Instruction
import RegisterVM.Opcode.Layout

/-!
# Operand roles and control flow

Which registers an instruction writes and reads, and where control can go from it. Both are static:
they depend on the instruction and its place alone.
-/

namespace RegisterVM

/-- The registers after `base`, as many as the count operand says. -/
def registersAfter (base : Reg) (count : Int32) : List Reg :=
  (List.range (countOf count % UInt16.size)).map fun k => base + UInt16.ofNat (k + 1)

namespace Instruction

/-- The registers the instruction writes. -/
def defs (i : Instruction) : List Reg :=
  match i.opcode.layout with
  | .loadC | .unaryAC | .unaryBC | .binaryABC | .staticGet | .indexUpdate | .multiGet => [i.rc]
  | .empty | .caseEntry | .staticSet | .indexSet | .multiSet => []
  | .readA | .storeA | .testA | .switch | .ret => []

/-- The registers the instruction reads. -/
def uses (i : Instruction) : List Reg :=
  match i.opcode.layout with
  | .empty | .caseEntry | .loadC => []
  | .unaryAC | .staticGet => [i.ra]
  | .unaryBC => [i.rb]
  | .binaryABC => [i.ra, i.rb]
  | .staticSet => [i.ra, i.rc]
  | .indexSet | .indexUpdate => [i.ra, i.rb, i.rc]
  | .multiGet => i.ra :: registersAfter i.ra i.b
  | .multiSet => i.ra :: i.rc :: registersAfter i.rc i.b
  | .readA | .storeA | .testA | .switch => [i.ra]
  | .ret => if i.b = 0 then [] else [i.ra]

end Instruction

/-- The case entries that follow the switch at `i`. -/
def caseEntries (code : Array Instruction) (i : Nat) (count : Nat) : List Instruction :=
  (code.extract (i + 1) (i + 1 + count)).toList

/-- The explicit branch targets of the instruction at `i`: one for a jump, the default and one for
each case entry for a switch. -/
def branchTargets (code : Array Instruction) (i : Nat) : List Nat :=
  match code[i]? with
  | none => []
  | some ins =>
    if ins.opcode.isJump then [ins.target]
    else if ins.opcode = .switch then
      ins.target :: (caseEntries code i ins.caseCount).map Instruction.target
    else []

/-- A number put into an ascending list, once. -/
def insertOnce (x : Nat) : List Nat → List Nat
  | [] => [x]
  | y :: ys => if x < y then x :: y :: ys else if x = y then y :: ys else y :: insertOnce x ys

/-- The same numbers in ascending order without repetition. -/
def ascending (xs : List Nat) : List Nat := xs.foldr insertOnce []

/-- Where control may go next, before targets past the end are dropped. -/
def flowTargets (code : Array Instruction) (i : Nat) (ins : Instruction) : List Nat :=
  match ins.opcode with
  | .goto | .switch => branchTargets code i
  | .test _ => (i + 1) :: branchTargets code i
  | .caseEntry | .ret => []
  | _ => [i + 1]

/-- The control-flow successors of instruction `i`, ascending. The end of the code is not one. -/
def successors (code : Array Instruction) (i : Nat) : List Nat :=
  match code[i]? with
  | none => []
  | some ins => ascending ((flowTargets code i ins).filter (· < code.size))

/-- Inserting adds the number. -/
theorem mem_insertOnce {x y : Nat} {ys : List Nat} : x ∈ insertOnce y ys ↔ x = y ∨ x ∈ ys := by
  induction ys with
  | nil => simp [insertOnce]
  | cons z zs ih =>
    unfold insertOnce
    split
    · simp
    · split
      · rename_i h; subst h; simp
      · simp [ih]; grind

/-- Sorting keeps the numbers. -/
theorem mem_ascending {x : Nat} {xs : List Nat} : x ∈ ascending xs ↔ x ∈ xs := by
  induction xs with
  | nil => simp [ascending]
  | cons y ys ih =>
    rw [ascending, List.foldr_cons, mem_insertOnce]
    simp only [List.mem_cons]
    exact or_congr_right ih

/-- Control only flows to instructions of the code. -/
theorem successors_lt {code : Array Instruction} {i j : Nat} (h : j ∈ successors code i) :
    j < code.size := by
  unfold successors at h
  split at h
  · simp at h
  · rw [mem_ascending] at h
    simpa using (List.mem_filter.1 h).2

end RegisterVM
