import RegisterVM.Heap.Strings
import RegisterVM.Random.Generator

/-!
# Machine state

What a running routine can see and change: the register file of its frame, the receiver and the
register files of the enclosing activations, class statics and globals, the heap, the text printed
so far and the random generator.

An action on the state fails with an error code, by reaching an instruction that cannot be executed,
or by a fault. The state an action leaves is kept when it fails.
-/

namespace RegisterVM

/-- One activation of a routine. -/
structure Frame where
  registers : Array Value
  /-- the instance whose fields the routine's own variables are, or nothing -/
  receiver : Value := .none
  /-- register files of the enclosing activations, innermost first -/
  outer : Array (Array Value) := #[]
deriving DecidableEq, Repr, Inhabited

/-- Class statics and globals. -/
structure Namespace where
  statics : Array Value := #[]
  globals : Array Value := #[]
deriving DecidableEq, Repr, Inhabited

/-- Everything a step can read or change. -/
structure State where
  frame : Frame
  names : Namespace
  heap : Heap
  output : String
  random : Random.Generator
deriving Inhabited

/-- An action on the machine state. -/
abbrev Exec := EStateM Failure State

namespace Exec

/-- Fails with an error code. -/
def fail (e : ErrorCode) : Exec α := throw (.code e)

/-- Takes over the failure of a computation. -/
def ofExcept (r : Except ErrorCode α) : Exec α :=
  match r with
  | .ok a => pure a
  | .error e => fail e

/-- Runs a heap operation on the heap of the state. -/
def onHeap (m : HeapM α) : Exec α := fun ⟨frame, names, heap, output, random⟩ =>
  match m heap with
  | .ok a h => .ok a ⟨frame, names, h, output, random⟩
  | .error e h => .error (.code e) ⟨frame, names, h, output, random⟩

/-- Runs a heap operation that may stop the machine. -/
def onHeapRun (m : HeapRun α) : Exec α := fun ⟨frame, names, heap, output, random⟩ =>
  match m heap with
  | .ok a h => .ok a ⟨frame, names, h, output, random⟩
  | .error f h => .error f ⟨frame, names, h, output, random⟩

/-- Fails unless a value carries the expected tag. -/
def checkTag (v : Value) (expected : Option Tag) : Exec Unit :=
  if v.hasTag expected then pure () else fail .value

end Exec

/-- A frame for registers of these types. -/
def Frame.fresh (types : Array ValueType) : HeapM Frame := do
  let registers ← types.mapM Heap.initialValue
  return { registers := registers }

/-- All values a frame holds. -/
def Frame.values (f : Frame) : List Value :=
  f.receiver :: f.registers.toList ++ f.outer.toList.flatMap Array.toList

end RegisterVM
