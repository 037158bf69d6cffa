import RegisterVM.Heap.Slots
import RegisterVM.Instruction
import RegisterVM.Machine.State

/-!
# Places

Where a value slot lives: a register, a variable outside the register file, or an item of the tuple
or instance a register holds. Variables and items are checked in the order container, then position,
and a missing container is an invalid value while a missing position is an index error.

| operation | old contents | reference to the new contents |
| --- | --- | --- |
| `put` | dropped | handed over |
| `write` | dropped | taken |
| `overwrite` | left behind | none |
-/

namespace RegisterVM

/-- The place of a value slot. -/
inductive Place where
  | register (i : Nat)
  | receiver (i : Nat)
  | statics (i : Nat)
  | globals (i : Nat)
  | outer (depth i : Nat)
  | item (kind : ObjectKind) (register i : Nat)
deriving DecidableEq, Repr

namespace Exec

/-- The value of a register. -/
def register (i : Nat) : Exec Value := do
  match (← get).frame.registers[i]? with
  | some v => return v
  | none => throw (.fault (.register i))

/-- The value in a slot of a storage array. -/
def slotOf (slots : Array Value) (i : Nat) : Exec Value :=
  match slots[i]? with
  | some v => pure v
  | none => fail .index

/-- The value at a place, still owned by the place. -/
def read (p : Place) : Exec Value := do
  match p with
  | .register i => register i
  | .receiver i => onHeap (Heap.readSlot .object (← get).frame.receiver i)
  | .statics i => slotOf (← get).names.statics i
  | .globals i => slotOf (← get).names.globals i
  | .outer depth i =>
    match (← get).frame.outer[depth]? with
    | some registers => slotOf registers i
    | none => fail .index
  | .item kind r i => onHeap (Heap.readSlot kind (← register r) i)

/-- Changes what a place holds, without any account of references. -/
def overwrite (p : Place) (f : Value → Value) : Exec Unit := do
  match p with
  | .register i =>
    modify fun ⟨⟨registers, receiver, outer⟩, names, heap, output, random⟩ =>
      ⟨⟨registers.modify i f, receiver, outer⟩, names, heap, output, random⟩
  | .receiver i => onHeap (Heap.overwriteSlot .object (← get).frame.receiver i f)
  | .statics i =>
    modify fun ⟨frame, ⟨statics, globals⟩, heap, output, random⟩ =>
      ⟨frame, ⟨statics.modify i f, globals⟩, heap, output, random⟩
  | .globals i =>
    modify fun ⟨frame, ⟨statics, globals⟩, heap, output, random⟩ =>
      ⟨frame, ⟨statics, globals.modify i f⟩, heap, output, random⟩
  | .outer depth i =>
    modify fun ⟨⟨registers, receiver, outer⟩, names, heap, output, random⟩ =>
      ⟨⟨registers, receiver, outer.modify depth (·.modify i f)⟩, names, heap, output, random⟩
  | .item kind r i => onHeap (Heap.overwriteSlot kind (← register r) i f)

/-- Hands a value over to a place. -/
def put (p : Place) (v : Value) : Exec Unit := do
  let old ← read p
  overwrite p fun _ => v
  onHeap (Heap.discard old)

/-- Stores a copy of a value at a place. -/
def write (p : Place) (v : Value) : Exec Unit := do
  let old ← read p
  let _ ← onHeap (Heap.clone v)
  overwrite p fun _ => v
  onHeap (Heap.discard old)

end Exec

/-- The place of a variable outside the register file. -/
def StorageClass.place (s : StorageClass) (depth i : Int32) : Place :=
  match s with
  | receiver => .receiver (placeOf i)
  | statics => .statics (placeOf i)
  | globals => .globals (placeOf i)
  | outer => .outer (placeOf depth) (placeOf i)

/-- The place a variable read names. -/
def Instruction.sourceVariable (ins : Instruction) (s : StorageClass) : Place :=
  s.place ins.a ins.b

/-- The place a variable write names; enclosing frames have the depth where the others have the
position. -/
def Instruction.targetVariable (ins : Instruction) (s : StorageClass) : Place :=
  match s with
  | .outer => s.place ins.c ins.b
  | _ => s.place ins.c ins.c

end RegisterVM
