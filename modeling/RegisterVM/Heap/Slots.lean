import RegisterVM.Heap.Basic

/-!
# Items of lists, tuples and instances

Lists are indexed by a possibly negative integer, tuples and instances by a fixed place. Reading
hands out the item itself; whoever keeps it takes a reference. Writing takes a reference to the new
item and drops the one to the old.
-/

namespace RegisterVM
namespace Heap

/-- The value slots of a list, tuple or instance. -/
def slotsOf (kind : ObjectKind) (v : Value) : HeapM (ObjectId × Array Value) := do
  let (id, o) ← objectOf kind v
  return (id, o.slots)

/-- Slot `i` of an object with a fixed number of slots. -/
def readSlot (kind : ObjectKind) (v : Value) (i : Nat) : HeapM Value := do
  let (_, slots) ← slotsOf kind v
  match slots[i]? with
  | some item => return item
  | none => throw .index

/-- Puts a value into a slot of an object, keeping the counts right. -/
def storeSlot (id : ObjectId) (i : Nat) (v : Value) : HeapM Unit := do
  modify (·.retainValue v)
  match (← get).get? id with
  | some o =>
    let old := o.slots.getD i .none
    modify (·.modifyObject id fun o => o.withSlots (o.slots.setIfInBounds i v))
    discard old
  | none => return

/-- Overwrites slot `i` without looking at what it held. -/
def overwriteSlot (kind : ObjectKind) (target : Value) (i : Nat) (f : Value → Value) :
    HeapM Unit := do
  let (id, slots) ← slotsOf kind target
  if i < slots.size then
    modify (·.modifyObject id fun o => o.withSlots (o.slots.modify i f))
  else throw .index

/-- The item of a list at a possibly negative index. -/
def listItem (list : Value) (i : Int64) : HeapM Value := do
  let (_, items) ← slotsOf .list list
  let k ← lift (checkIndex i (Int64.ofNat items.size))
  return items.getD k .none

/-- The item of a list at a possibly negative index, as a new reference. -/
def listGet (list : Value) (i : Int64) : HeapM Value := do
  let item ← listItem list i
  clone item

/-- Replaces the item of a list at a possibly negative index. -/
def listSet (list : Value) (i : Int64) (v : Value) : HeapM Unit := do
  let (id, items) ← slotsOf .list list
  let k ← lift (checkIndex i (Int64.ofNat items.size))
  storeSlot id k v

end Heap
end RegisterVM
