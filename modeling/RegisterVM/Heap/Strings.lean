import RegisterVM.Heap.Arith

/-!
# Strings and sizes

Strings are shared between slots and copied when one of the sharing slots changes a byte.
-/

namespace RegisterVM

/-- Byte strings in dictionary order. -/
def compareBytes : List UInt8 → List UInt8 → Ordering
  | [], [] => .eq
  | [], _ :: _ => .lt
  | _ :: _, [] => .gt
  | x :: xs, y :: ys => if x < y then .lt else if y < x then .gt else compareBytes xs ys

/-- A string object with byte `i` replaced. -/
def Object.setByte (o : Object) (i : Nat) (b : UInt8) : Object :=
  match o with
  | .string bytes => .string (bytes.setIfInBounds i b)
  | other => other

namespace Heap

/-- The bytes of a string. -/
def bytes? (h : Heap) (v : Value) : Option (Array UInt8) :=
  match v with
  | .object .string id =>
    match h.get? id with
    | some (.string bytes) => some bytes
    | _ => none
  | _ => none

/-- Dictionary order of two strings; other values count as empty. -/
def compareStrings (h : Heap) (x y : Value) : Ordering :=
  compareBytes (h.bytesOrEmpty x).toList (h.bytesOrEmpty y).toList

/-- The byte of a string at a possibly negative index. -/
def charAt (v : Value) (i : Int64) : HeapM Int64 := do
  match (← get).bytes? v with
  | none => throw .value
  | some bytes =>
    let k ← lift (checkIndex i (Int64.ofNat bytes.size))
    return Int64.ofNat (bytes.getD k 0).toNat

/-- Replaces a byte of the string in a slot and gives back what the slot holds then: the same string
changed in place when the slot has the only reference, a changed copy otherwise. -/
def setChar (v : Value) (i ch : Int64) : HeapM Value := do
  match (← get).bytes? v, v.ref? with
  | some bytes, some id =>
    let k ← lift (checkIndex i (Int64.ofNat bytes.size))
    let b := ch.toUInt64.toUInt8
    if 1 < (← get).refCount id then
      let fresh ← new (.string (bytes.setIfInBounds k b))
      discard v
      return fresh
    else
      modify (·.modifyObject id fun o => o.setByte k b)
      return v
  | _, _ => throw .value

/-- The length of a string, the element count of an array, the length of a list. -/
def size (v : Value) : HeapM Int64 := do
  match v.ref?.bind (← get).get? with
  | some (.string bytes) => return Int64.ofNat bytes.size
  | some (.array a) => return a.size
  | some (.list items) => return Int64.ofNat items.size
  | _ => throw .value

/-- Whether a value counts as true. -/
def truthy (h : Heap) : Value → Bool
  | .none => false
  | .scalar .float w => !Binary64.eq w.lo 0
  | .scalar .complex w => !Binary64.eq w.lo 0 || !Binary64.eq w.hi 0
  | .scalar _ w => w.bool
  | .object .string id => (h.bytesOrEmpty (.object .string id)).size != 0
  | .object _ _ => true

/-- The value a register of type `t` holds when its frame is made. -/
def initialValue (t : ValueType) : HeapM Value :=
  match t with
  | .string => new (.string #[])
  | other =>
    match other.scalarTag? with
    | some tag => pure (.initial tag)
    | none => pure .none

end Heap

end RegisterVM
