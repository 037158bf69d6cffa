import RegisterVM.Heap.Strings

/-!
# Structural equality

Scalars are equal when their tags and payload words are, so a not-a-number equals itself and the two
zeros differ. Strings, lists and tuples are compared by content, arrays by elements and shape,
instances by identity. Comparing arrays copies views out; a view that cannot be copied out equals
nothing.
-/

namespace RegisterVM
namespace Heap

/-- Compares two lists of the same length item by item, up to the first difference. -/
def allEqual (same : Value → Value → HeapM Bool) : List Value → List Value → HeapM Bool
  | x :: xs, y :: ys => do
    if ← same x y then allEqual same xs ys else return false
  | [], [] => return true
  | _, _ => return false

/-- Equality of the items of two containers. -/
def itemsEqual (same : Value → Value → HeapM Bool) (xs ys : Array Value) : HeapM Bool :=
  if xs.size = ys.size then allEqual same xs.toList ys.toList else return false

variable [DataAccess]

/-- Equality of two arrays, both copied out first. -/
def arraysEqual (x y : Value) : HeapM Bool := do
  let p ← attempt (arrayContents x)
  let q ← attempt (arrayContents y)
  match p, q with
  | .ok (a, xs), .ok (b, ys) => return xs == ys && a.dims == b.dims
  | _, _ => return false

/-- Equality of values nested at most `depth` deep. -/
def equalAt : Nat → Value → Value → HeapM Bool
  | 0 => fun _ _ => return false
  | depth + 1 => fun x y => do
    match x, y with
    | .none, .none => return true
    | .scalar s w, .scalar t z =>
      if s = .complex then return s = t && w = z else return s = t && w.lo = z.lo
    | .object k i, .object l j =>
      if k ≠ l then return false
      match k with
      | .string => return (← get).bytes? x == (← get).bytes? y
      | .array => arraysEqual x y
      | .object => return i == j
      | .list | .tuple =>
        let h ← get
        match h.get? i, h.get? j with
        | some o, some p => itemsEqual (equalAt depth) o.slots p.slots
        | _, _ => return false
    | _, _ => return false

/-- Structural equality; nesting is never deeper than the heap. -/
def equal (x y : Value) : HeapM Bool := do
  equalAt ((← get).cells.size + 1) x y

end Heap
end RegisterVM
