import RegisterVM.Heap.View

/-!
# Array elements

Reading and writing one element, by a single index over all elements or by one index for each
dimension. Negative indices count from the end. Writing stores payload words as they are, as many as
an element of the array has.
-/

namespace RegisterVM

/-- An array object with element `i` replaced, in words laid out for elements of kind `access`. -/
def Object.setElement (o : Object) (access : ElementKind) (i : Nat) (w : Words) : Object :=
  match o with
  | .array ⟨e, kind, .plain words, _⟩ =>
    .array ⟨e, kind, .plain (setElementAt access words i w), trivial⟩
  | other => other

namespace Heap

/-- Whether an object is an array with the words of element `i`, for elements of kind `access`. -/
def holds (h : Heap) (id : ObjectId) (access : ElementKind) (i : Nat) : Bool :=
  ((h.get? id).bind Object.plain?).any fun a => a.holds access i

variable [DataAccess]

/-- Replaces element `i` of an array, in words laid out for elements of kind `access`. -/
def storeAs (access : ElementKind) (id : ObjectId) (i : Nat) (w : Words) : HeapM Unit := do
  DataAccess.touch ((← get).holds id access i)
  modify (·.modifyObject id fun o => o.setElement access i w)

/-- The element at a place computed from the extents. -/
def elementBy (v : Value) (place : Extents → Except ErrorCode Nat) : HeapM Value := do
  let (_, a) ← plainArray v
  let i ← lift (place a.toExtents)
  return .ofElement a.kind (← a.fetch i)

/-- Stores words at a place computed from the extents. -/
def setElementBy (v : Value) (place : Extents → Except ErrorCode Nat) (w : Words) :
    HeapM Unit := do
  let (id, kind, e) ← do
    let (id, a) ← plainArray v
    pure (id, a.kind, a.toExtents)
  let i ← lift (place e)
  storeAs kind id i w

/-- The words at a place computed from the extents, read as an element of kind `access` whatever the
kind of the array. -/
def wordsBy (access : ElementKind) (v : Value) (place : Extents → Except ErrorCode Nat) :
    HeapM Words := do
  let (_, a) ← plainArray v
  let i ← lift (place a.toExtents)
  a.fetchAs access i

/-- Stores words at a place computed from the extents, as an element of kind `access` whatever the
kind of the array. -/
def setWordsBy (access : ElementKind) (v : Value) (place : Extents → Except ErrorCode Nat)
    (w : Words) : HeapM Unit := do
  let (id, e) ← do
    let (id, a) ← plainArray v
    pure (id, a.toExtents)
  let i ← lift (place e)
  storeAs access id i w

def arrayGet (v : Value) (i : Int64) : HeapM Value := elementBy v (·.flatIndex i)

def arrayGetMulti (v : Value) (is : List Int64) : HeapM Value := elementBy v (·.flatMultiIndex is)

def arraySet (v : Value) (i : Int64) (w : Words) : HeapM Unit := setElementBy v (·.flatIndex i) w

def arraySetMulti (v : Value) (is : List Int64) (w : Words) : HeapM Unit :=
  setElementBy v (·.flatMultiIndex is) w

end Heap

end RegisterVM
