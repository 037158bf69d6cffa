import RegisterVM.Heap.Shape
import RegisterVM.Value

/-!
# Heap objects

Strings are byte strings. An array either holds its element words, or is a view: a window on a base
array that has not been copied out yet. Lists, tuples and instances hold value slots.
-/

namespace RegisterVM

/-- The elements of an array: its own words, or a window on another array. -/
inductive ArrayData where
  | plain (words : Array UInt64)
  | view (base : ObjectId) (starts : List Int64)
deriving DecidableEq, Repr, Inhabited

/-- The ends of the stretches a view selects are words. -/
def ArrayData.EndsInRange (dims : Shape) : ArrayData → Prop
  | .plain _ => True
  | .view _ starts => Shape.EndsInRange starts dims

instance (dims : Shape) : (data : ArrayData) → Decidable (data.EndsInRange dims)
  | .plain _ => inferInstanceAs (Decidable True)
  | .view _ starts => inferInstanceAs (Decidable (Shape.EndsInRange starts dims))

/-- A numeric array. -/
structure ArrayObject extends Extents where
  kind : ElementKind
  data : ArrayData
  /-- a view is made only on a window whose ends are words -/
  ends : data.EndsInRange toExtents.dims
deriving DecidableEq, Repr

instance : Inhabited ArrayObject := ⟨⟨default, default, .plain default, trivial⟩⟩

/-- An object of the heap. -/
inductive Object where
  | string (bytes : Array UInt8)
  | array (a : ArrayObject)
  | list (items : Array Value)
  | tuple (items : Array Value)
  | record (classId : UInt32) (fields : Array Value)
deriving DecidableEq, Repr, Inhabited

namespace ArrayObject

/-- A view on a window of a base, given as start and count for every dimension. -/
def view (kind : ElementKind) (base : ObjectId) (window : List (Int64 × Int64))
    (ends : Shape.EndsInRange (window.map (·.1)) (window.map (·.2))) : ArrayObject :=
  ⟨.ofShape (window.map (·.2)), kind, .view base (window.map (·.1)),
    (Extents.dims_ofShape (window.map (·.2))).symm ▸ ends⟩

def isView (a : ArrayObject) : Bool :=
  match a.data with
  | .plain _ => false
  | .view _ _ => true

end ArrayObject

/-- The words of element `i` in packed element words. -/
def elementAt (kind : ElementKind) (words : Array UInt64) (i : Nat) : Words :=
  match kind with
  | .complex => ⟨words.getD (2 * i) 0, words.getD (2 * i + 1) 0⟩
  | _ => .single (words.getD i 0)

/-- Packed element words with element `i` replaced. -/
def setElementAt (kind : ElementKind) (words : Array UInt64) (i : Nat) (w : Words) :
    Array UInt64 :=
  match kind with
  | .complex => (words.setIfInBounds (2 * i) w.lo).setIfInBounds (2 * i + 1) w.hi
  | _ => words.setIfInBounds i w.lo

/-- The data words of one element. -/
def elementWords (kind : ElementKind) (w : Words) : List UInt64 :=
  match kind with
  | .complex => [w.lo, w.hi]
  | _ => [w.lo]

namespace Object

def kind : Object → ObjectKind
  | string _ => .string
  | array _ => .array
  | list _ => .list
  | tuple _ => .tuple
  | record _ _ => .object

/-- The objects an object holds references to, one entry for each reference. -/
def references : Object → List ObjectId
  | string _ => []
  | array a =>
    match a.data with
    | .plain _ => []
    | .view base _ => [base]
  | list items | tuple items => items.toList.filterMap Value.ref?
  | record _ fields => fields.toList.filterMap Value.ref?

/-- The value slots of an object. -/
def slots : Object → Array Value
  | list items | tuple items => items
  | record _ fields => fields
  | _ => #[]

/-- An object with its value slots replaced. -/
def withSlots (o : Object) (slots : Array Value) : Object :=
  match o with
  | list _ => list slots
  | tuple _ => tuple slots
  | record c _ => record c slots
  | other => other

end Object

end RegisterVM
