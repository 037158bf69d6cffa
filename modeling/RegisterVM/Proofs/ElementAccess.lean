import Mathlib
import RegisterVM.Heap.Equality

/-!
# Reading and writing elements

As long as an access outside the data of an array has no further effect, which is how the machine runs, reading
elements is a plain computation: the elements of an array, the words a view selects and the numbers of an operand are
functions of the array, and storing an element changes one object. The equations of this module say so, operation by
operation.
-/

namespace RegisterVM

namespace PlainArray

/-- The elements as numbers, in row-major order. -/
def number (a : PlainArray) (i : Nat) : Number := .ofWords a.kind (a.element i)

/-- The elements as values, in row-major order. -/
def values (a : PlainArray) : List Value :=
  (List.range a.count).map fun i => .ofElement a.kind (a.element i)

/-- The element words a view selects. -/
def window (a : PlainArray) (view : ArrayObject) (starts : List Int64) : Array UInt64 :=
  ((view.selected a.toExtents starts).flatMap fun offset =>
    elementWords view.kind (a.element (Shape.word offset))).toArray

/-- The array a view on this one is when it is copied out. -/
def extract (a : PlainArray) (view : ArrayObject) (starts : List Int64) : PlainArray :=
  ⟨view.toExtents, view.kind, a.window view starts⟩

/-- Reading an element gives the element. -/
theorem fetch_eq (a : PlainArray) (i : Nat) : a.fetch i = pure (a.element i) := rfl

/-- Reading all elements gives their values. -/
theorem fetchValues_eq (a : PlainArray) : a.fetchValues = pure a.values :=
  List.mapM_pure (m := HeapM)

/-- Reading what a view selects gives the words of the window. -/
theorem fetchWindow_eq (a : PlainArray) (view : ArrayObject) (starts : List Int64) :
    a.fetchWindow view starts = pure (a.window view starts) := by
  have hall : (view.selected a.toExtents starts).mapM (m := HeapM) (fun offset => do
      return elementWords view.kind (← a.fetch (Shape.word offset))) =
        pure ((view.selected a.toExtents starts).map fun offset =>
          elementWords view.kind (a.element (Shape.word offset))) := List.mapM_pure (m := HeapM)
  unfold fetchWindow
  rw [hall, pure_bind, window, List.flatMap_def]

end PlainArray

namespace Operand

/-- The number an operand contributes at position `i`. -/
def number : Operand → Nat → Number
  | array a, i => a.number i
  | scalar n, _ => n

/-- Reading a number of an operand gives the number. -/
theorem fetch_eq (x : Operand) (i : Nat) : x.fetch i = pure (x.number i) := by
  cases x <;> rfl

/-- Elementwise arithmetic as a computation on the operands. -/
def combine (op : ArithOp) (x y : Operand) : Except ErrorCode PlainArray := do
  let dims ← x.shape y
  let kind := x.kind.join y.kind
  let ns ← (List.range (Shape.word dims.size)).mapM fun i =>
    Number.applyAt op kind (x.number i) (y.number i)
  return .ofShape kind dims (packNumbers kind ns)

end Operand

namespace Heap

variable {α β : Type}

/-- Lifting a sequence lifts its parts. -/
theorem lift_bind (r : Except ErrorCode α) (f : α → Except ErrorCode β) :
    lift (r >>= f) = lift r >>= fun a => lift (f a) := by
  cases r <;> rfl

/-- A loop of computations that may fail is one. -/
theorem mapM_lift (f : α → Except ErrorCode β) (xs : List α) :
    xs.mapM (fun x => lift (f x)) = lift (xs.mapM f) := by
  induction xs with
  | nil => rfl
  | cons x xs ih =>
    rw [List.mapM_cons, List.mapM_cons, lift_bind, ih]
    refine congrArg (lift (f x) >>= ·) (funext fun y => ?_)
    rw [lift_bind]
    rfl

/-- Elementwise arithmetic reads nothing but its operands. -/
theorem combine_eq (op : ArithOp) (x y : Operand) : combine op x y = lift (x.combine op y) := by
  unfold combine Operand.combine
  rw [lift_bind]
  refine congrArg (lift (x.shape y) >>= ·) (funext fun dims => ?_)
  dsimp only
  rw [lift_bind, ← mapM_lift]
  simp only [Operand.fetch_eq, pure_bind]
  rfl

/-- Storing words changes the object they are stored in. -/
theorem storeAs_eq (access : ElementKind) (id : ObjectId) (i : Nat) (w : Words) :
    storeAs access id i w = modify (·.modifyObject id fun o => o.setElement access i w) := rfl

/-- Reading the contents of an array gives the array and its values. -/
theorem arrayContents_eq (v : Value) :
    arrayContents v = (do
      let (_, a) ← plainArray v
      return (a, a.values)) := by
  unfold arrayContents
  simp only [PlainArray.fetchValues_eq, pure_bind]

/-- Reading the values of an array gives them. -/
theorem arrayValues_eq (v : Value) :
    arrayValues v = (do
      let (_, a) ← plainArray v
      return a.values) := by
  unfold arrayValues
  rw [arrayContents_eq, bind_assoc]
  rfl

end Heap

end RegisterVM
