import RegisterVM.Heap.Basic

/-!
# Slice views

Slicing an array makes a view: a window on the base array that is copied out only when the view is
first used. Until then the base may still change, also its length, so copying out checks the window
again. A view that has been copied out is an ordinary array and holds no reference to its base.
-/

namespace RegisterVM

/-- An array with its own words. -/
structure PlainArray extends Extents where
  kind : ElementKind
  words : Array UInt64
deriving DecidableEq, Repr, Inhabited

namespace PlainArray

/-- The array of a shape with these element words. -/
def ofShape (kind : ElementKind) (dims : Shape) (words : Array UInt64) : PlainArray :=
  ⟨.ofShape dims, kind, words⟩

/-- The array of a shape with every element zero. -/
def zeros (kind : ElementKind) (dims : Shape) : PlainArray :=
  .ofShape kind dims (Array.replicate (Shape.word dims.size * kind.words) 0)

/-- The number of elements as a count. -/
def count (a : PlainArray) : Nat := Shape.word a.size

def element (a : PlainArray) (i : Nat) : Words := elementAt a.kind a.words i

/-- Whether the words of element `i`, for elements of kind `access`, are all there. -/
def holds (a : PlainArray) (access : ElementKind) (i : Nat) : Bool :=
  (i + 1) * access.words ≤ a.words.size

variable [DataAccess]

/-- Reads element `i` from the words as an element of kind `access`. -/
def fetchAs (access : ElementKind) (a : PlainArray) (i : Nat) : HeapM Words := do
  DataAccess.touch (a.holds access i)
  return elementAt access a.words i

/-- Reads element `i`. -/
def fetch (a : PlainArray) (i : Nat) : HeapM Words := a.fetchAs a.kind i

/-- Reads all elements as values, in row-major order. -/
def fetchValues (a : PlainArray) : HeapM (List Value) :=
  (List.range a.count).mapM fun i => do return .ofElement a.kind (← a.fetch i)

/-- Reads the element words that a view on this array selects. -/
def fetchWindow (a : PlainArray) (view : ArrayObject) (starts : List Int64) :
    HeapM (Array UInt64) := do
  let elements ← (view.selected a.toExtents starts).mapM fun offset => do
    return elementWords view.kind (← a.fetch (Shape.word offset))
  return elements.flatten.toArray

end PlainArray

/-- The array of an object that holds its own words. -/
def Object.plain? : Object → Option PlainArray
  | .array a =>
    match a.data with
    | .plain words => some ⟨a.toExtents, a.kind, words⟩
    | .view _ _ => none
  | _ => none

/-- The object of an array that holds its own words. -/
def Object.ofPlain (a : PlainArray) : Object :=
  .array ⟨a.toExtents, a.kind, .plain a.words, trivial⟩

namespace Heap

variable [DataAccess]

/-- Copies a view out of its base, which is copied out first if it is a view itself; arrays that
hold their own words are left alone. `depth` bounds the chain of bases. -/
def materializeAt : Nat → ObjectId → HeapM Unit
  | 0, _ => throw .index
  | depth + 1, id => do
    match (← get).get? id with
    | some (.array a) =>
      match a.data with
      | .plain _ => return
      | .view base starts =>
        materializeAt depth base
        match ((← get).get? base).bind Object.plain? with
        | none => throw .index
        | some b =>
          if b.axes.length ≠ a.axes.length then throw .index
          if !b.dims.windowFits starts a.dims then throw .index
          let words ← b.fetchWindow a starts
          modify (·.modifyObject id fun _ => .ofPlain ⟨a.toExtents, a.kind, words⟩)
          modify (·.dropAll [base])
    | _ => throw .value

/-- Copies a view out; a chain of bases is never longer than the heap. -/
def materialize (id : ObjectId) : HeapM Unit := do
  materializeAt ((← get).cells.size + 1) id

/-- The array a value refers to, copied out if it was a view. -/
def plainArray (v : Value) : HeapM (ObjectId × PlainArray) := do
  let (id, _) ← objectOf .array v
  materialize id
  match ((← get).get? id).bind Object.plain? with
  | some a => return (id, a)
  | none => throw .value

/-- An array, copied out if it was a view, and its elements in row-major order. -/
def arrayContents (v : Value) : HeapM (PlainArray × List Value) := do
  let (_, a) ← plainArray v
  let values ← a.fetchValues
  return (a, values)

/-- The elements of an array in row-major order. -/
def arrayValues (v : Value) : HeapM (List Value) := do
  let (_, values) ← arrayContents v
  return values

/-- A view on a window, given as start and count for every dimension. -/
def slice (v : Value) (window : List (Int64 × Int64)) : HeapRun Value := do
  let (id, a) ← running (plainArray v)
  if window.length ≠ a.axes.length then throw (.code .shape)
  match hw : a.dims.checkWindow window with
  | .error f => throw f
  | .ok () =>
    modify (·.retain id)
    running (new (.array (.view a.kind id window (Shape.endsInRange_of_checkWindow hw))))

/-- Changes the length of a one-dimensional array in place, filling with zeros. The words are taken
over by the number of elements the array keeps. -/
def resize (v : Value) (length : Int64) : HeapM Unit := do
  if v.tag ≠ .array || length < 0 then throw .value
  let (id, a) ← plainArray v
  if a.axes.length ≠ 1 then throw .shape
  DataAccess.touch (a.words.size == a.count * a.kind.words)
  let n := Shape.word length * a.kind.words
  let words := a.words.take n ++ Array.replicate (n - a.words.size) 0
  modify (·.modifyObject id fun _ => .ofPlain ⟨a.toExtents.withLength length, a.kind, words⟩)

end Heap

end RegisterVM
