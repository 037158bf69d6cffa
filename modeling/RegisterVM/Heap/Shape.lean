import RegisterVM.Failure
import RegisterVM.Scalar.Integer

/-!
# Array shapes

A shape is a list of dimensions. Elements are laid out in row-major order: the stride of a dimension
is the product of the dimensions after it, and the place of an index tuple is the sum of index times
stride. Dimensions are 64-bit words, so products of them wrap.

An array keeps its element count and its strides next to its dimensions (`Extents`) and computes
places from what it keeps.
-/

namespace RegisterVM

/-- The dimensions of an array, outermost first. -/
abbrev Shape := List Int64

/-- One dimension of an array as it is kept: its length and the distance of neighbours along it. -/
structure Axis where
  length : Int64
  stride : Int64
deriving DecidableEq, Repr, Inhabited

/-- What an array keeps about its shape. -/
structure Extents where
  /-- the number of elements -/
  size : Int64
  /-- the dimensions, outermost first -/
  axes : List Axis
deriving DecidableEq, Repr, Inhabited

namespace Shape

/-- The number of elements: the product of the dimensions, one for an array without dimensions. -/
def size : Shape → Int64
  | [] => 1
  | d :: ds => d * size ds

/-- The row-major strides. -/
def strides : Shape → List Int64
  | [] => []
  | _ :: ds => size ds :: strides ds

/-- The dimensions with their row-major strides. -/
def axes : Shape → List Axis
  | [] => []
  | d :: ds => ⟨d, size ds⟩ :: axes ds

/-- An unsigned reading of a dimension or an offset. -/
def word (i : Int64) : Nat := i.toUInt64.toNat

/-- The end of every stretch, start plus count, is a word. -/
def EndsInRange (starts counts : List Int64) : Prop :=
  ∀ p ∈ starts.zip counts, p.1.toInt + p.2.toInt < 9223372036854775808

instance (starts counts : List Int64) : Decidable (EndsInRange starts counts) :=
  List.decidableBAll (fun p : Int64 × Int64 => p.1.toInt + p.2.toInt < 9223372036854775808) (starts.zip counts)

/-- Checks a window, one start and count for every dimension, from the outermost dimension on. A
stretch whose end is no word stops the machine. -/
def checkWindow : Shape → List (Int64 × Int64) → Except Failure Unit
  | [], [] => .ok ()
  | dim :: dims, (start, count) :: window =>
    if start < 0 || count < 0 then .error (.code .index)
    else if 9223372036854775808 ≤ start.toInt + count.toInt then .error (.fault .overflow)
    else if dim < start + count then .error (.code .index)
    else checkWindow dims window
  | _, _ => .error (.code .shape)

/-- The window that passed the check has ends that are words. -/
theorem endsInRange_of_checkWindow {dims : Shape} {window : List (Int64 × Int64)}
    (h : dims.checkWindow window = .ok ()) :
    EndsInRange (window.map (·.1)) (window.map (·.2)) := by
  induction dims generalizing window with
  | nil =>
    cases window with
    | nil => exact fun p hp => nomatch hp
    | cons stretch window => cases h
  | cons dim dims ih =>
    cases window with
    | nil => cases h
    | cons stretch window =>
      rw [checkWindow] at h
      by_cases hsign : (stretch.1 < 0 || stretch.2 < 0) = true
      · rw [if_pos hsign] at h
        cases h
      by_cases hend : 9223372036854775808 ≤ stretch.1.toInt + stretch.2.toInt
      · rw [if_neg hsign, if_pos hend] at h
        cases h
      by_cases hdim : dim < stretch.1 + stretch.2
      · rw [if_neg hsign, if_neg hend, if_pos hdim] at h
        cases h
      rw [if_neg hsign, if_neg hend, if_neg hdim] at h
      intro p hp
      rcases List.mem_cons.1 hp with rfl | hp
      · exact Int.not_le.1 hend
      · exact ih h p hp

/-- Whether a window of starts and counts stays within the dimensions. -/
def windowFits (dims : Shape) (starts counts : List Int64) : Bool :=
  ((starts.zip counts).zip dims).all fun ((start, count), dim) => !(dim < start + count)

/-- The offsets a window selects, in row-major order of the window. -/
def windowOffsets : List Int64 → List Int64 → List Int64 → List Int64
  | start :: starts, count :: counts, stride :: strides =>
    let inner := windowOffsets starts counts strides
    (List.range (word count)).flatMap fun i =>
      inner.map fun rest => (start + Int64.ofNat i) * stride + rest
  | _, _, _ => [0]

end Shape

namespace Extents

/-- What an array of a shape keeps when it is made. -/
def ofShape (dims : Shape) : Extents := ⟨dims.size, dims.axes⟩

def dims (e : Extents) : Shape := e.axes.map Axis.length

def strides (e : Extents) : List Int64 := e.axes.map Axis.stride

/-- The extents of a row after its length has changed. -/
def withLength (e : Extents) (length : Int64) : Extents :=
  ⟨length, e.axes.modifyHead fun x => { x with length := length }⟩

/-- The place of one possibly negative index over all elements. -/
def flatIndex (e : Extents) (i : Int64) : Except ErrorCode Nat := checkIndex i e.size

/-- The place of one index for each dimension, in words: indices times strides. -/
def place : List Axis → List Int64 → Except ErrorCode UInt64
  | [], [] => .ok 0
  | x :: xs, i :: is => do
    let k ← checkIndex i x.length
    let rest ← place xs is
    return UInt64.ofNat k * x.stride.toUInt64 + rest
  | _, _ => .error .index

/-- The place of an index tuple, which must have one index for each dimension. -/
def flatMultiIndex (e : Extents) (indices : List Int64) : Except ErrorCode Nat :=
  if indices.length = e.axes.length then (place e.axes indices).map UInt64.toNat
  else .error .index

/-- The offsets in a base array that a view with these extents selects, in the order of the view's
own elements. -/
def selected (view base : Extents) (starts : List Int64) : List Int64 :=
  if view.axes.isEmpty || 0 < view.size then
    Shape.windowOffsets starts view.dims base.strides
  else []

/-- The extents made from a shape have it. -/
@[simp]
theorem dims_ofShape (dims : Shape) : (ofShape dims).dims = dims := by
  show dims.axes.map Axis.length = dims
  induction dims with
  | nil => rfl
  | cons d ds ih => rw [Shape.axes, List.map_cons, ih]

end Extents

end RegisterVM
