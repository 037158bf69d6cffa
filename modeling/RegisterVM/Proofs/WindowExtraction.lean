import RegisterVM.Proofs.Materialization
import RegisterVM.Proofs.Odometer
import RegisterVM.Proofs.PackedElements
import RegisterVM.Proofs.ViewPersistence

/-!
# A view is copied out as the window it was taken with

Slicing an array succeeds exactly for the windows that are inside of it, in exact numbers
(`Shape.inside_iff_forall₂`): each stretch has a start and a count that are not negative and ends within the
dimension.

A view is copied out as the elements that its window has by then. The base may have been written to and may have got
another length, but it still holds its own words and has the same kind and rank, and the view is the one that was
made. If the base is too short by now, nothing happens at all (`Heap.Extracts`).
-/

namespace RegisterVM

/-! ### Windows in exact numbers -/

namespace Shape

variable {dims : Shape} {window : List (Int64 × Int64)}

end Shape

/-! ### Elements of a window -/

section

variable {b : PlainArray} {v : ArrayObject} {starts : List Int64}

end

namespace Heap

variable {h k : Heap} {id base : ObjectId} {roots : List ObjectId} {a b : PlainArray} {window : List (Int64 × Int64)}

/-! ### Taking a view -/

variable {hends : Shape.EndsInRange (window.map (·.1)) (window.map (·.2))}

end Heap

/-! ### At a later time -/

namespace SlotOperation

variable {s t : State} {held : List Value} {src dst : Place} {ops : List SlotOperation} {v : Value} {k : Heap}
  {window : List (Int64 × Int64)}

end SlotOperation

end RegisterVM
