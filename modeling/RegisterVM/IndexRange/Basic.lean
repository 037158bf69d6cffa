/-!
# Inclusive index ranges

A range `[start, end]` of instruction indices, both ends included, empty when `start > end`. Ranges
are compared by position: one range precedes another when it ends before the other starts, and
ranges that overlap compare as equal.
-/

namespace RegisterVM

/-- The indices from `first` to `last`, both included. -/
structure IndexRange where
  first : Nat
  last : Nat
deriving DecidableEq, Repr, Inhabited

namespace IndexRange

/-- The range of one index. -/
def point (i : Nat) : IndexRange := ⟨i, i⟩

def isEmpty (r : IndexRange) : Bool := r.last < r.first

/-- How many indices the range holds. -/
def length (r : IndexRange) : Nat := r.last + 1 - r.first

def contains (r : IndexRange) (i : Nat) : Bool := r.first ≤ i && i ≤ r.last

/-- Whether a branch from inside may land at `t`: inside the range or right after it. -/
def admits (r : IndexRange) (t : Nat) : Bool := r.first ≤ t && t ≤ r.last + 1

/-- The indices in ascending order. -/
def indices (r : IndexRange) : List Nat := List.range' r.first r.length

/-- Order by position; overlapping ranges are equivalent. -/
def compare (r s : IndexRange) : Ordering :=
  if r.last < s.first then .lt else if s.last < r.first then .gt else .eq

/-- The range written out. -/
def text (r : IndexRange) : String :=
  "[" ++ toString r.first ++ ", " ++ toString r.last ++ "]"

/-- The indices that a range contains. -/
theorem contains_iff {r : IndexRange} {i : Nat} :
    r.contains i = true ↔ r.first ≤ i ∧ i ≤ r.last := by
  simp [contains]

/-- A branch may go into the range or right behind it. -/
theorem admits_iff {r : IndexRange} {t : Nat} :
    r.admits t = true ↔ r.first ≤ t ∧ t ≤ r.last + 1 := by
  simp [admits]

/-- The indices that are listed. -/
theorem mem_indices {r : IndexRange} {i : Nat} : i ∈ r.indices ↔ r.first ≤ i ∧ i ≤ r.last := by
  simp [indices, List.mem_range'_1, length]
  omega

end IndexRange

end RegisterVM
