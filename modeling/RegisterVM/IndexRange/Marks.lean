import RegisterVM.IndexRange.Basic

/-!
# Marked indices

Some of the indices of a range, kept as one flag for each index, so that asking for an index and
adding one take the same time whatever the length of the range. `contains_ofList` says which indices
end up marked, and `mem_toList` that listing the marks agrees with asking.
-/

namespace RegisterVM

/-- Marked indices of a range; flag `k` belongs to index `range.first + k`. -/
structure Marks where
  range : IndexRange
  flags : Array Bool
deriving DecidableEq, Repr, Inhabited

namespace Marks

/-- No index marked. -/
def empty (range : IndexRange) : Marks := ⟨range, Array.replicate range.length false⟩

/-- Marks an index; one outside the range is ignored. -/
def insert (m : Marks) (i : Nat) : Marks :=
  if m.range.contains i then
    { m with flags := m.flags.setIfInBounds (i - m.range.first) true }
  else m

def contains (m : Marks) (i : Nat) : Bool :=
  m.range.contains i && m.flags.getD (i - m.range.first) false

/-- The indices of a range that occur in a list. -/
def ofList (range : IndexRange) (is : List Nat) : Marks := is.foldl insert (empty range)

/-- The marked indices in ascending order. -/
def toList (m : Marks) : List Nat := m.range.indices.filter m.contains

/-- Marking an index keeps the range. -/
@[simp] theorem range_insert (m : Marks) (i : Nat) : (m.insert i).range = m.range := by
  unfold insert
  split <;> rfl

/-- Marking an index keeps the number of marks. -/
@[simp] theorem size_flags_insert (m : Marks) (i : Nat) :
    (m.insert i).flags.size = m.flags.size := by
  unfold insert
  split <;> simp

/-- Marking an index of the range adds it. -/
theorem contains_insert {m : Marks} (h : m.flags.size = m.range.length) (i j : Nat) :
    (m.insert i).contains j = true ↔
      (m.range.contains j = true ∧ j = i) ∨ m.contains j = true := by
  unfold insert contains
  split
  · rename_i hi
    rw [IndexRange.contains_iff] at hi
    by_cases hj : m.range.contains j = true
    · have hj' := IndexRange.contains_iff.1 hj
      have hlen : i - m.range.first < m.flags.size := by
        rw [h, IndexRange.length]
        omega
      have hsame : i - m.range.first = j - m.range.first ↔ j = i := by omega
      simp only [hj, Bool.true_and, true_and, Array.getD_eq_getD_getElem?,
        Array.getElem?_setIfInBounds, hsame]
      by_cases hij : j = i
      · simp [hij, hlen]
      · simp [hij]
    · simp [hj]
  · rename_i hi
    constructor
    · exact Or.inr
    · rintro (⟨hj, rfl⟩ | hm)
      · exact absurd hj hi
      · exact hm

/-- Marking several indices adds those of the range. -/
theorem foldl_insert {m : Marks} (h : m.flags.size = m.range.length) (is : List Nat) (j : Nat) :
    (is.foldl insert m).contains j = true ↔
      (m.range.contains j = true ∧ j ∈ is) ∨ m.contains j = true := by
  induction is generalizing m with
  | nil => simp
  | cons i is ih =>
    rw [List.foldl_cons, ih (by simpa using h), contains_insert h, range_insert]
    simp only [List.mem_cons]
    grind

/-- There are no marks at first. -/
@[simp] theorem contains_empty (range : IndexRange) (j : Nat) :
    (empty range).contains j = false := by
  simp only [contains, empty, Array.getD_eq_getD_getElem?, Array.getElem?_replicate]
  split <;> simp

/-- **Exactly the listed indices of the range are marked.** -/
theorem contains_ofList {range : IndexRange} {is : List Nat} {j : Nat} :
    (ofList range is).contains j = true ↔ range.contains j = true ∧ j ∈ is := by
  rw [ofList, foldl_insert (by simp [empty]), contains_empty]
  simp only [Bool.false_eq_true, or_false]
  rfl

/-- The list has just the marked indices. -/
theorem mem_toList {m : Marks} {j : Nat} : j ∈ m.toList ↔ m.contains j = true := by
  rw [toList, List.mem_filter, IndexRange.mem_indices]
  constructor
  · exact And.right
  · intro h
    have hr : m.range.contains j = true := by
      rw [contains, Bool.and_eq_true] at h
      exact h.1
    exact ⟨IndexRange.contains_iff.1 hr, h⟩

end Marks

end RegisterVM
