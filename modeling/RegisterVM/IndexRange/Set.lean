import RegisterVM.IndexRange.Basic

/-!
# Sets of ranges ordered by position

A set kept as a list in ascending position. Because overlapping ranges compare as equal, a lookup
with a one-index range finds the member that contains the index, and inserting a range that overlaps
a member changes nothing. On families of pairwise disjoint non-empty ranges this is an ordinary
ordered set.
-/

namespace RegisterVM

/-- Ranges in ascending position. -/
structure RangeSet where
  toList : List IndexRange
deriving Repr, Inhabited, DecidableEq

namespace RangeSet

def empty : RangeSet := ⟨[]⟩

/-- Insertion into an ascending list; an equivalent member is kept instead. -/
def insertInto (r : IndexRange) : List IndexRange → List IndexRange
  | [] => [r]
  | s :: rest =>
    match r.compare s with
    | .lt => r :: s :: rest
    | .eq => s :: rest
    | .gt => s :: insertInto r rest

/-- Removal of the member equivalent to `r` from an ascending list. -/
def eraseFrom (r : IndexRange) : List IndexRange → List IndexRange
  | [] => []
  | s :: rest =>
    match r.compare s with
    | .lt => s :: rest
    | .eq => rest
    | .gt => s :: eraseFrom r rest

def insert (set : RangeSet) (r : IndexRange) : RangeSet := ⟨insertInto r set.toList⟩

def erase (set : RangeSet) (r : IndexRange) : RangeSet := ⟨eraseFrom r set.toList⟩

def ofList (ranges : List IndexRange) : RangeSet := ranges.foldl insert empty

/-- The member equivalent to `r`. -/
def find? (set : RangeSet) (r : IndexRange) : Option IndexRange :=
  set.toList.find? fun s => r.compare s == .eq

/-- The member that contains index `i`. -/
def containing? (set : RangeSet) (i : Nat) : Option IndexRange := set.find? (.point i)

def size (set : RangeSet) : Nat := set.toList.length

/-- How many indices the members hold together. -/
def covered (set : RangeSet) : Nat := set.toList.foldr (fun r n => r.length + n) 0

/-- Every member replaced by its pieces, in place. -/
def subdivide (set : RangeSet) (pieces : IndexRange → List IndexRange) : RangeSet :=
  ⟨set.toList.flatMap pieces⟩

end RangeSet

end RegisterVM
