import RegisterVM.Instruction

/-!
# Register sets

A set of registers as a sequence of 64-bit words, register `64 w + k` being bit `k` of word `w`. The
sequence grows when a register past its end is inserted; words past the end count as empty, so two
sets of different lengths can be compared and joined.
-/

namespace RegisterVM

/-- A set of registers, one bit each. -/
structure RegSet where
  words : Array UInt64
deriving Repr, Inhabited, DecidableEq

namespace RegSet

/-- The empty set with no words. -/
def empty : RegSet := ⟨#[]⟩

/-- The empty set with room for registers below `n`. -/
def withCapacity (n : Nat) : RegSet := ⟨Array.replicate ((n + 63) / 64) 0⟩

/-- The word a register lives in. -/
def wordOf (r : Reg) : Nat := r.toNat / 64

/-- The bit of a register in its word. -/
def mask (r : Reg) : UInt64 := 1 <<< (r.toUInt64 % 64)

/-- The set with at least `n` words. -/
def grow (s : RegSet) (n : Nat) : RegSet :=
  ⟨s.words ++ Array.replicate (n - s.words.size) 0⟩

def contains (s : RegSet) (r : Reg) : Bool := s.words.getD (wordOf r) 0 &&& mask r != 0

def insert (s : RegSet) (r : Reg) : RegSet :=
  ⟨(s.grow (wordOf r + 1)).words.modify (wordOf r) (· ||| mask r)⟩

def erase (s : RegSet) (r : Reg) : RegSet :=
  ⟨s.words.modify (wordOf r) (· &&& ~~~mask r)⟩

/-- Both sets together. -/
def union (s t : RegSet) : RegSet :=
  let wide := (s.grow t.words.size).words
  ⟨wide.mapIdx fun i w => w ||| t.words.getD i 0⟩

/-- Both sets together, and whether that is more than the first. -/
def unionChanged (s t : RegSet) : RegSet × Bool :=
  let u := s.union t
  (u, (s.grow t.words.size).words != u.words)

def isEmpty (s : RegSet) : Bool := s.words.all (· == 0)

/-- The members in ascending order. -/
def toList (s : RegSet) : List Reg :=
  s.words.toList.zipIdx.flatMap fun (word, w) =>
    (List.range 64).filterMap fun k =>
      if (word >>> UInt64.ofNat k) &&& 1 != 0 then some (UInt16.ofNat (64 * w + k)) else none

end RegSet

end RegisterVM
