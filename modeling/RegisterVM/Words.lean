/-!
# Payload words

Every scalar the machine holds is two 64-bit words. What the words mean depends on who reads them:

| reading | words used |
| --- | --- |
| bool | `lo ≠ 0` |
| int, enum | `lo`, two's complement |
| float | `lo`, a binary64 pattern |
| complex | `lo` real part, `hi` imaginary part, both binary64 patterns |

Reading never consults a tag, so words survive being written under one kind and read under another.
-/

namespace RegisterVM

/-- The two payload words of a slot. -/
structure Words where
  lo : UInt64
  hi : UInt64
deriving DecidableEq, Repr, Inhabited

namespace Words

/-- A one-word payload; the second word is clear. -/
def single (w : UInt64) : Words := ⟨w, 0⟩

/-- The word of a truth value. -/
def ofBool (b : Bool) : UInt64 := if b then 1 else 0

/-- The integer reading. -/
def int (w : Words) : Int64 := w.lo.toInt64

/-- The truth reading: any nonzero word is true. -/
def bool (w : Words) : Bool := w.lo != 0

/-- The low word of a single word. -/
@[simp] theorem single_lo (w : UInt64) : (single w).lo = w := rfl

/-- Its high word is zero. -/
@[simp] theorem single_hi (w : UInt64) : (single w).hi = 0 := rfl

/-- An integer is read back from its word. -/
@[simp] theorem int_single (i : Int64) : (single i.toUInt64).int = i := rfl

/-- A truth value is read back from its word. -/
@[simp] theorem bool_single_ofBool (b : Bool) : (single (ofBool b)).bool = b := by
  cases b <;> rfl

end Words

end RegisterVM
