import RegisterVM.Heap.Strings
import RegisterVM.Scalar.Number

/-!
# Instruction sequences

What has no instruction of its own in machine code is a short sequence of those there are. A sequence
chooses between words that are both computed (`select`), and leaves with an error where a condition
holds (`failIf`). The machine traps on a zero divisor, and on minus one if the quotient overflows, so
it divides by neither (`Divisor`).

| sequence | for |
| --- | --- |
| `quotient`, `remainder` | division of integers, where minus one is handled without dividing |
| `power` | powers of integers, by way of floats |
| `normalize` | an index, counted from the end if it is negative |
| `flatPlace`, `multiPlace` | the place of an element, by one index or by one for each axis |
| `complexArith`, `compareComplex` | complex numbers, lane by lane |
-/

namespace RegisterVM
namespace Native

/-- Leaves with an error if a condition holds. -/
def failIf (cond : Bool) (e : ErrorCode) : Except ErrorCode Unit :=
  if cond then .error e else .ok ()

/-- The first of two words if a condition holds, and the second if not. -/
def select (cond : Bool) (x y : Int64) : Int64 := if cond then x else y

/-! ### Integers -/

/-- A word the machine divides any other by without a trap. -/
structure Divisor where
  word : Int64
  ne_zero : word ≠ 0
  ne_neg_one : word ≠ -1

/-- What is divided by in place of `y`: one for minus one. -/
def Divisor.of (y : Int64) (h : y ≠ 0) : Divisor where
  word := select (y = -1) 1 y
  ne_zero := by
    unfold select
    split
    · decide
    · exact h
  ne_neg_one := by
    unfold select
    split
    · decide
    · rename_i hne
      exact fun heq => hne (decide_eq_true heq)

/-- Truncated division by the machine. -/
def sdiv (x : Int64) (d : Divisor) : Int64 := x / d.word

/-- The remainder of truncated division by the machine. -/
def srem (x : Int64) (d : Divisor) : Int64 := x % d.word

def quotient (x y : Int64) : Except ErrorCode Int64 :=
  if h : y = 0 then .error .arithmetic
  else
    let q := sdiv x (.of y h)
    let negated := -x
    .ok (select (y = -1) negated q)

def remainder (x y : Int64) : Except ErrorCode Int64 :=
  if h : y = 0 then .error .arithmetic else .ok (srem x (.of y h))

/-- A power, computed in binary64 and converted back. -/
def power (x y : Int64) : Int64 :=
  let fx := Binary64.ofInt x
  let fy := Binary64.ofInt y
  let p := Binary64.pow fx fy
  Binary64.toInt p

/-- An arithmetic operation on integers. -/
def intArith (op : ArithOp) (x y : Int64) : Except ErrorCode Int64 :=
  match op with
  | .add => .ok (x + y)
  | .sub => .ok (x - y)
  | .mul => .ok (x * y)
  | .div => quotient x y
  | .mod => remainder x y
  | .pow => .ok (power x y)

/-! ### Complex numbers -/

/-- An arithmetic operation on complex numbers. -/
def complexArith (op : FieldOp) (x y : Words) : Words :=
  match op with
  | .add => ⟨Binary64.add x.lo y.lo, Binary64.add x.hi y.hi⟩
  | .sub => ⟨Binary64.sub x.lo y.lo, Binary64.sub x.hi y.hi⟩
  | .mul =>
    let rr := Binary64.mul x.lo y.lo
    let ii := Binary64.mul x.hi y.hi
    let ri := Binary64.mul x.lo y.hi
    let ir := Binary64.mul x.hi y.lo
    ⟨Binary64.sub rr ii, Binary64.add ri ir⟩
  | .div =>
    let lo2 := Binary64.mul y.lo y.lo
    let hi2 := Binary64.mul y.hi y.hi
    let norm := Binary64.add lo2 hi2
    let rr := Binary64.mul x.lo y.lo
    let ii := Binary64.mul x.hi y.hi
    let re := Binary64.add rr ii
    let ir := Binary64.mul x.hi y.lo
    let ri := Binary64.mul x.lo y.hi
    let im := Binary64.sub ir ri
    ⟨Binary64.div re norm, Binary64.div im norm⟩

/-- A comparison of complex numbers: both lanes are equal, or one of them differs. -/
def compareComplex (rel : Equality) (x y : Words) : Bool :=
  match rel with
  | .eq => Relation.eq.float x.lo y.lo && Relation.eq.float x.hi y.hi
  | .ne => Relation.ne.float x.lo y.lo || Relation.ne.float x.hi y.hi

/-! ### Indices -/

/-- An index among `len` items, as the word that is at least zero. -/
def normalize (index len : Int64) : Except ErrorCode Int64 := do
  let wrapped := index + len
  let i := select (index < 0) wrapped index
  failIf (len.toUInt64 ≤ i.toUInt64) .index
  return i

/-- The place of an element by an index over all of them. -/
def flatPlace (index : Int64) (e : Extents) : Except ErrorCode Nat := do
  let i ← normalize index e.size
  return i.toUInt64.toNat

/-- Adds what the index for an axis contributes to the place of an element. -/
def addAxis (flat : Int64) (p : Axis × Int64) : Except ErrorCode Int64 := do
  let i ← normalize p.2 p.1.length
  return flat + i * p.1.stride

/-- The place of an element by `count` indices, one for each axis. -/
def multiPlace (count : Int) (is : List Int64) (e : Extents) : Except ErrorCode Nat := do
  failIf ((e.axes.length : Int) ≠ count) .index
  let flat ← (e.axes.zip is).foldlM addAxis 0
  return flat.toUInt64.toNat

/-- The byte of a string at an index. -/
def charAt (v : Value) (index : Int64) : HeapM Int64 := do
  match (← get).bytes? v with
  | none => throw .value
  | some bytes =>
    let i ← Heap.lift (normalize index (Int64.ofNat bytes.size))
    return Int64.ofNat (bytes.getD i.toUInt64.toNat 0).toNat

end Native
end RegisterVM
