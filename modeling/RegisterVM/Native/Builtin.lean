import RegisterVM.Machine.Step

/-!
# Operations called by compiled code

Work on containers and strings, checked moves and most mathematical functions are not emitted
inline: compiled code calls a named builtin for them. A builtin gets the addresses of value slots
and returns a status word, zero or the number of an error code; the mathematical ones take and
return floats.
-/

namespace RegisterVM
namespace Native

/-- A machine type in a signature. -/
inductive MachineType where
  | i32
  | i64
  | f64
deriving DecidableEq, Repr

def MachineType.name : MachineType → String
  | i32 => "i32"
  | i64 => "i64"
  | f64 => "f64"

/-- An operation compiled code calls by name. -/
inductive Builtin where
  | arrayReslice
  | arrayArith
  | arrayAssign
  | listGet
  | listSet
  | valueMove
  | stringMove
  | stringConcat
  | stringCompare
  | stringSetChar
  | sin
  | cos
  | tan
  | asin
  | acos
  | atan
  | exp
  | ln
  | pow
  | fmod
  | rand
deriving DecidableEq, Repr

namespace Builtin

def all : List Builtin :=
  [arrayReslice, arrayArith, arrayAssign, listGet, listSet, valueMove, stringMove, stringConcat,
    stringCompare, stringSetChar, sin, cos, tan, asin, acos, atan, exp, ln, pow, fmod, rand]

def name : Builtin → String
  | arrayReslice => "ArrayReslice"
  | arrayArith => "ArrayArith"
  | arrayAssign => "ArrayAssign"
  | listGet => "ListGet"
  | listSet => "ListSet"
  | valueMove => "ValueMove"
  | stringMove => "StringMove"
  | stringConcat => "StringConcat"
  | stringCompare => "StringCompare"
  | stringSetChar => "StringSetChar"
  | sin => "Sin"
  | cos => "Cos"
  | tan => "Tan"
  | asin => "Asin"
  | acos => "Acos"
  | atan => "Atan"
  | exp => "Exp"
  | ln => "Ln"
  | pow => "Pow"
  | fmod => "Fmod"
  | rand => "Rand"

/-- The symbol compiled code links against. -/
def symbol : Builtin → String
  | arrayReslice => "dvm_array_reslice"
  | arrayArith => "dvm_array_arith"
  | arrayAssign => "dvm_array_assign"
  | listGet => "dvm_list_get"
  | listSet => "dvm_list_set"
  | valueMove => "dvm_value_move"
  | stringMove => "dvm_string_move"
  | stringConcat => "dvm_string_concat"
  | stringCompare => "dvm_string_compare"
  | stringSetChar => "dvm_string_set_char"
  | sin => "dvm_sin"
  | cos => "dvm_cos"
  | tan => "dvm_tan"
  | asin => "dvm_asin"
  | acos => "dvm_acos"
  | atan => "dvm_atan"
  | exp => "dvm_exp"
  | ln => "dvm_ln"
  | pow => "dvm_pow"
  | fmod => "dvm_fmod"
  | rand => "dvm_rand"

def ofSymbol? (s : String) : Option Builtin := all.find? (·.symbol == s)

/-- Parameter types; addresses are words. -/
def parameters : Builtin → List MachineType
  | arrayReslice => [.i64]
  | arrayArith => [.i32, .i64, .i64, .i64]
  | arrayAssign | stringMove | stringCompare => [.i64, .i64]
  | listGet => [.i64, .i64, .i64, .i32]
  | listSet | stringConcat | stringSetChar => [.i64, .i64, .i64]
  | valueMove => [.i64, .i64, .i32]
  | pow | fmod => [.f64, .f64]
  | sin | cos | tan | asin | acos | atan | exp | ln | rand => [.f64]

/-- The result type, if there is a result. -/
def result? : Builtin → Option MachineType
  | stringMove | stringConcat => none
  | stringCompare => some .i64
  | arrayReslice | arrayArith | arrayAssign => some .i32
  | listGet | listSet | valueMove | stringSetChar => some .i32
  | sin | cos | tan | asin | acos | atan | exp | ln | pow | fmod | rand => some .f64

/-- The builtin that computes a mathematical function; the others are emitted inline. -/
def ofMath? : MathFn → Option Builtin
  | .sin => some sin
  | .cos => some cos
  | .tan => some tan
  | .asin => some asin
  | .acos => some acos
  | .atan => some atan
  | .exp => some exp
  | .ln => some ln
  | .rand => some rand
  | .sqrt | .abs | .ceil | .floor => none

/-- The function a mathematical builtin of one argument computes. -/
def math? (h : Builtin) : Option MathFn := MathFn.all.find? (ofMath? · == some h)

/-- A floating-point builtin applied to its arguments. -/
def applyFloat? (h : Builtin) (args : List UInt64) (g : Random.Generator) :
    Option (UInt64 × Random.Generator) :=
  match h, args with
  | pow, [x, y] => some (Binary64.pow x y, g)
  | fmod, [x, y] => some (Binary64.mod x y, g)
  | h, [x] => h.math?.map fun f => f.apply x g
  | _, _ => none

/-- Whether a value carries the tag a builtin was told to expect by number. -/
def accepts (expected : Nat) (v : Value) : Bool :=
  expected = Tag.wildcard || v.tag.code = expected

/-- Fails unless the tag is as expected. -/
def checkTagNumber (v : Value) (expected : Nat) : Exec Unit :=
  if accepts expected v then pure () else Exec.fail .value

variable [DataAccess]

/-- Copies a slot out of its base. -/
def reslice (a : Place) : Exec Unit := do
  let _ ← Exec.onHeap (Heap.plainArray (← Exec.read a))

/-- Elementwise arithmetic by opcode number. -/
def arithInto (code : Int) (dst a b : Place) : Exec Unit := do
  let op := if code < 0 then none else Opcode.ofCode? code.toNat
  match op with
  | none => Exec.fail .value
  | some op =>
    let v ← Exec.onHeap (Heap.arithByOpcode Heap.arrayArith op (← Exec.read a) (← Exec.read b))
    Exec.put dst v

/-- Whole-array assignment. -/
def assign (dst src : Place) : Exec Unit := do
  Exec.onHeap (Heap.assignAll (← Exec.read dst) (← Exec.read src))

/-- Reads a list item into a slot, if its tag is as expected. -/
def itemInto (list : Place) (i : Int64) (dst : Place) (expected : Nat) : Exec Unit := do
  let item ← Exec.onHeap (Heap.listItem (← Exec.read list) i)
  checkTagNumber item expected
  Exec.write dst item

/-- Replaces a list item. -/
def setItem (list : Place) (i : Int64) (src : Place) : Exec Unit := do
  Exec.onHeap (Heap.listSet (← Exec.read list) i (← Exec.read src))

/-- Copies a slot, if its tag is as expected. -/
def moveInto (dst src : Place) (expected : Nat) : Exec Unit := do
  let v ← Exec.read src
  checkTagNumber v expected
  Exec.write dst v

/-- Joins two strings into a slot. -/
def concatInto (dst a b : Place) : Exec Unit := do
  Exec.put dst (← Exec.onHeap (Heap.concat (← Exec.read a) (← Exec.read b)))

/-- The order of two strings. -/
def compare (a b : Place) : Exec Ordering := do
  let x ← Exec.read a
  let y ← Exec.read b
  return (← get).heap.compareStrings x y

/-- Replaces a byte of the string in a slot. -/
def setByte (dst : Place) (i ch : Int64) : Exec Unit := do
  let v ← Exec.onHeap (Heap.setChar (← Exec.read dst) i ch)
  Exec.overwrite dst fun _ => v

/-- The status word of a builtin: what it did stays done, an error code becomes its number. -/
def statusOf (m : Exec Unit) : Exec Int32 := fun s =>
  match m s with
  | .ok _ s => .ok 0 s
  | .error (.code e) s => .ok e.status s
  | .error f s => .error f s

end Builtin
end Native
end RegisterVM
