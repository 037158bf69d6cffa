import RegisterVM.Scalar.Number
import RegisterVM.ValueType

/-!
# Values

A value slot holds nothing, a tagged scalar with its two payload words, or a reference to a heap
object of a known kind. Reading the payload words is possible whatever the slot holds: nothing reads
as zeros, and a reference reads as its own nonzero number.
-/

namespace RegisterVM

/-- The tag of a scalar. -/
inductive ScalarTag where
  | bool
  | int
  | float
  | complex
  | enum
deriving DecidableEq, Repr, Inhabited

/-- The kind of a heap object. -/
inductive ObjectKind where
  | string
  | array
  | list
  | tuple
  | object
deriving DecidableEq, Repr, Inhabited

/-- The name of a heap object. -/
abbrev ObjectId := Nat

/-- The contents of a value slot. -/
inductive Value where
  | none
  | scalar (tag : ScalarTag) (words : Words)
  | object (kind : ObjectKind) (id : ObjectId)
deriving DecidableEq, Repr, Inhabited

def ScalarTag.tag : ScalarTag → Tag
  | bool => .bool
  | int => .int
  | float => .float
  | complex => .complex
  | enum => .enum

/-- The kind a scalar of this tag is read as. -/
def ScalarTag.kind : ScalarTag → ScalarKind
  | bool => .bool
  | int | enum => .int
  | float => .float
  | complex => .complex

def ObjectKind.tag : ObjectKind → Tag
  | string => .string
  | array => .array
  | list => .list
  | tuple => .tuple
  | object => .object

/-- The tag of the scalars of a kind. -/
def ScalarKind.tag : ScalarKind → ScalarTag
  | bool => .bool
  | int => .int
  | float => .float
  | complex => .complex

/-- The tag a scalar register type gives to what is stored in it. -/
def ValueType.scalarTag? : ValueType → Option ScalarTag
  | bool => some .bool
  | int => some .int
  | float => some .float
  | complex => some .complex
  | enum => some .enum
  | _ => Option.none

namespace Value

def ofBool (b : Bool) : Value := scalar .bool (.single (Words.ofBool b))

def ofInt (i : Int64) : Value := scalar .int (.single i.toUInt64)

def ofFloat (bits : UInt64) : Value := scalar .float (.single bits)

def ofComplex (lanes : Words) : Value := scalar .complex lanes

def ofEnum (code : Int64) : Value := scalar .enum (.single code.toUInt64)

def tag : Value → Tag
  | none => .none
  | scalar t _ => t.tag
  | object k _ => k.tag

/-- The payload words, whatever the tag. -/
def words : Value → Words
  | none => ⟨0, 0⟩
  | scalar _ w => w
  | object _ id => .single (UInt64.ofNat (id + 1))

def isNone : Value → Bool
  | none => true
  | _ => false

/-- The object a value refers to. -/
def ref? : Value → Option ObjectId
  | object _ id => some id
  | _ => Option.none

def bool? : Value → Option Bool
  | scalar .bool w => some w.bool
  | _ => Option.none

/-- The integer of an int or enum value. -/
def int? : Value → Option Int64
  | scalar .int w | scalar .enum w => some w.int
  | _ => Option.none

def float? : Value → Option UInt64
  | scalar .float w => some w.lo
  | _ => Option.none

def complex? : Value → Option Words
  | scalar .complex w => some w
  | _ => Option.none

/-- A scalar as a numeric operand; truth values count as integers. -/
def number? : Value → Option Number
  | scalar .bool w | scalar .int w | scalar .enum w => some (.int w.int)
  | scalar .float w => some (.float w.lo)
  | scalar .complex w => some (.complex w)
  | _ => Option.none

/-- The value of a number. -/
def ofNumber : Number → Value
  | .int i => ofInt i
  | .float x => ofFloat x
  | .complex z => ofComplex z

/-- An array element as a value. -/
def ofElement (kind : ElementKind) (w : Words) : Value := ofNumber (.ofWords kind w)

/-- The scalar a register holds when its frame is made. -/
def initial (t : ScalarTag) : Value := scalar t ⟨0, 0⟩

/-- Whether a value carries tag `expected`; no expectation accepts everything. -/
def hasTag (v : Value) (expected : Option Tag) : Bool :=
  match expected with
  | Option.none => true
  | some t => v.tag = t

end Value

end RegisterVM
