/-!
# Scalar kinds, element kinds and tags

A register holds an unboxed scalar of one of four kinds, or a value that is not a scalar. Arrays
hold elements of three of these kinds, ordered by how much they can represent:
`int < float < complex`. A tag is what a slot says about its own contents while the machine runs.
-/

namespace RegisterVM

/-- The kind of an unboxed scalar register. -/
inductive ScalarKind where
  | bool
  | int
  | float
  | complex
deriving DecidableEq, Repr, Inhabited

/-- The kind of the elements of a numeric array. -/
inductive ElementKind where
  | int
  | float
  | complex
deriving DecidableEq, Repr, Inhabited

/-- The tag of a value slot. -/
inductive Tag where
  | none
  | bool
  | int
  | float
  | complex
  | enum
  | string
  | array
  | list
  | tuple
  | object
deriving DecidableEq, Repr, Inhabited

namespace ScalarKind

def all : List ScalarKind := [bool, int, float, complex]

def name : ScalarKind → String
  | bool => "Bool"
  | int => "Int"
  | float => "Float"
  | complex => "Complex"

/-- The letter that stands for the kind in a mnemonic. -/
def letter : ScalarKind → String
  | bool => "B"
  | int => "I"
  | float => "F"
  | complex => "C"

/-- Position of the kind in a family of four opcodes. -/
def number : ScalarKind → Nat
  | bool => 0
  | int => 1
  | float => 2
  | complex => 3

/-- How many payload words a value of the kind uses. -/
def lanes : ScalarKind → Nat
  | complex => 2
  | _ => 1

end ScalarKind

namespace Tag

def all : List Tag :=
  [none, bool, int, float, complex, enum, string, array, list, tuple, object]

/-- The number stored in a slot. -/
def code : Tag → Nat
  | none => 0
  | bool => 1
  | int => 2
  | float => 3
  | complex => 4
  | enum => 5
  | string => 6
  | array => 7
  | list => 8
  | tuple => 9
  | object => 10

def ofCode? (n : Nat) : Option Tag := all.find? (·.code == n)

def name : Tag → String
  | none => "None"
  | bool => "Bool"
  | int => "Int"
  | float => "Float"
  | complex => "Complex"
  | enum => "Enum"
  | string => "String"
  | array => "Array"
  | list => "List"
  | tuple => "Tuple"
  | object => "Object"

/-- The number that stands for "any tag" in a checked move. -/
def wildcard : Nat := UInt32.size - 1

/-- A tag is read back from its code. -/
@[simp] theorem ofCode?_code (t : Tag) : ofCode? t.code = some t := by
  cases t <;> rfl

end Tag

namespace ElementKind

def all : List ElementKind := [int, float, complex]

/-- Position of the kind in a family of three opcodes, which is also its rank in the order. -/
def number : ElementKind → Nat
  | int => 0
  | float => 1
  | complex => 2

/-- The wider of two kinds. -/
def join (k l : ElementKind) : ElementKind := if k.number ≤ l.number then l else k

/-- The scalar kind of one element. -/
def scalar : ElementKind → ScalarKind
  | int => .int
  | float => .float
  | complex => .complex

/-- How many data words one element takes. -/
def words (k : ElementKind) : Nat := k.scalar.lanes

/-- The tag of an element taken out of the array. -/
def tag : ElementKind → Tag
  | int => .int
  | float => .float
  | complex => .complex

def ofTag? : Tag → Option ElementKind
  | .int => some int
  | .float => some float
  | .complex => some complex
  | _ => none

/-- The letter that stands for the kind in a mnemonic. -/
def letter (k : ElementKind) : String := k.scalar.letter

/-- A kind joined with itself stays. -/
@[simp] theorem join_self (k : ElementKind) : k.join k = k := by
  simp [join]

/-- An element kind is read back from its tag. -/
@[simp] theorem ofTag?_tag (k : ElementKind) : ofTag? k.tag = some k := by
  cases k <;> rfl

end ElementKind

end RegisterVM
