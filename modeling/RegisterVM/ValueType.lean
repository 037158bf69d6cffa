import RegisterVM.Kind

/-!
# Static register types

The type a register was declared with. Scalar types fix how a register may be carried in compiled
code; the others only say which tag its values should have. An enumerated register is an integer
register whose values carry the `enum` tag.
-/

namespace RegisterVM

/-- The declared type of a register. -/
inductive ValueType where
  | none
  | bool
  | int
  | float
  | complex
  | enum
  | string
  | array (kind : ElementKind)
  | list (item : ValueType)
  | tuple (items : List ValueType)
  | object (classId : UInt32)
  | any
deriving Repr, Inhabited

namespace ValueType

/-- The scalar kind of an unboxed register, nothing for the others. -/
def scalar? : ValueType → Option ScalarKind
  | bool => some .bool
  | int | enum => some .int
  | float => some .float
  | complex => some .complex
  | _ => Option.none

/-- The tag values of this type carry; `any` fixes none. -/
def tag? : ValueType → Option Tag
  | none => some .none
  | bool => some .bool
  | int => some .int
  | float => some .float
  | complex => some .complex
  | enum => some .enum
  | string => some .string
  | array _ => some .array
  | list _ => some .list
  | tuple _ => some .tuple
  | object _ => some .object
  | any => Option.none

/-- Whether the type can be dispatched on. -/
def isIntegral : ValueType → Bool
  | int | enum => true
  | _ => false

def isArray : ValueType → Bool
  | array _ => true
  | _ => false

/-- The tag item `i` of a tuple type fixes, if it fixes one. -/
def itemTag? (t : ValueType) (i : Nat) : Option Tag :=
  match t with
  | tuple items => (items[i]?).bind tag?
  | _ => Option.none

/-- The tag a typed list read of kind `k` into a register of this type asks for. -/
def listItemTag (t : ValueType) (k : ElementKind) : Tag :=
  match t with
  | enum => .enum
  | _ => k.tag

mutual

/-- The type written out. -/
def text : ValueType → String
  | none => "None"
  | bool => "Bool"
  | int => "Int"
  | float => "Float"
  | complex => "Complex"
  | enum => "Enum"
  | string => "String"
  | array k => "Array(" ++ k.scalar.name ++ ")"
  | list t => "List(" ++ t.text ++ ")"
  | tuple ts => "Tuple([" ++ ", ".intercalate (texts ts) ++ "])"
  | object c => "Object(" ++ toString c.toNat ++ ")"
  | any => "Any"

/-- The types of a tuple, each written out. -/
def texts : List ValueType → List String
  | [] => []
  | t :: ts => t.text :: texts ts

end

end ValueType

end RegisterVM
