import RegisterVM.Kind
import RegisterVM.Native.Builtin

/-!
# Memory layout seen by compiled code

Byte offsets and machine types of everything compiled code loads or stores. A value slot is a tag
word and two payload words; heap objects start with their reference count; the call block holds the
bases and lengths of the slot arrays.
-/

namespace RegisterVM
namespace Native

/-- A field compiled code reaches. -/
structure Field where
  name : String
  offset : Nat
  type : MachineType
deriving DecidableEq, Repr

/-- Eight-byte fields that follow one another from an offset on. -/
def wordsFrom (offset : Nat) : List String → List Field
  | [] => []
  | name :: rest => ⟨name, offset, .i64⟩ :: wordsFrom (offset + 8) rest

namespace Field

/-- The fields of a value slot. -/
def valueSlot : List Field :=
  ⟨"ValueTag", 0, .i32⟩ :: wordsFrom 8 ["ValuePayload", "ValuePayloadHi"]

/-- The fields of heap objects that compiled code looks at. -/
def heapObjects : List Field :=
  wordsFrom 8 ["StringLen", "StringData"]
    ++ wordsFrom 16 ["ArraySize", "ArrayData", "ArrayNdim", "ArrayDims", "ArrayOriginal"]
    ++ wordsFrom 8 ["ListLen", "ListItems"]
    ++ wordsFrom 8 ["TupleLen", "TupleItems"]
    ++ wordsFrom 16 ["InstanceFieldCount", "InstanceFields"]

/-- The fields of the view on an enclosing frame. -/
def outerView : List Field := wordsFrom 0 ["OuterRegisters", "OuterLen"]

/-- The fields of the call block. -/
def callBlock : List Field :=
  wordsFrom 0 ["CallLocals", "CallConstants", "CallObjectFields", "CallClassStatics", "CallGlobals",
    "CallOuterFrames", "CallObjectFieldCount", "CallStaticsLen", "CallGlobalsLen", "CallOuterCount",
    "CallExitIndex"]

def all : List Field := valueSlot ++ heapObjects ++ outerView ++ callBlock

end Field

/-- The bytes of a value slot. -/
def slotSize : Nat := 8 * Field.valueSlot.length

/-- The bytes of the view on an enclosing frame. -/
def outerViewSize : Nat := 8 * Field.outerView.length

/-- The machine type of each lane of a scalar. -/
def laneType : ScalarKind → MachineType
  | .bool | .int => .i64
  | .float | .complex => .f64

end Native
end RegisterVM
