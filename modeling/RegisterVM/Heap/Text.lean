import RegisterVM.Decimal.Text
import RegisterVM.Heap.Strings
import RegisterVM.Text.Quoted
import RegisterVM.Text.Utf8

/-!
# Values as text

| value | text |
| --- | --- |
| nothing, truth values | `none`, `true`, `false` |
| int, enum | decimal |
| float, complex | shortest positional digits, imaginary part signed |
| string | its characters, ill-formed bytes replaced |
| array, list, tuple | items between brackets, braces, parentheses |
| instance | `object#` and its class |

Writing an array copies a view out; one that cannot be copied out is written as `[?]`. The quoted
form differs for strings, which get quotes, and for enumerated values.
-/

namespace RegisterVM
namespace Heap

/-- Items with commas between, inside delimiters. -/
def sequenceText (opening closing : String) (items : List String) : String :=
  opening ++ ", ".intercalate items ++ closing

variable [DataAccess]

/-- The text of values nested at most `depth` deep. -/
def textAt : Nat → Value → HeapM String
  | 0 => fun _ => return ""
  | depth + 1 => fun v => do
    match v with
    | .none => return "none"
    | .scalar .bool w => return if w.bool then "true" else "false"
    | .scalar .int w | .scalar .enum w => return toString w.int.toInt
    | .scalar .float w => return Decimal.text w.lo
    | .scalar .complex w => return Decimal.complexText w.lo w.hi
    | .object kind id =>
      match kind with
      | .string => return Utf8.text ((← get).bytesOrEmpty v)
      | .array =>
        match ← attempt (arrayValues v) with
        | .ok values => return sequenceText "[" "]" (← values.mapM (textAt depth))
        | .error _ => return "[?]"
      | .list | .tuple =>
        let items := (((← get).get? id).map Object.slots).getD #[]
        let texts ← items.toList.mapM (textAt depth)
        return if kind = .list then sequenceText "\x7b" "\x7d" texts else sequenceText "(" ")" texts
      | .object =>
        match (← get).get? id with
        | some (.record classId _) => return "object#" ++ toString classId.toNat
        | _ => return "object#0"

/-- The text of a value; nesting is never deeper than the heap. -/
def text (v : Value) : HeapM String := do
  textAt ((← get).cells.size + 2) v

/-- The text of a value with strings quoted and enumerated values marked. -/
def quotedText (v : Value) : HeapM String :=
  match v with
  | .object .string _ => return Text.quote (← text v)
  | .scalar .enum w => return "enum(" ++ toString w.int.toInt ++ ")"
  | _ => text v

end Heap
end RegisterVM
