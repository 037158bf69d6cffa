import RegisterVM.Heap.Element

/-!
# Arithmetic on values

Generic arithmetic works on any two numeric values. With an array on either side it works element by
element: two arrays must have the same shape, a scalar is paired with every element, and the result
has the wider element kind. Adding two strings joins them.
-/

namespace RegisterVM

/-- An operand of elementwise arithmetic. -/
inductive Operand where
  | array (a : PlainArray)
  | scalar (n : Number)
deriving Repr

namespace Operand

def kind : Operand → ElementKind
  | array a => a.kind
  | scalar n => n.kind

/-- Reads the number an operand contributes at position `i`. -/
def fetch [DataAccess] : Operand → Nat → HeapM Number
  | array a, i => do return .ofWords a.kind (← a.fetch i)
  | scalar n, _ => return n

/-- The common shape of two operands, at least one of them an array. -/
def shape : Operand → Operand → Except ErrorCode Shape
  | array a, array b => if a.dims = b.dims then .ok a.dims else .error .shape
  | array a, scalar _ => .ok a.dims
  | scalar _, array b => .ok b.dims
  | scalar _, scalar _ => .error .value

end Operand

/-- Numbers of one kind packed into element words. -/
def packNumbers (kind : ElementKind) (ns : List Number) : Array UInt64 :=
  (ns.flatMap fun n => elementWords kind n.words).toArray

namespace Heap

variable [DataAccess]

/-- Elementwise arithmetic on prepared operands. -/
def combine (op : ArithOp) (x y : Operand) : HeapM PlainArray := do
  let dims ← lift (x.shape y)
  let kind := x.kind.join y.kind
  let ns ← (List.range (Shape.word dims.size)).mapM fun i => do
    let m ← x.fetch i
    let n ← y.fetch i
    lift (Number.applyAt op kind m n)
  return .ofShape kind dims (packNumbers kind ns)

/-- A value as an operand, copied out if it is a view. -/
def operand (v : Value) : HeapM Operand :=
  if v.tag = .array then do
    let (_, a) ← plainArray v
    return .array a
  else
    match v.number? with
    | some n => return .scalar n
    | none => throw .value

/-- Elementwise arithmetic; at least one operand has to be an array. -/
def arrayArith (op : ArithOp) (x y : Value) : HeapM Value := do
  let p ← operand x
  let q ← operand y
  let r ← combine op p q
  new (.ofPlain r)

/-- The bytes of a string; other values count as empty. -/
def bytesOrEmpty (h : Heap) (v : Value) : Array UInt8 :=
  match v with
  | .object .string id =>
    match h.get? id with
    | some (.string bytes) => bytes
    | _ => #[]
  | _ => #[]

/-- The two byte strings joined, as a new string. -/
def concat (x y : Value) : HeapM Value := do
  let h ← get
  new (.string (h.bytesOrEmpty x ++ h.bytesOrEmpty y))

/-- Arithmetic on any two values. -/
def genericArith (op : ArithOp) (x y : Value) : HeapM Value :=
  if x.tag = .array || y.tag = .array then arrayArith op x y
  else if op = .add && x.tag = .string && y.tag = .string then concat x y
  else
    match x.number?, y.number? with
    | some m, some n => do
      let r ← lift (Number.apply op m n)
      return .ofNumber r
    | _, _ => throw .value

/-- Arithmetic selected by an opcode; opcodes that are not generic arithmetic are invalid. -/
def arithByOpcode (arith : ArithOp → Value → Value → HeapM Value) (op : Opcode) (x y : Value) :
    HeapM Value :=
  match op.arith? with
  | some a => arith a x y
  | none => throw .value

/-- The number the source of an assignment has at position `i`. An array is read as it is by now. -/
def sourceNumber (src : Value) (source : Operand) (i : Nat) : HeapM Number := do
  match source with
  | .scalar n => return n
  | .array _ =>
    match (src.ref?.bind (← get).get?).bind Object.plain? with
    | some b => (Operand.array b).fetch i
    | none => throw .value

/-- Reads, converts and writes one element. -/
def assignOne (id : ObjectId) (kind : ElementKind) (src : Value) (source : Operand) (i : Nat) :
    HeapM Unit := do
  let n ← sourceNumber src source i
  let m ← lift (n.convert kind)
  storeAs kind id i m.words

/-- Gives every element of an array the elements of another of the same shape, or one scalar, in
place and one element after the other. -/
def assignAll (dst src : Value) : HeapM Unit := do
  let (id, a) ← plainArray dst
  let source ← operand src
  match source with
  | .array b => if b.dims ≠ a.dims then throw .shape
  | .scalar _ => pure ()
  (List.range a.count).forM (assignOne id a.kind src source)

end Heap

end RegisterVM
