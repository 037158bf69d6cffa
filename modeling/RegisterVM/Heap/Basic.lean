import RegisterVM.Heap.Object

/-!
# The heap

Objects live in numbered cells together with the number of references to them. A new object has one
reference. Dropping the last reference to an object frees its cell and drops the references the
object held, so a drop can free a whole structure; it ends because every step either frees a cell or
takes one reference off the list of references still to drop. Cells are never reused. References are
counted in 32-bit words, and nothing looks whether a counter is full.

Heap operations can fail with an error code; the heap they leave behind is kept in either case. The
elements of an array are read and written without a check. What an access outside the data of its
array does is left open: it is a parameter of the operations (`DataAccess`).
-/

namespace RegisterVM

/-- An object and the number of references to it, counted modulo the size of the counter. -/
structure Cell where
  refs : UInt32
  object : Object
deriving DecidableEq, Repr, Inhabited

/-- Numbered cells; a freed cell is empty. -/
structure Heap where
  cells : Array (Option Cell)
deriving DecidableEq, Repr, Inhabited

/-- A heap operation that may fail. -/
abbrev HeapM := EStateM ErrorCode Heap

/-- A heap operation that may also stop the machine. -/
abbrev HeapRun := EStateM Failure Heap

/-- What an access to the data of an array does besides, by whether it stays inside the data. An
access that does has no further effect. -/
class DataAccess where
  touch : (inside : Bool) → HeapM Unit
  touch_inside : touch true = pure ()

/-- An access outside the data has no further effect either. -/
instance DataAccess.unchecked : DataAccess := ⟨fun _ => pure (), rfl⟩

namespace Heap

def empty : Heap := ⟨#[]⟩

def cell? (h : Heap) (id : ObjectId) : Option Cell := (h.cells[id]?).join

def get? (h : Heap) (id : ObjectId) : Option Object := (h.cell? id).map Cell.object

/-- The counter of references to an object, zero when there is no such object. -/
def refCount (h : Heap) (id : ObjectId) : Nat := ((h.cell? id).map fun c => c.refs.toNat).getD 0

/-- The number of cells in use. -/
def live (h : Heap) : Nat := h.cells.countP Option.isSome

/-- A new object with one reference. -/
def allocate (h : Heap) (o : Object) : ObjectId × Heap :=
  (h.cells.size, ⟨h.cells.push (some ⟨1, o⟩)⟩)

/-- The object of a cell changed in place. -/
def modifyObject (h : Heap) (id : ObjectId) (f : Object → Object) : Heap :=
  ⟨h.cells.modify id fun cell => cell.map fun c => { c with object := f c.object }⟩

/-- One more reference to an object. -/
def retain (h : Heap) (id : ObjectId) : Heap :=
  ⟨h.cells.modify id fun cell => cell.map fun c => { c with refs := c.refs + 1 }⟩

/-- Drops one reference for every entry of `work`. -/
def dropAll (h : Heap) (work : List ObjectId) : Heap :=
  match work with
  | [] => h
  | id :: rest =>
    if hid : id < h.cells.size then
      match hc : h.cells[id] with
      | none => dropAll h rest
      | some c =>
        if c.refs = 1 then
          dropAll ⟨h.cells.set id none⟩ (c.object.references ++ rest)
        else
          dropAll ⟨h.cells.set id (some { c with refs := c.refs - 1 })⟩ rest
    else dropAll h rest
termination_by (h.live, work.length)
decreasing_by
  · exact Prod.Lex.right _ (by simp)
  · apply Prod.Lex.left
    have hpos : 0 < h.cells.countP Option.isSome :=
      Array.countP_pos_iff.2 ⟨h.cells[id], Array.getElem_mem hid, by simp [hc]⟩
    simp only [live, Array.countP_set, hc, Option.isSome_some, Option.isSome_none, if_true,
      Bool.false_eq_true, if_false]
    omega
  · have hpos : 0 < h.cells.countP Option.isSome :=
      Array.countP_pos_iff.2 ⟨h.cells[id], Array.getElem_mem hid, by simp [hc]⟩
    have hlive : live ⟨h.cells.set id (some { c with refs := c.refs - 1 })⟩ = h.live := by
      simp only [live, Array.countP_set, hc, Option.isSome_some, if_true]
      omega
    rw [hlive]
    exact Prod.Lex.right _ (by simp)
  · exact Prod.Lex.right _ (by simp)

/-- One more reference to whatever a value refers to. -/
def retainValue (h : Heap) (v : Value) : Heap :=
  match v.ref? with
  | some id => h.retain id
  | none => h

/-- One reference less to whatever a value refers to. -/
def dropValue (h : Heap) (v : Value) : Heap :=
  match v.ref? with
  | some id => h.dropAll [id]
  | none => h

/-- A second copy of a value. -/
def clone (v : Value) : HeapM Value := do
  modify (·.retainValue v)
  return v

/-- Gives up a value. -/
def discard (v : Value) : HeapM Unit := modify (·.dropValue v)

/-- A value that refers to a new object. -/
def new (o : Object) : HeapM Value := do
  let id ← modifyGet (·.allocate o)
  return .object o.kind id

/-- The object a value of kind `kind` refers to; other values are invalid. -/
def objectOf (kind : ObjectKind) (v : Value) : HeapM (ObjectId × Object) := do
  match v with
  | .object k id =>
    match (← get).get? id with
    | some o => if k = kind then return (id, o) else throw .value
    | none => throw .value
  | _ => throw .value

/-- Lets an operation that only computes fail as a heap operation. -/
def lift (r : Except ErrorCode α) : HeapM α :=
  match r with
  | .ok a => pure a
  | .error e => throw e

/-- Runs an operation and hands over its failure as a result. -/
def attempt (m : HeapM α) : HeapM (Except ErrorCode α) := fun h =>
  match m h with
  | .ok a h' => .ok (.ok a) h'
  | .error e h' => .ok (.error e) h'

/-- An operation that does not stop the machine. -/
def running (m : HeapM α) : HeapRun α := fun h =>
  match m h with
  | .ok a h' => .ok a h'
  | .error e h' => .error (.code e) h'

end Heap

end RegisterVM
