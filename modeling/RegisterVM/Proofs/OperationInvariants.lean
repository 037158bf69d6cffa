import RegisterVM.Proofs.ArrayInvariants
import RegisterVM.Proofs.SlotOperations

/-!
# Invariants of arrays under operations on slots

Most operations on value slots leave arrays alone or only copy views out. The few that change arrays in place or make
them by arithmetic are listed in `Heap.OfOperations`: an invariant of heaps that they keep is kept by every operation
(`SlotOperation.keeps_perform`), and so by every run (`SlotOperation.Runs.keeps`). Building an array is left to the
invariant, which may ask something of the array.
-/

namespace RegisterVM

namespace Heap

/-- An invariant that the operations on arrays keep, whichever way they end. -/
structure OfOperations (I : Heap → Prop) : Prop extends OfArrays I where
  plainArray : ∀ v, Keeps I (Heap.plainArray v)
  arrayArith : ∀ op x y, Keeps I (Heap.arrayArith op x y)
  assignAll : ∀ dst src, Keeps I (Heap.assignAll dst src)
  slice : ∀ v window, Keeps I (Heap.slice v window)
  resize : ∀ v length, Keeps I (Heap.resize v length)
  setElementBy : ∀ v place w, Keeps I (Heap.setElementBy v place w)

namespace OfOperations

variable {I : Heap → Prop} (hI : OfOperations I)

include hI

/-- Generic arithmetic keeps the invariant. -/
theorem keeps_genericArith (op : ArithOp) (x y : Value) : Keeps I (genericArith op x y) := by
  unfold genericArith
  split
  · exact hI.arrayArith op x y
  · split
    · exact hI.keeps_concat x y
    · split
      · exact .bind (looks_lift _).keeps fun _ => .pure _
      · exact .throw _

/-- So does collecting values. -/
theorem keeps_collect (kind : Collection) (items : List Value) : Keeps I (collect kind items) := by
  refine .bind (.mapM hI.keeps_clone items) fun _ => hI.keeps_new fun a => ?_
  cases kind <;> exact nofun

end OfOperations

/-- So does arithmetic by opcode, if arithmetic does. -/
theorem keeps_arithByOpcode {I : Heap → Prop} {arith : ArithOp → Value → Value → HeapM Value}
    (harith : ∀ op x y, Keeps I (arith op x y)) (op : Opcode) (x y : Value) : Keeps I (arithByOpcode arith op x y) := by
  unfold arithByOpcode
  split
  · exact harith _ x y
  · exact .throw _

end Heap

/-! ### Values at places -/

namespace Exec

variable {I : Heap → Prop} {α : Type}

/-- An action that keeps the invariant of the heap keeps it in the state. -/
theorem keeps_onHeap {m : HeapM α} (hm : Keeps I m) : Keeps (fun s : State => I s.heap) (onHeap m) := by
  intro s hs
  have hend := hm s.heap hs
  rw [onHeap_eq]
  cases hms : m s.heap with
  | ok a k =>
    rw [hms] at hend
    exact hend
  | error e k =>
    rw [hms] at hend
    exact hend

/-- So does an operation that may fault. -/
theorem keeps_onHeapRun {m : HeapRun α} (hm : Keeps I m) : Keeps (fun s : State => I s.heap) (onHeapRun m) := by
  intro s hs
  have hend := hm s.heap hs
  unfold onHeapRun
  cases hms : m s.heap with
  | ok a k =>
    rw [hms] at hend
    simp only [hms]
    exact hend
  | error e k =>
    rw [hms] at hend
    simp only [hms]
    exact hend

/-- An operation on the value at a place. -/
theorem keeps_read {f : Value → Exec α} (p : Place) (hf : ∀ v, Keeps (fun s : State => I s.heap) (f v)) :
    Keeps (fun s : State => I s.heap) (read p >>= f) :=
  .bind (looks_read p).keeps hf

variable (hI : Heap.OfArrays I)

include hI

/-- Overwriting a place keeps the invariant. -/
theorem keeps_overwrite (p : Place) (f : Value → Value) : Keeps (fun s : State => I s.heap) (overwrite p f) := by
  unfold overwrite
  cases p with
  | receiver i => exact .bind Looks.get.keeps fun _ => keeps_onHeap (hI.keeps_overwriteSlot _ _ i f)
  | item kind r i => exact .bind (looks_register r).keeps fun _ => keeps_onHeap (hI.keeps_overwriteSlot kind _ i f)
  | _ => exact .modify fun _ hs => hs

/-- So does handing a value over. -/
theorem keeps_put (p : Place) (v : Value) : Keeps (fun s : State => I s.heap) (put p v) :=
  .bind (looks_read p).keeps fun old => .bind (keeps_overwrite hI p _) fun _ => keeps_onHeap (hI.keeps_discard old)

/-- So does writing a value. -/
theorem keeps_write (p : Place) (v : Value) : Keeps (fun s : State => I s.heap) (write p v) :=
  .bind (looks_read p).keeps fun old => .bind (keeps_onHeap (hI.keeps_clone v)) fun _ =>
    .bind (keeps_overwrite hI p _) fun _ => keeps_onHeap (hI.keeps_discard old)

/-- A value is made and put into a place. -/
theorem keeps_into (dst : Place) {m : HeapM Value} (hm : Keeps I m) :
    Keeps (fun s : State => I s.heap) (onHeap m >>= put dst) :=
  .bind (keeps_onHeap hm) (keeps_put hI dst)

end Exec

open Exec

variable {I : Heap → Prop}

/-- **A helper called from compiled code keeps the invariant.** -/
theorem Native.Builtin.Call.keeps_perform (hI : Heap.OfOperations I) (call : Call) :
    Keeps (fun s : State => I s.heap) call.perform := by
  have hA := hI.toOfArrays
  cases call with
  | reslice a => exact keeps_read a fun v => .bind (keeps_onHeap (hI.plainArray v)) fun _ => .pure _
  | arith code dst a b =>
    unfold perform arithInto
    dsimp only
    split
    · exact .throw _
    · exact keeps_read a fun x => keeps_read b fun y => keeps_into hA dst (Heap.keeps_arithByOpcode hI.arrayArith _ x y)
  | assign dst src => exact keeps_read dst fun x => keeps_read src fun y => keeps_onHeap (hI.assignAll x y)
  | listGet list i dst expected =>
    exact keeps_read list fun x => .bind (keeps_onHeap (Heap.looks_listItem x i).keeps) fun item =>
      .bind (looks_checkTagNumber item expected).keeps fun _ => keeps_write hA dst item
  | listSet list i src => exact keeps_read list fun x => keeps_read src fun y => keeps_onHeap (hA.keeps_listSet x i y)
  | move dst src expected =>
    exact keeps_read src fun v => .bind (looks_checkTagNumber v expected).keeps fun _ => keeps_write hA dst v
  | concat dst a b => exact keeps_read a fun x => keeps_read b fun y => keeps_into hA dst (hA.keeps_concat x y)
  | compare a b =>
    exact .bind (keeps_read a fun _ => keeps_read b fun _ => .bind Looks.get.keeps fun _ => .pure _) fun _ => .pure _
  | setChar dst i ch =>
    exact keeps_read dst fun v => .bind (keeps_onHeap (hA.keeps_setChar v i ch)) fun _ => keeps_overwrite hA dst _

namespace SlotOperation

/-- **An operation keeps the invariant**, whichever way it ends, if building arrays does as it asks for them. -/
theorem keeps_perform (hI : Heap.OfOperations I) {op : SlotOperation}
    (harray : ∀ dst kind dims words, op = array dst kind dims words →
      Keeps I (Heap.new (.ofPlain (.ofShape kind dims words)))) :
    Keeps (fun s : State => I s.heap) op.perform := by
  have hA := hI.toOfArrays
  cases op with
  | scalar dst tag w => exact keeps_put hA dst _
  | clear dst => exact keeps_put hA dst _
  | string dst bytes => exact keeps_into hA dst (hA.keeps_new nofun)
  | array dst kind dims words => exact keeps_into hA dst (harray dst kind dims words rfl)
  | collect dst kind items =>
    exact .bind (Looks.mapM looks_read items).keeps fun vs => keeps_into hA dst (hI.keeps_collect kind vs)
  | clone dst src => exact keeps_read src fun v => keeps_into hA dst (hA.keeps_clone v)
  | slice dst src window =>
    exact keeps_read src fun v => .bind (keeps_onHeapRun (hI.slice v window)) (keeps_put hA dst)
  | resize a length => exact keeps_read a fun v => keeps_onHeap (hI.resize v length)
  | values a =>
    exact keeps_read a fun v => .bind (keeps_onHeap (Heap.keeps_arrayValues (hI.plainArray v))) fun _ => .pure _
  | element a i =>
    exact keeps_read a fun v => .bind (keeps_onHeap (Heap.keeps_elementBy hI.plainArray v i.place)) fun _ => .pure _
  | setElement a i w => exact keeps_read a fun v => keeps_onHeap (hI.setElementBy v i.place w)
  | arith op dst a b =>
    exact keeps_read a fun x => keeps_read b fun y =>
      keeps_into hA dst (Heap.keeps_arithByOpcode hI.keeps_genericArith op x y)
  | arrayArith op dst a b =>
    exact keeps_read a fun x => keeps_read b fun y => keeps_into hA dst (Heap.keeps_arithByOpcode hI.arrayArith op x y)
  | equal a b =>
    exact keeps_read a fun x => keeps_read b fun y =>
      .bind (keeps_onHeap (Heap.keeps_equal hI.plainArray x y)) fun _ => .pure _
  | text a => exact keeps_read a fun v => .bind (keeps_onHeap (Heap.keeps_text hI.plainArray v)) fun _ => .pure _
  | listGet dst list i => exact keeps_read list fun v => keeps_into hA dst (hA.keeps_listGet v i)
  | builtin call => exact call.keeps_perform hI

/-- What every operation keeps, a run keeps. -/
theorem Runs.keeps {P : State → Prop} {s t : State} {ops : List SlotOperation} (hrun : Runs s ops t)
    (hops : ∀ op ∈ ops, Keeps P op.perform) (hs : P s) : P t := by
  induction hrun with
  | nil => exact hs
  | cons _ _ ih =>
    obtain ⟨hop, hops⟩ := List.forall_mem_cons.1 hops
    exact ih hops (hop.stateAfter hs)

end SlotOperation

end RegisterVM
