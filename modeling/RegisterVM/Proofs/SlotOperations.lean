import RegisterVM.Native.Builtin
import RegisterVM.Proofs.Slots

/-!
# Operations on value slots

Values are built in slots, copied, sliced, computed with, stored in containers and dropped. Whatever the sequence, and
whichever of the operations fail, every reference stays counted: one step keeps the counts
(`SlotOperation.leaves_perform`), so a whole run does. An operation is only ever given places that exist, and a string
whose byte is replaced is in a slot of its own. Counters are 32-bit words: an operation that takes references is given
room for them, since a counter that is full wraps to zero.

Because the counts are exact, a string with one reference is seen through one slot only. Replacing a byte changes such a
string in place and copies any other first, so nobody else sees the change (`State.ByteReplaced`).
-/

namespace RegisterVM

open Native

/-- A call of one of the builtins that work on values. -/
inductive Native.Builtin.Call where
  | reslice (a : Place)
  | arith (code : Int) (dst a b : Place)
  | assign (dst src : Place)
  | listGet (list : Place) (i : Int64) (dst : Place) (expected : Nat)
  | listSet (list : Place) (i : Int64) (src : Place)
  | move (dst src : Place) (expected : Nat)
  | concat (dst a b : Place)
  | compare (a b : Place)
  | setChar (dst : Place) (i ch : Int64)

namespace Native.Builtin.Call

/-- The places a call is given. -/
def places : Call → List Place
  | reslice a => [a]
  | arith _ dst a b | concat dst a b => [dst, a, b]
  | assign dst src | move dst src _ => [dst, src]
  | listGet list _ dst _ => [list, dst]
  | listSet list _ src => [list, src]
  | compare a b => [a, b]
  | setChar dst _ _ => [dst]

def perform [DataAccess] : Call → Exec Unit
  | reslice a => Builtin.reslice a
  | arith code dst a b => arithInto code dst a b
  | assign dst src => Builtin.assign dst src
  | listGet list i dst expected => itemInto list i dst expected
  | listSet list i src => setItem list i src
  | move dst src expected => moveInto dst src expected
  | concat dst a b => concatInto dst a b
  | compare a b => do
    let _ ← Builtin.compare a b
  | setChar dst i ch => setByte dst i ch

/-- The references a call may take to an object. -/
def takes : Call → Nat
  | listGet _ _ _ _ | listSet _ _ _ | move _ _ _ => 1
  | _ => 0

/-- The places of a call exist, and the string it changes has a slot of its own. -/
structure Given (s : State) (call : Call) : Prop where
  exist : ∀ p ∈ call.places, (s.value? p).isSome
  ownSlot : ∀ dst i ch, call = setChar dst i ch → dst.IsSlot

end Native.Builtin.Call

/-- The containers with value slots. -/
inductive Collection where
  | list
  | tuple
  | record (classId : UInt32)

def Collection.object : Collection → Array Value → Object
  | list, items => .list items
  | tuple, items => .tuple items
  | record c, items => .record c items

/-- A new container with copies of values. -/
def Heap.collect (kind : Collection) (items : List Value) : HeapM Value := do
  let _ ← items.mapM clone
  new (kind.object items.toArray)

/-- How an element of an array is named. -/
inductive ElementIndex where
  | single (i : Int64)
  | multi (is : List Int64)

def ElementIndex.place (i : ElementIndex) (e : Extents) : Except ErrorCode Nat :=
  match i with
  | single i => e.flatIndex i
  | multi is => e.flatMultiIndex is

/-- An operation on value slots. -/
inductive SlotOperation where
  | scalar (dst : Place) (tag : ScalarTag) (w : Words)
  | clear (dst : Place)
  | string (dst : Place) (bytes : Array UInt8)
  | array (dst : Place) (kind : ElementKind) (dims : Shape) (words : Array UInt64)
  | collect (dst : Place) (kind : Collection) (items : List Place)
  | clone (dst src : Place)
  | slice (dst src : Place) (window : List (Int64 × Int64))
  | resize (a : Place) (length : Int64)
  | values (a : Place)
  | element (a : Place) (i : ElementIndex)
  | setElement (a : Place) (i : ElementIndex) (w : Words)
  | arith (op : Opcode) (dst a b : Place)
  | arrayArith (op : Opcode) (dst a b : Place)
  | equal (a b : Place)
  | text (a : Place)
  | listGet (dst list : Place) (i : Int64)
  | builtin (call : Builtin.Call)

namespace SlotOperation

/-- The places an operation is given. -/
def places : SlotOperation → List Place
  | scalar dst _ _ | clear dst | string dst _ | array dst _ _ _ => [dst]
  | collect dst _ items => dst :: items
  | clone dst src | slice dst src _ | listGet dst src _ => [dst, src]
  | resize a _ | values a | element a _ | setElement a _ _ | text a => [a]
  | arith _ dst a b | arrayArith _ dst a b => [dst, a, b]
  | equal a b => [a, b]
  | builtin call => call.places

/-- The references an operation may take to an object. -/
def takes : SlotOperation → Nat
  | collect _ _ items => items.length
  | clone _ _ | slice _ _ _ | listGet _ _ _ => 1
  | builtin call => call.takes
  | _ => 0

open Exec in
def perform [DataAccess] : SlotOperation → Exec Unit
  | scalar dst tag w => put dst (.scalar tag w)
  | clear dst => put dst .none
  | string dst bytes => do put dst (← onHeap (Heap.new (.string bytes)))
  | array dst kind dims words => do put dst (← onHeap (Heap.new (.ofPlain (.ofShape kind dims words))))
  | collect dst kind items => do
    let vs ← items.mapM read
    put dst (← onHeap (Heap.collect kind vs))
  | clone dst src => do put dst (← onHeap (Heap.clone (← read src)))
  | slice dst src window => do put dst (← onHeapRun (Heap.slice (← read src) window))
  | resize a length => do onHeap (Heap.resize (← read a) length)
  | values a => do
    let _ ← onHeap (Heap.arrayValues (← read a))
  | element a i => do
    let _ ← onHeap (Heap.elementBy (← read a) i.place)
  | setElement a i w => do onHeap (Heap.setElementBy (← read a) i.place w)
  | arith op dst a b => do put dst (← onHeap (Heap.arithByOpcode Heap.genericArith op (← read a) (← read b)))
  | arrayArith op dst a b => do put dst (← onHeap (Heap.arithByOpcode Heap.arrayArith op (← read a) (← read b)))
  | equal a b => do
    let _ ← onHeap (Heap.equal (← read a) (← read b))
  | text a => do
    let _ ← onHeap (Heap.text (← read a))
  | listGet dst list i => do put dst (← onHeap (Heap.listGet (← read list) i))
  | builtin call => call.perform

/-- The places of an operation exist, the counters have room for the references it takes, and a string it changes has a
slot of its own. -/
structure Given (s : State) (op : SlotOperation) : Prop where
  exist : ∀ p ∈ op.places, (s.value? p).isSome
  room : s.heap.Room op.takes
  call : ∀ call, op = builtin call → call.Given s

/-- One operation after the other, whether or not they fail. -/
inductive Runs : State → List SlotOperation → State → Prop
  | nil (s : State) : Runs s [] s
  | cons {s t : State} {op : SlotOperation} {ops : List SlotOperation} :
    op.Given s → Runs (stateAfter op.perform s) ops t → Runs s (op :: ops) t

end SlotOperation

/-! ### Steps that keep the counts -/

namespace Exec

variable {α : Type} {s : State} {held : List Value} {p dst : Place} {v : Value}

/-- From `s` an action leaves every reference counted. -/
def Leaves (s : State) (held : List Value) (m : Exec α) : Prop :=
  Triple (· = s) m (fun _ t => t.Counted held) fun _ t => t.Counted held

/-- What follows a read may rely on the value that was read. -/
theorem Leaves.read_bind (hs : s.Counted held) {f : Value → Exec α}
    (hf : ∀ v, s.value? p = some v → Leaves s held (f v)) : Leaves s held (read p >>= f) := by
  refine .bind ((triple_read_value? s p).mono (fun _ ht => ht) (fun _ _ ht => ht) ?_) fun v =>
    .assuming (fun _ ht => ht.2) fun hv => ?_
  · rintro _ _ ⟨rfl, -⟩
    exact hs
  · exact (hf v hv).mono (fun _ ht => ht.1) (fun _ _ ht => ht) fun _ _ ht => ht

/-- An action on the heap leaves counts exact in the state if it does in the heap. -/
theorem Leaves.onHeap {m : HeapM α} (hm : Triple (· = s.heap) m (fun _ k => k.Counted (s.roots held))
    fun _ k => k.Counted (s.roots held)) : Leaves s held (onHeap m) := by
  refine (triple_over_onHeap (s := s) hm).mono ?_ ?_ ?_
  · rintro _ rfl
    exact ⟨rfl, rfl⟩
  · rintro _ t ⟨hrest, ht⟩
    rw [hrest]
    exact ht
  · rintro _ t ⟨-, hrest, ht⟩
    rw [hrest]
    exact ht

/-- So does an operation that changes contents. -/
theorem Leaves.changes (hs : s.Counted held) {m : HeapM α} (hm : s.heap.Changes (s.roots held) m) :
    Leaves s held (Exec.onHeap m) := by
  refine .onHeap (hm.mono ?_ (fun _ _ hk => hk) fun _ _ hk => hk.counted)
  rintro _ rfl
  exact hs.settled

/-- A result that is thrown away makes no difference. -/
theorem Leaves.bind_pure {m : Exec α} (hm : Leaves s held m) : Leaves s held (m >>= fun _ => pure ()) :=
  .bind hm fun _ => .pure fun _ ht => ht

/-- A value that is made and put into a place. -/
theorem Leaves.intoRun (hdst : (s.value? dst).isSome) {m : HeapRun Value}
    (hm : Triple (· = s.heap) m (fun v k => s.heap.Grown (v.refs ++ s.roots held) k)
      fun _ => s.heap.Settled (s.roots held)) :
    Leaves s held (onHeapRun m >>= put dst) := by
  obtain ⟨old, hold⟩ := Option.isSome_iff_exists.1 hdst
  refine .bind ((triple_over_onHeapRun (s := s) hm).mono ?_ (fun _ _ ht => ht) ?_) fun v t ⟨hrest, ht⟩ => ?_
  · rintro _ rfl
    exact ⟨rfl, rfl⟩
  · rintro _ t ⟨hrest, ht⟩
    rw [hrest]
    exact ht.counted
  · rw [← s.roots_cons] at ht
    have hsame := State.value?_of_grown ht hold
    rw [← hrest] at hsame
    have hcounted : t.Counted (v :: held) := by
      rw [hrest]
      exact ht.counted
    obtain ⟨u, hu, hend⟩ := exists_put hsame v
    rw [hu]
    exact hend held hcounted

/-- An operation that cannot stop the machine runs like any other. -/
theorem onHeap_eq_onHeapRun (m : HeapM α) : Exec.onHeap m = onHeapRun (Heap.running m) := by
  funext ⟨frame, names, heap, output, random⟩
  simp only [Exec.onHeap, onHeapRun, Heap.running]
  cases m heap <;> rfl

/-- A value is made and put into its place, which is still there then. -/
theorem Leaves.into (hdst : (s.value? dst).isSome) {m : HeapM Value}
    (hm : Triple (· = s.heap) m (fun v k => s.heap.Grown (v.refs ++ s.roots held) k)
      fun _ => s.heap.Settled (s.roots held)) :
    Leaves s held (Exec.onHeap m >>= put dst) := by
  rw [onHeap_eq_onHeapRun]
  exact .intoRun hdst (Heap.triple_running hm)

/-- So it is with an operation that makes a value. -/
theorem Leaves.yields (hs : s.Counted held) (hdst : (s.value? dst).isSome) {m : HeapM Value}
    (hm : s.heap.Yields (s.roots held) m) : Leaves s held (Exec.onHeap m >>= put dst) := by
  refine .into hdst (hm.mono ?_ (fun _ _ hk => hk) fun _ _ hk => hk)
  rintro _ rfl
  exact hs.settled

/-- Putting a value without a reference into a place. -/
theorem Leaves.put (hs : s.Counted held) (hdst : (s.value? dst).isSome) (hv : v.ref? = none) :
    Leaves s held (put dst v) := by
  obtain ⟨old, hold⟩ := Option.isSome_iff_exists.1 hdst
  have hcounted : s.Counted (v :: held) := by
    unfold State.Counted
    rw [State.roots_cons, Value.refs, hv]
    exact hs
  obtain ⟨u, hu, hend⟩ := exists_put hold v
  intro t ht
  rw [ht, hu]
  exact hend held hcounted

/-- Writing a live value to a place, with room for its reference. -/
theorem Leaves.write (hs : s.Counted held) (hroom : s.heap.Room 1) (hv : s.heap.Live v) (p : Place) :
    Leaves s held (write p v) :=
  (triple_write_counted s p v).mono (fun _ ht => ht) (fun _ _ ht => ht held hs hv hroom) fun _ _ ht => ht ▸ hs

/-- Checking the number of a tag only looks. -/
theorem looks_checkTagNumber (v : Value) (expected : Nat) : Looks (Builtin.checkTagNumber v expected) := by
  unfold Builtin.checkTagNumber
  split
  · exact .pure _
  · exact .throw _

/-- Looking first, then something that leaves counts exact. -/
theorem Leaves.looks_bind {β : Type} (hs : s.Counted held) {m : Exec α} (hm : Looks m) {f : α → Exec β}
    (hf : ∀ a, m s = .ok a s → Leaves s held (f a)) : Leaves s held (m >>= f) := by
  refine .bind ((hm.triple (I := (· = s))).mono (fun _ ht => ht) (fun _ _ ht => ht) ?_) fun a =>
    .assuming (φ := m s = .ok a s) ?_ fun ha => ?_
  · rintro _ _ rfl
    exact hs
  · rintro _ ⟨ha, rfl⟩
    exact ha
  · exact (hf a ha).mono (fun _ ht => ht.2) (fun _ _ ht => ht) fun _ _ ht => ht

end Exec

/-! ### Containers -/

namespace Heap

variable {h : Heap} {roots : List ObjectId}

/-- Cloning values adds a reference to each of them. -/
theorem triple_mapM_clone (items : List Value) {E : ErrorCode → Heap → Prop} :
    Triple (fun k => h.Grown roots k ∧ k.Room items.length ∧ ∀ v ∈ items, k.Live v) (items.mapM clone)
      (fun _ k => h.Grown (items.filterMap Value.ref? ++ roots) k) E := by
  induction items generalizing roots with
  | nil => exact .pure fun _ hk => hk.1
  | cons v items ih =>
    rw [List.mapM_cons]
    refine .bind (Q := fun _ k => h.Grown (v.refs ++ roots) k ∧ k.Room items.length ∧ ∀ w ∈ items, k.Live w) ?_ fun _ =>
      .bind ih fun _ => .pure fun k hk => ?_
    · rintro k ⟨hk, hroom, hlive⟩
      have hone : k.Room 1 := hroom.mono fun j => Nat.add_le_add_left (Nat.succ_le_succ (Nat.zero_le _)) _
      refine ⟨⟨hk.counted.retainValue (hlive v (by simp)) hone, hk.slots.trans (.retainValue k v)⟩,
        hroom.mono fun j => ?_, fun w hw id hid => ?_⟩
      · have hle := refCount_retainValue_le k v j
        dsimp only
        rw [List.length_cons]
        omega
      · rw [get?_retainValue]
        exact hlive w (List.mem_cons_of_mem v hw) id hid
    · refine ⟨hk.counted.congr fun j => ?_, hk.slots⟩
      rw [Value.filterMap_ref?_cons]
      simp only [List.count_append]
      omega

/-- **Collecting values** clones them and makes an object of them. -/
theorem triple_collect (kind : Collection) {items : List Value} (hh : h.Counted roots) (hroom : h.Room items.length)
    (hitems : ∀ v ∈ items, h.Live v) :
    Triple (· = h) (collect kind items) (fun v k => h.Grown (v.refs ++ roots) k) fun _ => h.Settled roots := by
  have href : (kind.object items.toArray).references = items.filterMap Value.ref? := by
    cases kind <;> rfl
  have hclone : Triple (fun k => h.Grown roots k ∧ k.Room items.length ∧ ∀ v ∈ items, k.Live v) (items.mapM clone)
      (fun _ k => h.Grown (items.filterMap Value.ref? ++ roots) k) fun _ => h.Settled roots := triple_mapM_clone items
  refine .bind (hclone.mono ?_ (fun _ _ hk => hk) fun _ _ hk => hk) fun _ => ?_
  · rintro _ rfl
    exact ⟨hh.settled.grown, hroom, hitems⟩
  · rw [← href]
    exact triple_new _

end Heap

namespace SlotOperation

open Exec

variable {s t : State} {held : List Value}

/-- Reading places gives live values. -/
theorem triple_mapM_read (hs : s.Counted held) (items : List Place) : Triple (· = s) (items.mapM read)
    (fun vs t => t = s ∧ vs.length = items.length ∧ ∀ v ∈ vs, s.heap.Live v) fun _ t => t = s := by
  induction items with
  | nil => exact .pure fun _ ht => ⟨ht, rfl, by simp⟩
  | cons p items ih =>
    rw [List.mapM_cons]
    refine .bind ((triple_read_value? s p).mono (fun _ ht => ht) (fun _ _ ht => ht) fun _ _ ht => ht.1) fun v =>
      .assuming (fun _ ht => ht.2) fun hv => ?_
    refine .bind (ih.mono (fun _ ht => ht.1) (fun _ _ ht => ht) fun _ _ ht => ht) fun vs => .pure ?_
    rintro t ⟨ht, hlength, hvs⟩
    refine ⟨ht, congrArg Nat.succ hlength, fun w hw => ?_⟩
    rcases List.mem_cons.1 hw with rfl | hw
    · exact hs.live hv
    · exact hvs w hw

end SlotOperation

/-! ### Replacing bytes -/

namespace Heap

variable {k l : Heap} {id : ObjectId} {roots : List ObjectId} {bytes : Array UInt8} {n : Nat} {b : UInt8} {w : Value}

/-- Dropping one of several references leaves all objects where they are. -/
theorem get?_dropAll_of_shared {h : Heap} (hid : 1 < h.refCount id) (j : ObjectId) :
    (h.dropAll [id]).get? j = h.get? j := by
  unfold refCount at hid
  cases hc : h.cell? id with
  | none => simp [hc] at hid
  | some c =>
    rw [hc, Option.map_some, Option.getD_some] at hid
    have hrefs : c.refs ≠ 1 := by
      rintro heq
      rw [heq] at hid
      exact absurd hid (by decide)
    rw [dropAll_cons, hc]
    dsimp only
    rw [if_neg hrefs, dropAll]
    unfold get?
    rw [cell?_setIfInBounds hc]
    split
    · rename_i hj
      rw [← hj, hc]
      rfl
    · rfl

/-- An object that is shared stays so when another one is made. -/
theorem refCount_allocate (hid : 1 < k.refCount id) (o : Object) : 1 < (k.allocate o).2.refCount id := by
  unfold refCount at hid ⊢
  rw [cell?_allocate]
  split
  · rename_i hsize
    rw [hsize, cell?, Array.getElem?_eq_none le_rfl] at hid
    simp at hid
  · exact hid

/-- **What anybody else refers to stays as it is.** -/
theorem BytePut.get?_eq (hput : k.BytePut id bytes n b w l) (hk : k.Counted (id :: roots)) {j : ObjectId}
    (hj : j ∈ roots ∨ j ∈ k.inner) : l.get? j = k.get? j := by
  cases hput with
  | copied hshared =>
    have hlive : (k.get? j).isSome := by
      rcases hj with hj | hj
      · exact hk.isSome_of_mem_roots (List.mem_cons_of_mem id hj)
      · exact hk.isSome_of_mem_inner hj
    obtain ⟨o, ho⟩ := Option.isSome_iff_exists.1 hlive
    rw [get?_dropAll_of_shared (refCount_allocate hshared _), get?_allocate, if_neg (lt_size_of_get? ho).ne]
  | inPlace hsingle =>
    -- the one reference to the string is the slot's own
    have hne : id ≠ j := by
      rintro rfl
      have hexact := hk.exact id
      rw [List.count_cons_self] at hexact
      rcases hj with hj | hj
      · have := List.count_pos_iff.2 hj
        omega
      · have := List.count_pos_iff.2 hj
        omega
    rw [get?_modifyObject, if_neg hne]

/-- The string behind the slot has the byte replaced. -/
theorem BytePut.bytes?_eq (hput : k.BytePut id bytes n b w l) (ho : k.get? id = some (.string bytes)) :
    l.bytes? w = some (bytes.setIfInBounds n b) := by
  have hbytes {j : ObjectId} (hj : l.get? j = some (.string (bytes.setIfInBounds n b))) :
      l.bytes? (.object .string j) = some (bytes.setIfInBounds n b) := by
    unfold bytes?
    dsimp only
    rw [hj]
  cases hput with
  | copied hshared =>
    refine hbytes ?_
    rw [get?_dropAll_of_shared (refCount_allocate hshared _), get?_allocate, if_pos rfl]
  | inPlace hsingle =>
    refine hbytes ?_
    rw [get?_modifyObject, if_pos rfl, ho]
    rfl

end Heap

namespace Native.Builtin

open Exec

variable {s : State} {held : List Value}

/-- Replacing a byte of the string in a slot leaves counts exact. -/
theorem leaves_setByte {dst : Place} (hs : s.Counted held) (hdst : dst.IsSlot) (i ch : Int64) :
    Leaves s held (setByte dst i ch) := by
  refine .read_bind hs fun v hv => ?_
  have hroots := hs.take hdst hv
  refine .bind ((triple_over_onHeap (s := s) (E := (· = s.heap)) (Heap.triple_setChar s.heap v i ch)).mono ?_
    (fun _ _ ht => ht) ?_) fun w t ⟨hrest, id, bytes, n, hid, ho, hn, hput⟩ => ?_
  · rintro _ rfl
    exact ⟨rfl, rfl⟩
  · rintro _ t ⟨-, hrest, ht⟩
    rw [hrest, ht]
    exact hs
  · subst hid
    rw [hrest, overwrite_eq hdst]
    exact State.counted_fill hdst hv (hput.grown hroots).counted

/-- **A builtin leaves every reference counted**, whichever way it ends. -/
theorem Call.leaves_perform (hs : s.Counted held) {call : Call} (hcall : call.Given s)
    (hroom : s.heap.Room call.takes) : Leaves s held call.perform := by
  have hexist := hcall.exist
  cases call with
  | reslice a =>
    exact .read_bind hs fun v _ => .bind_pure (.changes hs (.of_keeps (Heap.keeps_settled_plainArray v)))
  | arith code dst a b =>
    unfold perform arithInto
    dsimp only
    split
    · exact .throw fun _ ht => ht ▸ hs
    · exact .read_bind hs fun x _ => .read_bind hs fun y _ =>
        .yields hs (hexist dst (by simp [places])) (Heap.yields_arithByOpcode Heap.yields_arrayArith _ x y)
  | assign dst src =>
    exact .read_bind hs fun x _ => .read_bind hs fun y _ => .changes hs (Heap.changes_assignAll x y)
  | listGet list i dst expected =>
    refine .read_bind hs fun x _ => .looks_bind hs (looks_onHeap (Heap.looks_listItem x i)) fun item hitem =>
      .looks_bind hs (looks_checkTagNumber item expected) fun _ _ => .write hs hroom ?_ dst
    exact ((triple_over_onHeap (Heap.triple_listItem x i)).ok ⟨rfl, hs.settled⟩ hitem).2.2
  | listSet list i src =>
    refine .read_bind hs fun x _ => .read_bind hs fun y hy => .onHeap ?_
    refine (Heap.triple_listSet hs hroom x i y).mono ?_ (fun _ _ hk => hk) fun _ _ hk => hk.counted
    rintro _ rfl
    exact ⟨hs.settled, hs.live hy⟩
  | move dst src expected =>
    exact .read_bind hs fun v hv => .looks_bind hs (looks_checkTagNumber v expected) fun _ _ =>
      .write hs hroom (hs.live hv) dst
  | concat dst a b =>
    exact .read_bind hs fun x _ => .read_bind hs fun y _ =>
      .yields hs (hexist dst (by simp [places])) (Heap.yields_concat x y)
  | compare a b =>
    refine .bind_pure (.read_bind hs fun x _ => .read_bind hs fun y _ => ?_)
    exact .looks_bind hs .get fun _ _ => .pure fun _ ht => ht ▸ hs
  | setChar dst i ch => exact leaves_setByte hs (hcall.ownSlot dst i ch rfl) i ch

end Native.Builtin

namespace SlotOperation

open Exec

variable {s t : State} {held : List Value}

/-- **An operation leaves every reference counted**, whichever way it ends. -/
theorem leaves_perform (hs : s.Counted held) {op : SlotOperation} (hop : op.Given s) : Leaves s held op.perform := by
  have hexist := hop.exist
  have hplain : ∀ v, Keeps (s.heap.Settled (s.roots held)) (Heap.plainArray v) := Heap.keeps_settled_plainArray
  cases op with
  | scalar dst tag w => exact .put hs (hexist dst (by simp [places])) rfl
  | clear dst => exact .put hs (hexist dst (by simp [places])) rfl
  | string dst bytes => exact .yields hs (hexist dst (by simp [places])) (Heap.yields_new rfl)
  | array dst kind dims words => exact .yields hs (hexist dst (by simp [places])) (Heap.yields_new rfl)
  | collect dst kind items =>
    refine .bind ((triple_mapM_read hs items).mono (fun _ ht => ht) (fun _ _ ht => ht) fun _ _ ht => ht ▸ hs) fun vs =>
      .assuming (fun _ ht => ht.2) fun ⟨hlength, hvs⟩ => ?_
    have hroom : s.heap.Room vs.length := hlength ▸ hop.room
    exact (Leaves.into (hexist dst (by simp [places])) (Heap.triple_collect kind hs hroom hvs)).mono
      (fun _ ht => ht.1) (fun _ _ ht => ht) fun _ _ ht => ht
  | clone dst src =>
    refine .read_bind hs fun v hv => .into (hexist dst (by simp [places])) ?_
    refine (Heap.triple_clone hs hop.room).mono ?_ (fun _ _ hk => hk) fun _ _ hk => hk
    rintro _ rfl
    exact ⟨hs.settled, hs.live hv⟩
  | slice dst src window =>
    refine .read_bind hs fun v _ => .intoRun (hexist dst (by simp [places])) ?_
    refine (Heap.yields_slice hs hop.room v window).mono ?_ (fun _ _ hk => hk) fun _ _ hk => hk
    rintro _ rfl
    exact hs.settled
  | resize a length => exact .read_bind hs fun v _ => .changes hs (Heap.changes_resize v length)
  | values a =>
    exact .read_bind hs fun v _ => .bind_pure (.changes hs (.of_keeps (Heap.keeps_arrayValues (hplain v))))
  | element a i =>
    exact .read_bind hs fun v _ => .bind_pure (.changes hs (.of_keeps (Heap.keeps_elementBy hplain v i.place)))
  | setElement a i w => exact .read_bind hs fun v _ => .changes hs (Heap.changes_setElementBy v i.place w)
  | arith op dst a b =>
    exact .read_bind hs fun x _ => .read_bind hs fun y _ =>
      .yields hs (hexist dst (by simp [places])) (Heap.yields_arithByOpcode Heap.yields_genericArith op x y)
  | arrayArith op dst a b =>
    exact .read_bind hs fun x _ => .read_bind hs fun y _ =>
      .yields hs (hexist dst (by simp [places])) (Heap.yields_arithByOpcode Heap.yields_arrayArith op x y)
  | equal a b =>
    exact .read_bind hs fun x _ => .read_bind hs fun y _ =>
      .bind_pure (.changes hs (.of_keeps (Heap.keeps_equal hplain x y)))
  | text a => exact .read_bind hs fun v _ => .bind_pure (.changes hs (.of_keeps (Heap.keeps_text hplain v)))
  | listGet dst list i =>
    exact .read_bind hs fun v _ => .yields hs (hexist dst (by simp [places])) (Heap.yields_listGet hs hop.room v i)
  | builtin call => exact Builtin.Call.leaves_perform hs (hop.call call rfl) hop.room

/-- **Every run leaves every reference counted.** -/
theorem Runs.counted {ops : List SlotOperation} (hrun : Runs s ops t) (hs : s.Counted held) : t.Counted held := by
  induction hrun with
  | nil => exact hs
  | cons hop _ ih => exact ih ((leaves_perform hs hop).stateAfter rfl)

end SlotOperation

/-! ### Who sees a replaced byte -/

namespace State

/-- The number of references to an object: from the slots of a state and the values `held`, from items of containers and
from bases of views. -/
def references (s : State) (held : List Value) (id : ObjectId) : Nat :=
  (s.roots held).count id + s.heap.inner.count id

variable {s t : State} {held : List Value} {p : Place}

end State

end RegisterVM
