import RegisterVM.Proofs.SlotOperations

/-!
# A failing instruction changes nothing

Everything that can fail is tried before anything changes. An action that only looks, or copies views out on the way,
leaves the state *quiet*; an action is *atomic* when it has been quiet up to the point where it fails. Behind the
point of no return only faults are left, which are accesses outside the register file and never end in an error code.

What a quiet state can differ in is the heap, and there only by views that have become the arrays they denoted, with
the bases gone that nothing refers to any more (`State.Unchanged`). The values `held` may be any that take part in the
counts without being in a slot: constants, and references that nobody will ever give up.
-/

namespace RegisterVM

/-- An access outside the register file, the constants or the code. -/
def Failure.IsFault (f : Failure) : Prop := ∃ g, f = .fault g

/-- **Nothing has changed**, except that views have been copied out. -/
structure State.Unchanged (s : State) (held : List Value) (t : State) : Prop where
  frame_eq : t.frame = s.frame
  names_eq : t.names = s.names
  output_eq : t.output = s.output
  random_eq : t.random = s.random
  /-- every place holds what it held -/
  value?_eq : ∀ p v, s.value? p = some v → t.value? p = some v
  /-- whatever is referred to is there, with its references counted -/
  counted : t.Counted held
  /-- an object is what it was, or the array a view denoted -/
  object : ∀ id o, t.heap.get? id = some o → s.heap.get? id = some o ∨ s.heap.Resolved id o
  /-- an array denotes what it denoted -/
  denotes_iff : ∀ id, (t.heap.get? id).isSome → ∀ a, t.heap.Denotes id a ↔ s.heap.Denotes id a

/-- The states that differ from `s` by a heap that has settled. -/
abbrev State.Quiet (s : State) (held : List Value) : State → Prop := s.Over (s.heap.Settled (s.roots held))

variable {s t : State} {held : List Value}

/-- A state whose references are counted is quiet with respect to itself. -/
theorem State.Counted.quiet (hs : s.Counted held) : s.Quiet held s := ⟨rfl, hs.settled⟩

/-- A quiet state is unchanged, as far as anybody can see. -/
theorem State.Quiet.unchanged (ht : s.Quiet held t) : s.Unchanged held t := by
  obtain ⟨hrest, hheap⟩ := ht
  have hvalues (p : Place) (v : Value) (hv : s.value? p = some v) : t.value? p = some v := by
    rw [hrest]
    exact State.value?_of_grown hheap.grown hv
  have hcounted : t.Counted held := by
    rw [hrest]
    exact hheap.counted
  exact ⟨by rw [hrest], by rw [hrest], by rw [hrest], by rw [hrest], hvalues, hcounted, hheap.settles.object,
    fun _ hlive => hheap.denotes_iff hlive⟩

namespace Exec

variable {α β : Type}

/-- How an action that has not changed anything may fail. -/
def FailsQuietly (s : State) (held : List Value) (f : Failure) (t : State) : Prop := f.IsFault ∨ s.Quiet held t

/-- An action that stays quiet. -/
def StaysQuiet (s : State) (held : List Value) (m : Exec α) : Prop :=
  Triple (s.Quiet held) m (fun _ => s.Quiet held) (FailsQuietly s held)

/-- **An action that changes nothing when it fails.** -/
def Atomic (s : State) (held : List Value) (m : Exec α) : Prop :=
  Triple (s.Quiet held) m (fun _ _ => True) (FailsQuietly s held)

/-- An action that fails only by a fault. -/
def OnlyFaults (m : Exec α) : Prop := Triple (fun _ => True) m (fun _ _ => True) fun f _ => f.IsFault

/-- Looking stays quiet. -/
theorem StaysQuiet.of_looks {m : Exec α} (hm : Looks m) : StaysQuiet s held m :=
  hm.keeps.mono (fun _ ht => ht) (fun _ _ ht => ht) fun _ _ ht => .inr ht

/-- What stays quiet is atomic. -/
theorem StaysQuiet.atomic {m : Exec α} (hm : StaysQuiet s held m) : Atomic s held m :=
  hm.mono (fun _ ht => ht) (fun _ _ _ => trivial) fun _ _ ht => ht

/-- An action that only settles the heap stays quiet. -/
theorem StaysQuiet.onHeap {m : HeapM α} (hm : Keeps (s.heap.Settled (s.roots held)) m) :
    StaysQuiet s held (onHeap m) :=
  (triple_over_onHeap hm).mono (fun _ ht => ht) (fun _ _ ht => ht) fun _ _ ht => .inr ht.2

namespace Atomic

/-- Looking first, then something atomic. -/
theorem look {m : Exec α} {f : α → Exec β} (hm : Looks m) (hf : ∀ a, Atomic s held (f a)) : Atomic s held (m >>= f) :=
  Triple.bind (StaysQuiet.of_looks hm) hf

/-- Something quiet first, then something atomic. -/
theorem quiet {m : Exec α} {f : α → Exec β} (hm : StaysQuiet s held m) (hf : ∀ a, Atomic s held (f a)) :
    Atomic s held (m >>= f) := Triple.bind hm hf

/-- Behind the point of no return only faults are left. -/
theorem followed {m : Exec α} {f : α → Exec β} (hm : Atomic s held m) (hf : ∀ a, OnlyFaults (f a)) :
    Atomic s held (m >>= f) :=
  Triple.bind hm fun a => (hf a).mono (fun _ _ => trivial) (fun _ _ ht => ht) fun _ _ ht => .inl ht

/-- What can only fault does not fail with an error code. -/
theorem of_onlyFaults {m : Exec α} (hm : OnlyFaults m) : Atomic s held m :=
  hm.mono (fun _ _ => trivial) (fun _ _ ht => ht) fun _ _ ht => .inl ht

/-- Returning does not fail. -/
theorem pure (a : α) : Atomic s held (Pure.pure a) := Triple.pure fun _ _ => trivial

/-- A failure right away has changed nothing. -/
theorem throw (f : Failure) : Atomic s held (MonadExcept.throw f : Exec α) :=
  Triple.throw fun _ ht => .inr ht

/-- An action on the heap is atomic if it has only settled the heap when it fails. -/
theorem onHeap {m : HeapM α} (hm : Triple (s.heap.Settled (s.roots held)) m (fun _ _ => True)
    fun _ => s.heap.Settled (s.roots held)) : Atomic s held (onHeap m) :=
  (triple_over_onHeap hm).mono (fun _ ht => ht) (fun _ _ _ => trivial) fun _ _ ht => .inr ht.2

/-- An operation that makes a value has only settled the heap when it fails. -/
theorem yields {m : HeapM Value} (hm : s.heap.Yields (s.roots held) m) : Atomic s held (Exec.onHeap m) :=
  onHeap (hm.mono (fun _ hk => hk) (fun _ _ _ => trivial) fun _ _ hk => hk)

/-- So has an operation that changes contents. -/
theorem changes {m : HeapM α} (hm : s.heap.Changes (s.roots held) m) : Atomic s held (Exec.onHeap m) :=
  onHeap (hm.mono (fun _ hk => hk) (fun _ _ _ => trivial) fun _ _ hk => hk)

/-- Storing into a place fails before it changes anything, if at all. -/
theorem write (p : Place) (v : Value) : Atomic s held (write p v) := by
  intro t ht
  refine (triple_write_counted t p v).mono (fun _ hu => hu) (fun _ _ _ => trivial) ?_ t rfl
  rintro _ _ rfl
  exact .inr ht

end Atomic

/-! ### Actions that fail only by a fault -/

namespace OnlyFaults

/-- In sequence, there are only faults if there are in both parts. -/
theorem bind {m : Exec α} {f : α → Exec β} (hm : OnlyFaults m) (hf : ∀ a, OnlyFaults (f a)) : OnlyFaults (m >>= f) :=
  Triple.bind hm hf

/-- Reading a register can only fault. -/
theorem register (i : Nat) : OnlyFaults (register i) := by
  intro t _
  rw [register_eq]
  cases t.frame.registers[i]? with
  | none => exact ⟨_, rfl⟩
  | some v => trivial

/-- Handing a value over to a register can only fault. -/
theorem put_register (i : Nat) (v : Value) : OnlyFaults (put (.register i) v) :=
  .bind (register i) fun _ => .bind (.modify fun _ _ => trivial) fun _ _ _ => trivial

/-- Looking a type up can only fault. -/
theorem typeOf (r : Routine) (x : Int32) : OnlyFaults (Step.typeOf r x) := by
  unfold Step.typeOf
  split
  · exact .pure fun _ _ => trivial
  · exact .throw fun _ _ => ⟨_, rfl⟩

/-- So can setting the register of an operand. -/
theorem set (x : Int32) (v : Value) : OnlyFaults (Step.set x v) := put_register _ v

/-- So can storing a scalar in it. -/
theorem setScalar (r : Routine) (x : Int32) (kind : ScalarKind) (w : Words) : OnlyFaults (Step.setScalar r x kind w) :=
  .bind (typeOf r x) fun _ => set x _

end OnlyFaults

end Exec

/-! ### Heap operations that fail -/

namespace Heap

variable {h : Heap} {roots : List ObjectId}

/-- Storing into a slot of an object does not fail. -/
theorem triple_storeSlot_total (id : ObjectId) (i : Nat) (v : Value) {P : Heap → Prop} {E : ErrorCode → Heap → Prop} :
    Triple P (storeSlot id i v) (fun _ _ => True) E := by
  refine .bind (.modify (Q := fun _ => True) fun _ _ => trivial) fun _ => .bind .get fun k => ?_
  split
  · exact .bind (.modify (Q := fun _ => True) fun _ _ => trivial) fun _ => .modify fun _ _ => trivial
  · exact .pure fun _ _ => trivial

/-- Storing into a list has only settled the heap when it fails. -/
theorem triple_listSet_fails (list : Value) (i : Int64) (v : Value) :
    Triple (h.Settled roots) (listSet list i v) (fun _ _ => True) fun _ => h.Settled roots :=
  .bind (looks_slotsOf .list list).keeps fun _ => .bind (looks_lift _).keeps fun _ => triple_storeSlot_total _ _ v

/-- Replacing a byte of a string has only settled the heap when it fails. -/
theorem triple_setChar_fails (v : Value) (i ch : Int64) :
    Triple (h.Settled roots) (setChar v i ch) (fun _ _ => True) fun _ => h.Settled roots := by
  intro k hk
  refine (triple_setChar k v i ch).mono (fun _ hl => hl) (fun _ _ _ => trivial) ?_ k rfl
  rintro _ _ rfl
  exact hk

end Heap

/-! ### Instructions -/

namespace Step

open Exec

variable {r : Routine} {ins : Instruction}

/-- Storing a scalar in a register is atomic. -/
theorem atomic_setScalar (x : Int32) (kind : ScalarKind) (w : Words) : Atomic s held (setScalar r x kind w) :=
  .of_onlyFaults (.setScalar r x kind w)

/-- Setting a register is atomic. -/
theorem atomic_set (x : Int32) (v : Value) : Atomic s held (set x v) := .of_onlyFaults (.set x v)

/-- Storing into an item of the object in a register is atomic. -/
theorem atomic_writeItem (kind : ObjectKind) (x : Int32) (i : Nat) (v : Value) :
    Atomic s held (writeItem kind x i v) := .write (.item kind (placeOf x) i) v

/-- Storing an immediate is atomic. -/
theorem atomic_data : Atomic s held (data r ins) := by
  unfold data Machine.data
  split
  · exact atomic_set _ _
  · exact atomic_setScalar _ _ _
  · exact atomic_setScalar _ _ _
  · exact atomic_setScalar _ _ _
  · exact atomic_set _ _
  · exact .throw _

/-- **An instruction that does not transfer control changes nothing when it fails.** -/
theorem atomic_effect (r : Routine) (ins : Instruction) : Atomic s held (effect r ins) := by
  have hplain : ∀ v, Keeps (s.heap.Settled (s.roots held)) (Heap.plainArray v) := Heap.keeps_settled_plainArray
  obtain ⟨op, a, b, c, line⟩ := ins
  cases op with
  | nop | goto | test | switch | ret => exact .pure _
  | caseEntry | callSegment => exact .throw _
  | data => exact atomic_data
  | getConst | getConstString => exact .look (looks_constant r b) fun _ => .write _ _
  | getConstScalar k => exact .look (looks_constant r b) fun _ => atomic_setScalar _ _ _
  | move | moveString => exact .look (looks_reg a) fun _ => .write _ _
  | moveScalar k => exact .look (looks_words a) fun _ => atomic_setScalar _ _ _
  | convert v => exact .look (looks_words a) fun _ => atomic_setScalar _ _ _
  | unary op => exact .look (looks_words a) fun _ => atomic_setScalar _ _ _
  | intArith op =>
    exact .look (looks_int a) fun _ => .look (looks_int b) fun _ => .look (looks_ofExcept _) fun _ =>
      atomic_setScalar _ _ _
  | intBits op => exact .look (looks_int a) fun _ => .look (looks_int b) fun _ => atomic_setScalar _ _ _
  | logic op => exact .look (looks_words a) fun _ => .look (looks_words b) fun _ => atomic_setScalar _ _ _
  | floatArith op => exact .look (looks_words a) fun _ => .look (looks_words b) fun _ => atomic_setScalar _ _ _
  | math =>
    unfold effect Machine.effect
    dsimp only
    split
    · exact .look (looks_words b) fun _ => .followed (.of_onlyFaults fun _ _ => trivial) fun _ => .setScalar r c _ _
    · exact .throw _
  | complexArith op => exact .look (looks_words a) fun _ => .look (looks_words b) fun _ => atomic_setScalar _ _ _
  | compareInt rel => exact .look (looks_int a) fun _ => .look (looks_int b) fun _ => atomic_setScalar _ _ _
  | compareFloat rel => exact .look (looks_words a) fun _ => .look (looks_words b) fun _ => atomic_setScalar _ _ _
  | compareComplex rel => exact .look (looks_words a) fun _ => .look (looks_words b) fun _ => atomic_setScalar _ _ _
  | compareString rel =>
    exact .look (looks_reg a) fun _ => .look (looks_reg b) fun _ => .look .get fun _ => atomic_setScalar _ _ _
  | arith op =>
    exact .look (looks_reg a) fun x => .look (looks_reg b) fun y =>
      .followed (.yields (Heap.yields_genericArith op x y)) fun v => .set c v
  | assignAll =>
    exact .look (looks_reg b) fun _ => .look (looks_checkTag _ _) fun _ => .look (looks_reg c) fun x =>
      .look (looks_reg a) fun y => .changes (Heap.changes_assignAll x y)
  | concat =>
    exact .look (looks_reg a) fun x => .look (looks_reg b) fun y =>
      .followed (.yields (Heap.yields_concat x y)) fun v => .set c v
  | charAt =>
    exact .look (looks_reg a) fun _ => .look (looks_int b) fun _ =>
      .look (looks_onHeap (Heap.looks_charAt _ _)) fun _ =>
      atomic_setScalar _ _ _
  | setChar =>
    exact .look (looks_reg c) fun v => .look (looks_int b) fun i => .look (looks_int a) fun ch =>
      .followed (.onHeap (Heap.triple_setChar_fails v i ch)) fun _ => .modify fun _ _ => trivial
  | size of =>
    exact .look (looks_reg a) fun _ => .look (looks_checkTag _ _) fun _ => .look (looks_reg a) fun _ =>
      .look (looks_onHeap (Heap.looks_size _)) fun _ => atomic_setScalar _ _ _
  | arrayGet k =>
    exact .look (looks_reg a) fun v => .look (looks_int b) fun i =>
      .quiet (.onHeap (Heap.keeps_elementBy hplain v _)) fun _ => atomic_setScalar _ _ _
  | arraySet k =>
    exact .look (looks_reg c) fun v => .look (looks_int b) fun i => .look (looks_words a) fun w =>
      .changes (Heap.changes_setElementBy v _ w)
  | arrayGetMulti k =>
    exact .look (looks_indices a b) fun is => .look (looks_reg a) fun v =>
      .quiet (.onHeap (Heap.keeps_elementBy hplain v _)) fun _ => atomic_setScalar _ _ _
  | arraySetMulti k =>
    exact .look (looks_indices c b) fun is => .look (looks_reg c) fun v => .look (looks_words a) fun w =>
      .changes (Heap.changes_setElementBy v _ w)
  | listGet k =>
    exact .look (looks_reg a) fun _ => .look (looks_int b) fun _ =>
      .look (looks_onHeap (Heap.looks_listItem _ _)) fun _ =>
      .look (looks_typeOf r c) fun _ => .look (looks_checkTag _ _) fun _ => .write _ _
  | listSet k =>
    exact .look (looks_reg c) fun list => .look (looks_int b) fun i => .look (looks_reg a) fun v =>
      .onHeap (Heap.triple_listSet_fails list i v)
  | tupleGetAny =>
    exact .look (looks_readItem _ a _) fun _ => .look (looks_typeOf r c) fun _ => .look (looks_checkTag _ _) fun _ =>
      .write _ _
  | tupleSetAny =>
    exact .look (looks_reg a) fun _ => .look (looks_typeOf r c) fun _ => .look (looks_checkTag _ _) fun _ =>
      atomic_writeItem _ c _ _
  | tupleGet k | getField k => exact .look (looks_readItem _ a _) fun _ => atomic_setScalar _ _ _
  | tupleSet k | setField k => exact .look (looks_reg a) fun _ => atomic_writeItem _ c _ _
  | getVar storage k => exact .look (looks_read _) fun _ => atomic_setScalar _ _ _
  | setVar storage k => exact .look (looks_reg a) fun _ => .write _ _
  | print =>
    exact .look (looks_reg a) fun v => .quiet (.onHeap (Heap.keeps_text hplain v)) fun _ =>
      .of_onlyFaults fun _ _ => trivial

/-- **A step is atomic**, whatever its instruction does. -/
theorem atomic_step (r : Routine) (pc : Nat) (ins : Instruction) : Atomic s held (step r pc ins) := by
  have heffect : Atomic s held (effect r ins) := atomic_effect r ins
  obtain ⟨op, a, b, c, line⟩ := ins
  cases op with
  | goto => exact .pure _
  | test kind =>
    refine .look (.bind (looks_reg a) fun v => ?_) fun holds => ?_
    · cases kind with
      | any => exact .bind .get fun _ => .pure _
      | _ => exact .pure _
    · cases holds <;> exact .pure _
  | switch => exact (StaysQuiet.of_looks (looks_dispatch r pc _)).atomic
  | ret =>
    change Atomic s held (if b = 0 then (pure (.ret .none) : Exec Flow) else
      reg a >>= fun v => onHeap (Heap.clone v) >>= fun w => pure (.ret w))
    split
    · exact .pure _
    · exact .look (looks_reg a) fun _ => .of_onlyFaults fun _ _ => trivial
  | _ => exact .followed heffect fun _ _ _ => trivial

end Step

/-! ### Builtins -/

namespace Native.Builtin

open Exec

/-- A value is made before it is put into its place, and the place is still there then. -/
theorem atomic_into {dst : Place} (hdst : (s.value? dst).isSome) {m : HeapM Value}
    (hm : s.heap.Yields (s.roots held) m) : Atomic s held (Exec.onHeap m >>= put dst) := by
  obtain ⟨old, hold⟩ := Option.isSome_iff_exists.1 hdst
  refine Triple.bind ((triple_over_onHeap hm).mono (fun _ ht => ht) (fun _ _ ht => ht) fun _ _ ht => .inr ht.2)
    fun v t ⟨hrest, ht⟩ => ?_
  rw [← s.roots_cons] at ht
  have hsame := State.value?_of_grown ht hold
  rw [← hrest] at hsame
  obtain ⟨u, hu, -⟩ := exists_put hsame v
  rw [hu]
  trivial

/-- **A builtin changes nothing when it fails.** -/
theorem Call.atomic_perform {call : Call} (hcall : call.Given s) : Atomic s held call.perform := by
  have hexist := hcall.exist
  cases call with
  | reslice a =>
    exact .look (looks_read a) fun v => .quiet (.onHeap (Heap.keeps_settled_plainArray v)) fun _ => .pure _
  | arith code dst a b =>
    unfold perform arithInto
    dsimp only
    split
    · exact .throw _
    · exact .look (looks_read a) fun x => .look (looks_read b) fun y =>
        atomic_into (hexist dst (by simp [places])) (Heap.yields_arithByOpcode Heap.yields_arrayArith _ x y)
  | assign dst src =>
    exact .look (looks_read dst) fun x => .look (looks_read src) fun y => .changes (Heap.changes_assignAll x y)
  | listGet list i dst expected =>
    exact .look (looks_read list) fun _ => .look (looks_onHeap (Heap.looks_listItem _ _)) fun _ =>
      .look (looks_checkTagNumber _ _) fun _ => .write _ _
  | listSet list i src =>
    exact .look (looks_read list) fun x => .look (looks_read src) fun y => .onHeap (Heap.triple_listSet_fails x i y)
  | move dst src expected =>
    exact .look (looks_read src) fun _ => .look (looks_checkTagNumber _ _) fun _ => .write _ _
  | concat dst a b =>
    exact .look (looks_read a) fun x => .look (looks_read b) fun y =>
      atomic_into (hexist dst (by simp [places])) (Heap.yields_concat x y)
  | compare a b =>
    exact (StaysQuiet.of_looks (.bind (looks_read a) fun _ => .bind (looks_read b) fun _ => .bind .get fun _ =>
      .pure _)).atomic.followed fun _ _ _ => trivial
  | setChar dst i ch =>
    refine .look (looks_read dst) fun v => .followed (.onHeap (Heap.triple_setChar_fails v i ch)) fun w t _ => ?_
    rw [overwrite_eq (hcall.ownSlot dst i ch rfl)]
    trivial

end Native.Builtin

/-- **A failing instruction changes nothing.** When an instruction fails with an error, or a builtin returns a status
other than zero, all registers, variables, output and the generator are as before, and so are the contents of all
objects; views that were looked at may have been copied out. -/
theorem failed_step_changes_nothing {s t : State} {held : List Value} (hs : s.Counted held) :
    (∀ (r : Routine) (pc : Nat) (ins : Instruction) (f : Failure), r.code[pc]? = some ins →
      step r pc ins s = .error f t → ¬f.IsFault → s.Unchanged held t) ∧
    ∀ (call : Native.Builtin.Call) (status : Int32), call.Given s →
      Native.Builtin.statusOf call.perform s = .ok status t → status ≠ 0 → s.Unchanged held t := by
  refine ⟨fun r pc ins f _ hstep hf => ?_, fun call status hcall hstatus hne => ?_⟩
  · rcases (Step.atomic_step r pc ins).error hs.quiet hstep with hfault | hquiet
    · exact absurd hfault hf
    · exact hquiet.unchanged
  · unfold Native.Builtin.statusOf at hstatus
    split at hstatus
    · cases hstatus
      exact absurd rfl hne
    · rename_i e u hperform
      cases hstatus
      rcases (Native.Builtin.Call.atomic_perform hcall).error hs.quiet hperform with ⟨g, hg⟩ | hquiet
      · cases hg
      · exact hquiet.unchanged
    · cases hstatus

/-- Takes an element out of an array. -/
def Routine.peeks : Routine where
  name := "peeks"
  code := #[⟨.arrayGet .int, 0, 1, 2, 0⟩]
  types := #[.array .int, .int, .int]
  constants := #[]
  checked := by decide

/-- An element behind the end of a view is asked for: the view is copied out, its base goes. -/
theorem failed_step_changes_nothing_peeks :
    let frame : Frame := { registers := #[.object .array 1, .ofInt 7, .ofInt 0] }
    let s : State := ⟨frame, {}, ⟨#[some ⟨1, .ofPlain (.ofShape .int [2] #[10, 20])⟩,
      some ⟨1, .array (.view .int 0 [(1, 1)] (by decide))⟩]⟩, "", default⟩
    let t : State := ⟨frame, {}, ⟨#[none, some ⟨1, .ofPlain (.ofShape .int [1] #[20])⟩]⟩, "", default⟩
    s.Counted [] ∧ step .peeks 0 ⟨.arrayGet .int, 0, 1, 2, 0⟩ s = .error (.code .index) t ∧ s.Unchanged [] t := by
  intro frame s t
  have hs : s.Counted [] := Heap.counted_of_cells (by decide) (by decide)
  have hstep : step .peeks 0 ⟨.arrayGet .int, 0, 1, 2, 0⟩ s = .error (.code .index) t := by
    cbv
  exact ⟨hs, hstep, (failed_step_changes_nothing hs).1 .peeks 0 _ _ rfl hstep (by rintro ⟨_, ⟨⟩⟩)⟩

end RegisterVM
