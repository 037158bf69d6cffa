import RegisterVM.Proofs.CountedOperations
import RegisterVM.Proofs.RegisterEffects

/-!
# Routines that access scalars

A routine that moves scalars between registers and slots, computes with them, prints and transfers
control cannot lose track of its types: every result is stored under the type of its register
(`State.Typed.of_stores`), and a slot that held no reference still holds none (`guarded_effect`). So its
run keeps to the declared types, as soon as the typed reads of slots find what their types say
(`Routine.conformant_of_accessesScalars`).
-/

namespace RegisterVM

/-- Moves of scalars between registers and slots, scalar operations, output and transfers of control. -/
def Opcode.isScalarAccess : Opcode → Bool
  | nop | data | getConstScalar _ | moveScalar _ | convert _ | unary _ | intArith _ | intBits _ | logic _ => true
  | floatArith _ | math | complexArith _ | compareInt _ | compareFloat _ | compareComplex _ => true
  | tupleGet _ | tupleSet _ | getVar _ _ | setVar _ _ | getField _ | setField _ => true
  | goto | test _ | switch | caseEntry | ret | print => true
  | _ => false

/-- The routine has no other instructions, and all but the prints are eligible. -/
def Routine.AccessesScalars (r : Routine) : Prop :=
  ∀ ins ∈ r.code, ins.opcode.isScalarAccess = true ∧
    (ins.opcode = .print ∨ Classifier.standard.isEligible r.types ins = true)

instance (r : Routine) : Decidable r.AccessesScalars :=
  inferInstanceAs (Decidable (∀ ins ∈ r.code, _ ∧ _))

/-! ### Registers -/

/-- A type of scalars has a tag. -/
theorem ValueType.exists_scalarTag {t : ValueType} {kind : ScalarKind} (h : t.scalar? = some kind) :
    ∃ tag, t.scalarTag? = some tag := by
  cases t <;> first | exact ⟨_, rfl⟩ | cases h

/-- A typed result is what a register of its kind may hold. -/
theorem ValueType.fits_value {t : ValueType} {kind : ScalarKind} (h : t.scalar? = some kind) (w : Words) :
    t.Fits (kind.value t w) := by
  intro tag htag
  obtain rfl : tag.kind = kind := Option.some.inj ((scalar?_of_scalarTag htag).symm.trans h)
  refine ⟨_, value_eq htag w, ?_⟩
  rintro rfl
  exact Words.isTruth_ofBool _

/-- A store of what the type says. -/
theorem State.Typed.of_stores {r : Routine} {i : Nat} {V : Value → Prop} {s : State} {m : Exec Flow}
    (h : s.Typed r) (hm : m.Stores i V s) (hV : ∀ v t, V v → r.types[i]? = some t → t.Fits v) :
    (stateAfter m s).Typed r := by
  rcases hm with hkeeps | ⟨v, hv, hset⟩
  · constructor
    · rw [hkeeps, h.size]
    · rw [hkeeps]
      exact h.fits
  · constructor
    · rw [hset, Array.size_modify, h.size]
    · intro q t w ht hw
      rw [hset, Array.getElem?_modify] at hw
      split at hw
      · rename_i hq
        subst hq
        obtain ⟨-, -, rfl⟩ := Option.map_eq_some_iff.1 hw
        exact hV v t hv ht
      · exact h.fits q t w ht hw

/-- What such a routine puts into registers are typed results. -/
theorem Instruction.Yields.exists_value {r : Routine} {ins : Instruction} {s : State} {v : Value}
    (h : ins.Yields r s v) (hop : ins.opcode.isScalarAccess = true)
    (heligible : ins.opcode = .print ∨ Classifier.standard.isEligible r.types ins = true) :
    ∃ kind t w, r.types[placeOf ins.c]? = some t ∧ t.scalar? = some kind ∧ v = kind.value t w := by
  have hprint : ins.opcode ≠ .print := fun hprint => not_yields (.inr (.inl hprint)) h
  obtain ⟨ws, hws, hall⟩ := Native.exists_wants (heligible.resolve_left hprint)
  cases h with
  | @typed kind t w hkind ht =>
    have hmem := mem_wants_of_resultKind hkind hws
    have hadmits : (Want.scalar kind).admits t = true := Want.admits_of_any (hall _ _ hmem) ht
    exact ⟨kind, t, w, ht, of_decide_eq_true hadmits, rfl⟩
  | immediate hdata huntyped =>
    unfold wants at hws
    rw [hdata] at hws
    obtain ⟨kind, hkind, -⟩ := Option.map_eq_some_iff.1 hws
    unfold resultKind? at huntyped
    rw [hdata] at huntyped
    cases hkind.symm.trans huntyped
  | constant hother | copy hother | string hother =>
    rcases hother with hother | hother <;> rw [hother] at hop <;> cases hop
  | arith hother | listItem hother | tupleItem hother =>
    rw [hother] at hop
    cases hop

/-- A scalar refers to nothing. -/
theorem ScalarKind.ref?_value (kind : ScalarKind) (t : ValueType) (w : Words) :
    (kind.value t w).ref? = none := by
  cases kind with
  | int => cases t <;> rfl
  | _ => rfl

/-! ### Slots outside the register file -/

/-- The objects named by `X` have no references in their slots. -/
def Heap.PlainIn (X : ObjectId → Prop) (h : Heap) : Prop :=
  ∀ id o, X id → h.get? id = some o → ∀ v ∈ o.slots, v.ref? = none

namespace Heap

variable {X : ObjectId → Prop}

/-- Taking a reference changes no item. -/
theorem PlainIn.retainValue {h : Heap} (hh : h.PlainIn X) (v : Value) : (h.retainValue v).PlainIn X := by
  unfold Heap.retainValue
  split
  · intro id o hid ho
    rw [get?_retain] at ho
    exact hh id o hid ho
  · exact hh

/-- Dropping references adds no item. -/
theorem PlainIn.dropAll {h : Heap} (hh : h.PlainIn X) (work : List ObjectId) : (h.dropAll work).PlainIn X :=
  fun id o hid ho => hh id o hid (get?_of_get?_dropAll ho)

/-- Dropping a value adds no item. -/
theorem PlainIn.dropValue {h : Heap} (hh : h.PlainIn X) (v : Value) : (h.dropValue v).PlainIn X := by
  unfold Heap.dropValue
  split
  · exact hh.dropAll _
  · exact hh

/-- An object may be changed if items without references stay so. -/
theorem PlainIn.modifyObject {h : Heap} (hh : h.PlainIn X) (id : ObjectId) {f : Object → Object}
    (hf : ∀ o, (∀ v ∈ o.slots, v.ref? = none) → ∀ v ∈ (f o).slots, v.ref? = none) :
    (h.modifyObject id f).PlainIn X := by
  intro j o hj ho
  rw [get?_modifyObject] at ho
  split at ho
  · obtain ⟨o', ho', rfl⟩ := Option.map_eq_some_iff.1 ho
    exact hf o' (hh j o' hj ho')
  · exact hh j o hj ho

/-- Copying a value changes no item. -/
theorem keeps_clone (v : Value) : Keeps (PlainIn X) (clone v) :=
  .bind (Keeps.modify fun _ hh => hh.retainValue v) fun _ => .pure _

/-- Giving a value up adds no item. -/
theorem keeps_discard (v : Value) : Keeps (PlainIn X) (discard v) := Keeps.modify fun _ hh => hh.dropValue v

/-- New slots are put into an object that has slots, and into no other. -/
theorem slots_withSlots (o : Object) (slots : Array Value) :
    (o.withSlots slots).slots = slots ∨ (o.withSlots slots).slots = #[] := by
  cases o with
  | string | array => exact .inr rfl
  | _ => exact .inl rfl

/-- An item may be overwritten by what refers to nothing. -/
theorem keeps_overwriteSlot (kind : ObjectKind) (target : Value) (i : Nat) {f : Value → Value}
    (hf : ∀ v, (f v).ref? = none) : Keeps (PlainIn X) (overwriteSlot kind target i f) := by
  refine .bind (looks_slotsOf kind target).keeps fun ⟨id, slots⟩ => ?_
  dsimp only
  split
  · refine Keeps.modify fun h hh => hh.modifyObject id fun o ho v hv => ?_
    rcases slots_withSlots o (o.slots.modify i f) with heq | heq <;> rw [heq] at hv
    · obtain ⟨j, hj⟩ := Array.mem_iff_getElem?.1 hv
      rw [Array.getElem?_modify] at hj
      split at hj
      · obtain ⟨w, -, rfl⟩ := Option.map_eq_some_iff.1 hj
        exact hf w
      · exact ho v (Array.mem_of_getElem? hj)
    · exact absurd hv (Array.not_mem_empty v)
  · exact .throw _

/-! Writing a value out copies views out. -/

/-- Copying views out adds no item: arrays have none. -/
theorem PlainIn.of_settles {h k : Heap} (hh : h.PlainIn X) (hk : h.Settles k) : k.PlainIn X := by
  intro id o hid ho v hv
  rcases hk.object id o ho with hold | ⟨_, _, _, a, _, _, rfl⟩
  · exact hh id o hid hold v hv
  · exact absurd hv (Array.not_mem_empty v)

/-- Looking an array up changes no items. -/
theorem keeps_plainArray (v : Value) : Keeps (PlainIn X) (plainArray v) :=
  (triple_plainArray_of_settles (fun _ _ hk hl => hk.of_settles hl) v).mono (fun _ hk => hk) (fun _ _ hk => hk.1)
    fun _ _ hk => hk

end Heap

namespace State

/-- The tuples and instances within reach of a frame. -/
def Exposes (s : State) (id : ObjectId) : Prop :=
  ∃ kind, (kind = .tuple ∨ kind = .object) ∧
    (s.frame.receiver = .object kind id ∨ .object kind id ∈ s.frame.registers)

/-- **No slot outside the register file holds a reference**: neither statics, globals and the registers of
enclosing frames, nor the items of the objects named by `X`. -/
structure PlainSlots (X : ObjectId → Prop) (s : State) : Prop where
  statics : ∀ v ∈ s.names.statics, v.ref? = none
  globals : ∀ v ∈ s.names.globals, v.ref? = none
  outer : ∀ slots ∈ s.frame.outer, ∀ v ∈ slots, v.ref? = none
  items : s.heap.PlainIn X

/-- What is within reach stays so. -/
structure Guards (X : ObjectId → Prop) (owner : Value) (s : State) : Prop where
  slots : s.PlainSlots X
  receiver : s.frame.receiver = owner

/-- Only variables, enclosing frames, the receiver and the heap count. -/
theorem Guards.congr {X : ObjectId → Prop} {owner : Value} {s t : State} (h : s.Guards X owner)
    (hnames : t.names = s.names) (houter : t.frame.outer = s.frame.outer)
    (hreceiver : t.frame.receiver = s.frame.receiver) (hheap : t.heap = s.heap) : t.Guards X owner := by
  obtain ⟨⟨statics, globals, outer, items⟩, receiver⟩ := h
  rw [← hnames] at statics globals
  rw [← houter] at outer
  rw [← hheap] at items
  exact ⟨⟨statics, globals, outer, items⟩, hreceiver.trans receiver⟩

end State

/-- A row with one member changed has no others. -/
theorem mem_modify {α : Type} {xs : Array α} {i : Nat} {f : α → α} {x : α} (h : x ∈ xs.modify i f) :
    x ∈ xs ∨ ∃ y ∈ xs, x = f y := by
  obtain ⟨j, hj⟩ := Array.mem_iff_getElem?.1 h
  rw [Array.getElem?_modify] at hj
  split at hj
  · obtain ⟨y, hy, rfl⟩ := Option.map_eq_some_iff.1 hj
    exact .inr ⟨y, Array.mem_of_getElem? hy, rfl⟩
  · exact .inl (Array.mem_of_getElem? hj)

namespace Exec

variable {X : ObjectId → Prop} {owner : Value} {α : Type}

/-- An action on the heap that keeps items without references. -/
theorem guards_onHeap {m : HeapM α} (h : Keeps (Heap.PlainIn X) m) : Keeps (State.Guards X owner) (onHeap m) := by
  intro s hs
  have hend := h s.heap hs.slots.items
  rw [onHeap_eq]
  cases hm : m s.heap with
  | ok a k =>
    rw [hm] at hend
    exact ⟨⟨hs.slots.statics, hs.slots.globals, hs.slots.outer, hend⟩, hs.receiver⟩
  | error e k =>
    rw [hm] at hend
    exact ⟨⟨hs.slots.statics, hs.slots.globals, hs.slots.outer, hend⟩, hs.receiver⟩

/-- A slot overwritten without a reference. -/
theorem guards_overwrite (p : Place) {f : Value → Value} (hf : ∀ v, (f v).ref? = none) :
    Keeps (State.Guards X owner) (overwrite p f) := by
  have hmodify {xs : Array Value} (hxs : ∀ v ∈ xs, v.ref? = none) (i : Nat) :
      ∀ v ∈ xs.modify i f, v.ref? = none := by
    intro v hv
    rcases mem_modify hv with hv | ⟨w, -, rfl⟩
    · exact hxs v hv
    · exact hf w
  cases p with
  | register i => exact .modify fun s hs => hs.congr rfl rfl rfl rfl
  | receiver i => exact .bind Looks.get.keeps fun s => guards_onHeap (Heap.keeps_overwriteSlot _ _ _ hf)
  | statics i =>
    exact .modify fun s hs =>
      ⟨⟨hmodify hs.slots.statics i, hs.slots.globals, hs.slots.outer, hs.slots.items⟩, hs.receiver⟩
  | globals i =>
    exact .modify fun s hs =>
      ⟨⟨hs.slots.statics, hmodify hs.slots.globals i, hs.slots.outer, hs.slots.items⟩, hs.receiver⟩
  | outer depth i =>
    refine .modify fun s hs => ⟨⟨hs.slots.statics, hs.slots.globals, fun slots hslots => ?_, hs.slots.items⟩,
      hs.receiver⟩
    have hslots : slots ∈ s.frame.outer.modify depth (·.modify i f) := hslots
    rcases mem_modify hslots with hslots | ⟨slots', hslots', rfl⟩
    · exact hs.slots.outer slots hslots
    · exact hmodify (hs.slots.outer slots' hslots') i
  | item kind q i =>
    exact .bind (looks_register q).keeps fun v => guards_onHeap (Heap.keeps_overwriteSlot _ _ _ hf)

/-- A register may be set to anything. -/
theorem guards_put (i : Nat) (v : Value) : Keeps (State.Guards X owner) (put (.register i) v) := by
  refine .bind (looks_read _).keeps fun old => .bind ?_ fun _ => guards_onHeap (Heap.keeps_discard old)
  exact .modify fun s hs => hs.congr rfl rfl rfl rfl

/-- Storing what refers to nothing, wherever it is stored. -/
theorem guards_write (p : Place) {v : Value} (hv : v.ref? = none) : Keeps (State.Guards X owner) (write p v) :=
  .bind (looks_read p).keeps fun old => .bind (guards_onHeap (Heap.keeps_clone v)) fun _ =>
    .bind (guards_overwrite p fun _ => hv) fun _ => guards_onHeap (Heap.keeps_discard old)

end Exec

namespace Step

open Exec

variable {r : Routine} {X : ObjectId → Prop} {owner : Value} {ins : Instruction} {x : Int32} {kind : ScalarKind}

/-- Storing a scalar in a register. -/
theorem guards_setScalar (kind : ScalarKind) (w : Words) : Keeps (State.Guards X owner) (setScalar r x kind w) :=
  .bind (looks_typeOf r x).keeps fun _ => guards_put _ _

/-- Storing an immediate in a register. -/
theorem guards_data : Keeps (State.Guards X owner) (data r ins) := by
  unfold data Machine.data
  split
  · exact guards_put _ _
  · exact guards_setScalar _ _
  · exact guards_setScalar _ _
  · exact guards_setScalar _ _
  · exact guards_put _ _
  · exact .throw _

/-- Applying a mathematical function. -/
theorem guards_math : Keeps (State.Guards X owner) (match MathFn.ofNumber? ins.a.toInt with
    | some f => words ins.b >>= fun w => applyMath f w.lo >>= fun y => setFloat r ins.c y
    | none => fail .value) := by
  split
  · refine .bind (looks_words _).keeps fun w => .bind ?_ fun y => guards_setScalar _ _
    exact fun s hs => hs.congr rfl rfl rfl rfl
  · exact .throw _

/-- An action that is harmless as long as registers are typed. -/
def Guarded {α : Type} (r : Routine) (X : ObjectId → Prop) (owner : Value) (m : Exec α) : Prop :=
  Triple (fun s => s.Guards X owner ∧ s.Typed r) m (fun _ => State.Guards X owner) fun _ => State.Guards X owner

/-- An action that guards what is within reach does not depend on types. -/
theorem Guarded.of_keeps {α : Type} {m : Exec α} (h : Keeps (State.Guards X owner) m) : Guarded r X owner m :=
  Triple.mono h (fun _ hs => hs.1) (fun _ _ hs => hs) fun _ _ hs => hs

/-- A scalar register has no reference to hand out. -/
theorem guarded_store (hx : Native.Declares r x.toInt (.scalar kind)) (p : Place) :
    Guarded r X owner (reg x >>= fun v => write p v) := by
  refine .bind (Q := fun v s => v.ref? = none ∧ s.Guards X owner) ?_ fun v => ?_
  · rintro s ⟨hs, htyped⟩
    have hreg : reg x s = register (placeOf x) s := rfl
    rw [hreg, register_eq]
    cases hv : s.frame.registers[placeOf x]? with
    | none => exact hs
    | some v =>
      refine ⟨?_, hs⟩
      have hlt : placeOf x < r.types.size := htyped.size ▸ (Array.getElem?_eq_some_iff.1 hv).1
      have ht := Array.getElem?_eq_getElem hlt
      have hadmits : (Want.scalar kind).admits r.types[placeOf x] = true := Want.admits_of_any hx ht
      obtain ⟨tag, htag⟩ := ValueType.exists_scalarTag (of_decide_eq_true hadmits)
      obtain ⟨w, rfl, -⟩ := htyped.fits _ _ v ht hv tag htag
      rfl
  · refine .assuming (fun _ hs => hs.1) fun hv => ?_
    exact (guards_write p hv).mono (fun _ hs => hs.2) (fun _ _ hs => hs) fun _ _ hs => hs

/-- Operations on one scalar. -/
theorem guards_unary (kind : ScalarKind) (x c : Int32) (f : Words → Words) :
    Keeps (State.Guards X owner) (words x >>= fun w => setScalar r c kind (f w)) :=
  .bind (looks_words x).keeps fun _ => guards_setScalar _ _

/-- Operations on two scalars. -/
theorem guards_binary (kind : ScalarKind) (x y c : Int32) (f : Words → Words → Words) :
    Keeps (State.Guards X owner) (words x >>= fun w => words y >>= fun z => setScalar r c kind (f w z)) :=
  .bind (looks_words x).keeps fun _ => guards_unary kind y c _

/-- Operations on two integers. -/
theorem guards_intBinary (kind : ScalarKind) (x y c : Int32) (f : Int64 → Int64 → Words) :
    Keeps (State.Guards X owner) (int x >>= fun m => int y >>= fun n => setScalar r c kind (f m n)) :=
  .bind (looks_int x).keeps fun _ => .bind (looks_int y).keeps fun _ => guards_setScalar _ _

/-- Reading a slot into a scalar register. -/
theorem guards_slotGet (kind : ScalarKind) (p : Place) (c : Int32) :
    Keeps (State.Guards X owner) (read p >>= fun v => setScalar r c kind v.words) :=
  .bind (looks_read p).keeps fun _ => guards_setScalar _ _

/-- **No slot gets a reference**, by an instruction that does not transfer control. -/
theorem guarded_effect (hop : ins.opcode.isScalarAccess = true)
    (heligible : ins.opcode = .print ∨ Classifier.standard.isEligible r.types ins = true) :
    Guarded r X owner (effect r ins) := by
  obtain ⟨op, a, b, c, line⟩ := ins
  cases op with
  | nop | goto | test | switch | ret => exact .of_keeps (.pure _)
  | caseEntry => exact .of_keeps (.throw _)
  | data => exact .of_keeps guards_data
  | getConstScalar k => exact .of_keeps (.bind (looks_constant r b).keeps fun _ => guards_setScalar _ _)
  | moveScalar k => exact .of_keeps (guards_unary k a c _)
  | convert v => exact .of_keeps (guards_unary v.target a c _)
  | unary op => exact .of_keeps (guards_unary op.kind a c _)
  | intArith op =>
    exact .of_keeps (.bind (looks_int a).keeps fun _ => .bind (looks_int b).keeps fun _ =>
      .bind (looks_ofExcept _).keeps fun _ => guards_setScalar _ _)
  | intBits op => exact .of_keeps (guards_intBinary .int a b c _)
  | logic op => exact .of_keeps (guards_binary .bool a b c _)
  | floatArith op => exact .of_keeps (guards_binary .float a b c _)
  | math => exact .of_keeps guards_math
  | complexArith op => exact .of_keeps (guards_binary .complex a b c _)
  | compareInt rel => exact .of_keeps (guards_intBinary .bool a b c _)
  | compareFloat rel => exact .of_keeps (guards_binary .bool a b c _)
  | compareComplex rel => exact .of_keeps (guards_binary .bool a b c _)
  | tupleGet k | getField k => exact .of_keeps (guards_slotGet k (.item _ (placeOf a) (placeOf b)) c)
  | getVar storage k => exact .of_keeps (guards_slotGet k _ c)
  | tupleSet k | setField k =>
    obtain ⟨ws, hws, hall⟩ := Native.exists_wants (heligible.resolve_left nofun)
    obtain ⟨-, ⟨⟩⟩ := Option.ite_none_left_eq_some.1 hws
    exact guarded_store (hall _ _ (.tail _ (.head _))) (.item _ (placeOf c) (placeOf b))
  | setVar storage k =>
    obtain ⟨ws, hws, hall⟩ := Native.exists_wants (heligible.resolve_left nofun)
    have hmem : (a.toInt, .scalar k) ∈ ws := by
      cases storage <;> obtain ⟨-, ⟨⟩⟩ := Option.ite_none_left_eq_some.1 hws <;> exact .head _
    exact guarded_store (hall _ _ hmem) _
  | print =>
    refine .of_keeps (.bind (looks_reg a).keeps fun _ =>
      .bind (guards_onHeap (Heap.keeps_text Heap.keeps_plainArray _)) fun _ => ?_)
    exact .modify fun s hs => hs.congr rfl rfl rfl rfl
  | _ => cases hop

/-- **An instruction of the scalar part is harmless**, if the classifier takes it or it prints. -/
theorem guarded_step (pc : Nat) (hop : ins.opcode.isScalarAccess = true)
    (heligible : ins.opcode = .print ∨ Classifier.standard.isEligible r.types ins = true) :
    Guarded r X owner (step r pc ins) := by
  have heffect : Guarded r X owner (effect r ins) := guarded_effect hop heligible
  obtain ⟨op, a, b, c, line⟩ := ins
  cases op with
  | goto => exact .of_keeps (.pure _)
  | test kind =>
    refine .of_keeps (.bind (looks_testHolds kind a).keeps fun holds => ?_)
    cases holds <;> exact .pure _
  | switch => exact .of_keeps (looks_dispatch r pc _).keeps
  | ret =>
    change Guarded r X owner (if b = 0 then (pure (.ret .none) : Exec Flow) else
      reg a >>= fun v => onHeap (Heap.clone v) >>= fun w => pure (.ret w))
    split
    · exact .of_keeps (.pure _)
    · exact .of_keeps (.bind (looks_reg a).keeps fun _ => .bind (guards_onHeap (Heap.keeps_clone _)) fun _ => .pure _)
  | _ => exact Triple.bind heffect fun _ => .pure fun _ hs => hs

end Step

/-! ### The run -/

/-- What holds all along the run: registers are typed, slots hold no references, and nothing new comes within
reach. -/
structure State.Orderly (r : Routine) (s start : State) : Prop where
  typed : s.Typed r
  guards : s.Guards start.Exposes start.frame.receiver
  exposes : ∀ id, s.Exposes id → start.Exposes id

/-- **One step keeps a state orderly.** -/
theorem State.Orderly.step {r : Routine} {start s : State} {i : Nat} {ins : Instruction}
    (h : s.Orderly r start) (hop : ins.opcode.isScalarAccess = true)
    (heligible : ins.opcode = .print ∨ Classifier.standard.isEligible r.types ins = true) :
    (stateAfter (step r i ins) s).Orderly r start := by
  have hstores := Step.stores_step r i ins s
  have hguards : (stateAfter (RegisterVM.step r i ins) s).Guards start.Exposes start.frame.receiver :=
    Triple.stateAfter (Step.guarded_step i hop heligible) ⟨h.guards, h.typed⟩
  refine ⟨h.typed.of_stores hstores fun v t hyields ht => ?_, hguards, fun id hid => h.exposes id ?_⟩
  · obtain ⟨kind, t', w, ht', hkind, rfl⟩ := hyields.exists_value hop heligible
    obtain rfl : t' = t := Option.some.inj (ht'.symm.trans ht)
    exact ValueType.fits_value hkind w
  · obtain ⟨kind, hkind, hheld⟩ := hid
    refine ⟨kind, hkind, hheld.imp (fun hreceiver => ?_) fun hmem => ?_⟩
    · rw [h.guards.receiver, ← hguards.receiver, hreceiver]
    · rcases hstores with hkeeps | ⟨v, hyields, hset⟩
      · rwa [hkeeps] at hmem
      · rw [hset] at hmem
        rcases mem_modify hmem with hmem | ⟨-, -, rfl⟩
        · exact hmem
        · obtain ⟨kind', t, w, -, -, hvalue⟩ := hyields.exists_value hop heligible
          have hnone := ScalarKind.ref?_value kind' t w
          rw [← hvalue] at hnone
          cases hnone

/-- An item within reach holds no reference. -/
theorem Heap.triple_readSlot {X : ObjectId → Prop} {kind : ObjectKind} {owner : Value}
    (howner : ∀ id, owner = .object kind id → X id) (i : Nat) :
    Triple (PlainIn X) (readSlot kind owner i) (fun v _ => v.ref? = none) fun _ _ => True := by
  have hobject : Triple (PlainIn X) (objectOf kind owner) (fun x _ => ∀ v ∈ x.2.slots, v.ref? = none)
      fun _ _ => True := by
    unfold objectOf
    split
    · refine .bind .get fun h => ?_
      split
      · rename_i ho
        split
        · rename_i hkind
          exact .pure fun k hk => hk.2 _ _ (howner _ (by rw [hkind])) (hk.1 ▸ ho)
        · exact .throw fun _ _ => trivial
      · exact .throw fun _ _ => trivial
    · exact .throw fun _ _ => trivial
  have hslots : Triple (PlainIn X) (slotsOf kind owner) (fun x _ => ∀ v ∈ x.2, v.ref? = none) fun _ _ => True :=
    .bind hobject fun _ => .pure fun _ hx => hx
  refine .bind hslots fun ⟨id, slots⟩ => ?_
  dsimp only
  split
  · rename_i hitem
    exact .pure fun _ hslots => hslots _ (Array.mem_of_getElem? hitem)
  · exact .throw fun _ _ => trivial

namespace Exec

/-- A row of slots without references gives a value that refers to nothing. -/
theorem triple_slotOf {P : State → Prop} {slots : Array Value} (hslots : ∀ s, P s → ∀ v ∈ slots, v.ref? = none)
    (i : Nat) : Triple P (slotOf slots i) (fun v _ => v.ref? = none) fun _ _ => True := by
  unfold slotOf
  split
  · rename_i hslot
    exact .pure fun s hs => hslots s hs _ (Array.mem_of_getElem? hslot)
  · exact .throw fun _ _ => trivial

/-- What an action on the heap gives, said of the state. -/
theorem triple_onHeap {P : State → Prop} {I : Heap → Prop} {m : HeapM Value} {Q : Value → Prop}
    (h : Triple I m (fun v _ => Q v) fun _ _ => True) (hP : ∀ s, P s → I s.heap) :
    Triple P (onHeap m) (fun v _ => Q v) fun _ _ => True := by
  intro s hs
  have hend := h s.heap (hP s hs)
  rw [onHeap_eq]
  cases hm : m s.heap with
  | ok v k =>
    rw [hm] at hend
    exact hend
  | error e k => trivial

/-- **What is read outside the register file holds no reference.** -/
theorem triple_read {p : Place} (hreg : ∀ i, p ≠ .register i)
    (hitem : ∀ kind q i, p = .item kind q i → kind = .tuple ∨ kind = .object) :
    Triple (fun s => s.PlainSlots s.Exposes) (read p) (fun v _ => v.ref? = none) fun _ _ => True := by
  cases p with
  | register i => exact absurd rfl (hreg i)
  | receiver i =>
    refine .bind .get fun s => triple_onHeap (I := Heap.PlainIn s.Exposes)
      (Heap.triple_readSlot (fun id hid => ⟨.object, .inr rfl, .inl hid⟩) i) ?_
    rintro _ ⟨rfl, hs⟩
    exact hs.items
  | statics i => exact .bind .get fun s => triple_slotOf (fun t ht => ht.1 ▸ ht.2.statics) i
  | globals i => exact .bind .get fun s => triple_slotOf (fun t ht => ht.1 ▸ ht.2.globals) i
  | outer depth i =>
    refine .bind .get fun s => ?_
    split
    · rename_i slots hslots
      refine triple_slotOf (fun t ht => ?_) i
      rw [ht.1] at hslots
      exact ht.2.outer slots (Array.mem_of_getElem? hslots)
    · exact .throw fun _ _ => trivial
  | item kind q i =>
    refine .bind (Q := fun owner s => owner ∈ s.frame.registers ∧ s.PlainSlots s.Exposes) ?_ fun owner => ?_
    · intro s hs
      rw [register_eq]
      cases hq : s.frame.registers[q]? with
      | none => trivial
      | some v => exact ⟨Array.mem_of_getElem? hq, hs⟩
    · intro s hs
      have howner : ∀ id, owner = .object kind id → s.Exposes id := by
        rintro id rfl
        exact ⟨kind, hitem kind q i rfl, .inr hs.1⟩
      refine triple_onHeap (P := (· = s)) (Heap.triple_readSlot howner i) ?_ s rfl
      rintro _ rfl
      exact hs.2.items

end Exec

/-- A slot outside the register file holds no reference. -/
theorem State.PlainSlots.plainAt {s : State} (h : s.PlainSlots s.Exposes) {p : Place}
    (hreg : ∀ i, p ≠ .register i)
    (hitem : ∀ kind q i, p = .item kind q i → kind = .tuple ∨ kind = .object) : s.PlainAt p :=
  fun _ _ hv => (Exec.triple_read hreg hitem).ok h hv

/-- What a typed read of a slot finds: a truth value is zero or one, and a complex number is no scalar of one
word. -/
def Instruction.ReadsFit (ins : Instruction) (s : State) : Prop :=
  let fits (kind : ScalarKind) (p : Place) : Prop :=
    (kind = .bool → s.TruthAt p) ∧ (kind = .complex → s.WidePlace p)
  match ins.opcode with
  | .tupleGet kind => fits kind (.item .tuple (placeOf ins.a) (placeOf ins.b))
  | .getField kind => fits kind (.item .object (placeOf ins.a) (placeOf ins.b))
  | .getVar storage kind => fits kind (ins.sourceVariable storage)
  | _ => True

/-- A register that is declared complex holds a complex number. -/
theorem State.Typed.wideAt {r : Routine} {s : State} {x : Int32} (h : s.Typed r)
    (hx : (typeAt? r.types x.toInt).any (Want.scalar .complex).admits = true) : s.WideAt x := by
  intro v hv
  have hlt : placeOf x < r.types.size := h.size ▸ (Array.getElem?_eq_some_iff.1 hv).1
  have ht := Array.getElem?_eq_getElem hlt
  have hadmits : (Want.scalar .complex).admits r.types[placeOf x] = true := Want.admits_of_any hx ht
  have hkind : r.types[placeOf x].scalar? = some .complex := of_decide_eq_true hadmits
  obtain ⟨tag, htag⟩ := ValueType.exists_scalarTag hkind
  obtain ⟨w, rfl, -⟩ := h.fits _ _ v ht hv tag htag
  have htag' := (ValueType.scalar?_of_scalarTag htag).symm.trans hkind
  intro hnarrow
  cases tag <;> first | exact hnarrow rfl | cases htag'

namespace Instruction

variable {r : Routine} {ins : Instruction} {s : State}

/-- Complex registers hold complex numbers, so only reads of slots are left to look at. -/
theorem readsWide_of_typed (hop : ins.opcode.isScalarAccess = true)
    (heligible : ins.opcode = .print ∨ Classifier.standard.isEligible r.types ins = true) (hs : s.Typed r)
    (hfits : ins.ReadsFit s) : ins.ReadsWide s := by
  obtain ⟨op, a, b, c, line⟩ := ins
  cases op with
  | moveScalar kind =>
    cases kind with
    | complex =>
      obtain ⟨ws, ⟨⟩, hall⟩ := Native.exists_wants (heligible.resolve_left nofun)
      exact hs.wideAt (hall _ _ (.tail _ (.head _)))
    | _ => trivial
  | unary op =>
    cases op with
    | negComplex =>
      obtain ⟨ws, ⟨⟩, hall⟩ := Native.exists_wants (heligible.resolve_left nofun)
      exact hs.wideAt (hall _ _ (.tail _ (.head _)))
    | _ => trivial
  | complexArith | compareComplex =>
    obtain ⟨ws, ⟨⟩, hall⟩ := Native.exists_wants (heligible.resolve_left nofun)
    exact ⟨hs.wideAt (hall _ _ (.tail _ (.head _))), hs.wideAt (hall _ _ (.tail _ (.tail _ (.head _))))⟩
  | tupleGet kind | getField kind | getVar storage kind =>
    cases kind with
    | complex => exact hfits.2 rfl
    | _ => trivial
  | arraySet | arraySetMulti => cases hop
  | _ => trivial

/-- Slots without references fit compiled code wherever their words do. -/
theorem slotsFit_of_plainSlots (hs : s.PlainSlots s.Exposes) (hfits : ins.ReadsFit s) : ins.SlotsFit s := by
  obtain ⟨op, a, b, c, line⟩ := ins
  cases op with
  | tupleGet kind | getField kind | getVar storage kind =>
    cases kind with
    | bool => exact hfits.1 rfl
    | _ => trivial
  | tupleSet kind =>
    refine hs.plainAt nofun ?_
    rintro _ _ _ ⟨⟩
    exact .inl rfl
  | setField kind =>
    refine hs.plainAt nofun ?_
    rintro _ _ _ ⟨⟩
    exact .inr rfl
  | setVar storage kind => cases storage <;> exact hs.plainAt nofun nofun
  | _ => trivial

end Instruction

/-- **The run of a routine that accesses scalars keeps to the declared types**, if its registers do so at the
start, no slot within reach holds a reference, and typed reads of slots find what their types say. -/
theorem Routine.conformant_of_accessesScalars {r : Routine} (hr : r.AccessesScalars) {start : State}
    (htyped : start.Typed r) (hslots : start.PlainSlots start.Exposes)
    (hreads : ∀ i s ins, r.Reaches start i s → r.code[i]? = some ins → ins.ReadsFit s) :
    r.Conformant start := by
  intro i s ins hreaches hins
  have horderly : s.Orderly r start :=
    (keeps_of_step (I := fun s => s.Orderly r start)
      (fun hins hs => hs.step (hr _ (Array.mem_of_getElem? hins)).1 (hr _ (Array.mem_of_getElem? hins)).2)
      ⟨htyped, ⟨hslots, rfl⟩, fun _ hid => hid⟩).1 hreaches
  have hplain : s.PlainSlots s.Exposes :=
    { horderly.guards.slots with
      items := fun id o hid => horderly.guards.slots.items id o (horderly.exposes id hid) }
  obtain ⟨hop, heligible⟩ := hr ins (Array.mem_of_getElem? hins)
  have hfit := hreads i s ins hreaches hins
  have harrays : ins.arrayOperands = [] := by
    obtain ⟨op, a, b, c, line⟩ := ins
    cases op <;> first | rfl | cases hop
  refine ⟨horderly.typed, fun q hq => ?_, Instruction.readsWide_of_typed hop heligible horderly.typed hfit,
    Instruction.slotsFit_of_plainSlots hplain hfit⟩
  rw [harrays] at hq
  cases hq

end RegisterVM
