import RegisterVM.Proofs.CompiledStep
import RegisterVM.Proofs.Triples

/-!
# What an instruction can put into a register

An instruction changes at most one register, the one operand `c` names, and whether or not it fails.
What it can put there is said once, by `Instruction.Yields`: a scalar under the declared type of the
register, an immediate, a constant, a copy of another register, the result of generic arithmetic, a
string, or an item whose tag was checked (`stores_step`). Everything a run keeps in its registers follows
from this and one induction over the run (`Routine.keeps_of_step`).

The first thing to follow is that scalar registers keep their tags: the operand rules of the classifier
rule out every instruction that would store another one (`Instruction.Yields.tag_eq`).
-/

namespace RegisterVM

namespace Exec

variable {α β : Type}

/-- The registers after an action that keeps them are those from before. -/
theorem KeepsRegisters.stateAfter {m : Exec α} (h : KeepsRegisters m) (s : State) :
    (stateAfter m s).frame.registers = s.frame.registers := by
  cases hs : m s with
  | ok a t => rw [stateAfter_of_ok hs, h.ok hs]
  | error e t => rw [stateAfter_of_error hs, h.error hs]

/-- Reading a register gives what is in it. -/
theorem register_eq_ok {s t : State} {i : Nat} {v : Value} (h : register i s = .ok v t) :
    s.frame.registers[i]? = some v := by
  rw [register_eq] at h
  cases hi : s.frame.registers[i]? with
  | none =>
    rw [hi] at h
    cases h
  | some w =>
    rw [hi] at h
    cases h
    rfl

/-- From `s` an action changes at most register `i`, to a value in `V`. -/
def Stores (m : Exec α) (i : Nat) (V : Value → Prop) (s : State) : Prop :=
  (stateAfter m s).frame.registers = s.frame.registers ∨
    ∃ v, V v ∧ (stateAfter m s).frame.registers = s.frame.registers.modify i fun _ => v

namespace Stores

variable {i : Nat} {V : Value → Prop} {s : State}

/-- An action that keeps the registers stores nothing. -/
theorem of_keeps {m : Exec α} (h : KeepsRegisters m) : Stores m i V s := .inl (h.stateAfter s)

/-- What comes before the store changes nothing. -/
theorem bind {m : Exec α} {f : α → Exec β} (hm : KeepsRegisters m)
    (hf : ∀ a t, m s = .ok a t → Stores (f a) i V t) : Stores (m >>= f) i V s := by
  refine stateAfter_bind (P := fun u : State => u.frame.registers = s.frame.registers ∨
    ∃ v, V v ∧ u.frame.registers = s.frame.registers.modify i fun _ => v) (.inl (hm.stateAfter s)) ?_
  intro a t ht
  rw [← hm.ok ht]
  exact hf a t ht

/-- Neither does one that only looks. -/
theorem of_looks {m : Exec α} (h : Looks m) : Stores m i V s := .inl (by rw [h s])

/-- Looking first, then storing. -/
theorem look {m : Exec α} {f : α → Exec β} (hm : Looks m)
    (hf : ∀ a, m s = .ok a s → Stores (f a) i V s) : Stores (m >>= f) i V s := by
  refine bind ⟨fun h => by rw [hm.eq_of_ok h], fun {s _ t} h => ?_⟩ fun a t ht => ?_
  · rw [← stateAfter_of_error h, hm s]
  · obtain rfl := hm.eq_of_ok ht
    exact hf a ht

/-- Neither does anything that comes behind it. -/
theorem followed {m : Exec α} {f : α → Exec β} (h : Stores m i V s) (hf : ∀ a, KeepsRegisters (f a)) :
    Stores (m >>= f) i V s := by
  have hregisters : (stateAfter (m >>= f) s).frame.registers = (stateAfter m s).frame.registers := by
    refine stateAfter_bind (P := fun u : State => u.frame.registers = _) rfl fun a t ht => ?_
    rw [(hf a).stateAfter t, stateAfter_of_ok ht]
  unfold Stores
  rw [hregisters]
  exact h

/-- Overwriting a register stores the value. -/
theorem overwrite {v : Value} (hv : V v) : Stores (overwrite (.register i) fun _ => v) i V s :=
  .inr ⟨v, hv, rfl⟩

/-- So does handing a value over. -/
theorem put {v : Value} (hv : V v) : Stores (put (.register i) v) i V s :=
  .look (looks_read _) fun _ _ => (overwrite hv).followed fun _ => .onHeap _

/-- So does writing a value. -/
theorem write {v : Value} (hv : V v) : Stores (write (.register i) v) i V s :=
  .look (looks_read _) fun _ _ => .bind (.onHeap _) fun _ _ _ => (overwrite hv).followed fun _ => .onHeap _

end Stores

end Exec

/-! ### Results of instructions -/

/-- The kind under which an instruction stores its result with the tag of the declared type, if it does. -/
def Instruction.resultKind? (ins : Instruction) : Option ScalarKind :=
  match ins.opcode with
  | .data => (Tag.ofCode? ins.a.toUInt32.toNat).bind Tag.immediateKind?
  | .getConstScalar k | .moveScalar k | .tupleGet k | .getVar _ k | .getField k => some k
  | .convert v => some v.target
  | .unary op => some op.kind
  | .intArith _ | .intBits _ | .charAt | .size _ => some .int
  | .logic _ | .compareInt _ | .compareFloat _ | .compareComplex _ | .compareString _ => some .bool
  | .floatArith _ | .math => some .float
  | .complexArith _ => some .complex
  | .arrayGet k | .arrayGetMulti k => some k.scalar
  | _ => none

/-- **What an instruction can put into register `c`.** -/
inductive Instruction.Yields (r : Routine) (ins : Instruction) (s : State) : Value → Prop
  | typed {kind : ScalarKind} {t : ValueType} (w : Words) (result : ins.resultKind? = some kind)
      (type : r.types[placeOf ins.c]? = some t) : Yields r ins s (kind.value t w)
  | immediate {v : Value} (op : ins.opcode = .data) (untyped : ins.resultKind? = none)
      (tag : Tag.ofCode? ins.a.toUInt32.toNat = some v.tag) : Yields r ins s v
  | constant {v : Value} (op : ins.opcode = .getConst ∨ ins.opcode = .getConstString)
      (value : r.constants[placeOf ins.b]? = some v) : Yields r ins s v
  | copy {v : Value} (op : ins.opcode = .move ∨ ins.opcode = .moveString)
      (value : s.frame.registers[placeOf ins.a]? = some v) : Yields r ins s v
  | arith {o : ArithOp} {x y v : Value} {h : Heap} (op : ins.opcode = .arith o)
      (left : s.frame.registers[placeOf ins.a]? = some x) (right : s.frame.registers[placeOf ins.b]? = some y)
      (result : Heap.genericArith o x y s.heap = .ok v h) : Yields r ins s v
  | string {id : ObjectId} (op : ins.opcode = .concat ∨ ins.opcode = .setChar) :
    Yields r ins s (.object .string id)
  | listItem {k : ElementKind} {t : ValueType} {v : Value} (op : ins.opcode = .listGet k)
      (type : r.types[placeOf ins.c]? = some t) (tag : v.tag = t.listItemTag k) : Yields r ins s v
  | tupleItem {t : ValueType} {v : Value} (op : ins.opcode = .tupleGetAny)
      (type : r.types[placeOf ins.c]? = some t) (tag : v.hasTag t.tag? = true) : Yields r ins s v

namespace Step

open Exec

variable {r : Routine} {x : Int32}

/-- Reading the register of an operand gives what is in it. -/
theorem reg_eq_ok {s t : State} {v : Value} (h : reg x s = .ok v t) :
    s.frame.registers[placeOf x]? = some v := register_eq_ok h

/-- Reading a constant gives the constant of that number. -/
theorem constant_eq_ok {s t : State} {v : Value} (h : constant r x s = .ok v t) :
    r.constants[placeOf x]? = some v := by
  unfold constant at h
  cases hv : r.constants[placeOf x]? with
  | none =>
    rw [hv] at h
    cases h
  | some w =>
    rw [hv] at h
    cases h
    rfl

/-- Looking a type up gives the declared type. -/
theorem typeOf_eq_ok {s u : State} {t : ValueType} (h : typeOf r x s = .ok t u) :
    r.types[placeOf x]? = some t := by
  unfold typeOf at h
  cases ht : r.types[placeOf x]? with
  | none =>
    rw [ht] at h
    cases h
  | some w =>
    rw [ht] at h
    cases h
    rfl

/-- A value that passes the check has the tag. -/
theorem hasTag_of_checkTag {v : Value} {expected : Option Tag} {s t : State}
    (h : checkTag v expected s = .ok () t) : v.hasTag expected = true := by
  unfold checkTag at h
  split at h
  · assumption
  · cases h

/-- A mathematical function touches no register. -/
theorem keeps_applyMath (f : MathFn) (x : UInt64) : KeepsRegisters (applyMath f x) := by
  constructor <;> rintro _ _ _ ⟨⟩
  rfl

/-- A changed string is a string. -/
theorem exists_string_of_setChar {v w : Value} {i ch : Int64} {h k : Heap}
    (hw : Heap.setChar v i ch h = .ok w k) : ∃ id, w = .object .string id := by
  have hspec : Heap.Ensures (fun _ => True) (Heap.setChar v i ch) fun w _ => ∃ id, w = .object .string id := by
    refine .bind .get fun h' => ?_
    split
    · rename_i bytes id hbytes hid
      refine .bind (Q := fun _ _ => True) (fun _ _ _ _ _ => trivial) fun k => ?_
      refine .bind (Q := fun _ _ => True) (fun _ _ _ _ _ => trivial) fun h'' => ?_
      split
      · refine .bind (Q := fun w _ => ∃ id, w = .object .string id) ?_ fun w => ?_
        · rintro _ - _ _ ⟨⟩
          exact ⟨_, rfl⟩
        · refine .bind (.modify (Q := fun _ => ∃ id, w = .object .string id) fun _ hw => hw) fun _ => ?_
          exact .pure fun _ hw => hw
      · refine .bind (.modify (Q := fun _ => True) fun _ _ => trivial) fun _ => .pure fun _ _ => ?_
        unfold Heap.bytes? at hbytes
        split at hbytes
        · exact ⟨_, rfl⟩
        · cases hbytes
    · exact .throw _
  exact hspec h trivial w k hw

variable {ins : Instruction} {s u : State} {i : Nat}

/-- A scalar result has the kind that its opcode says. -/
theorem stores_setScalar {kind : ScalarKind} (hkind : ins.resultKind? = some kind) (w : Words) :
    Stores (setScalar r ins.c kind w) (placeOf ins.c) (ins.Yields r s) u :=
  .look (looks_typeOf r _) fun _ ht => .put (.typed w hkind (typeOf_eq_ok ht))

/-- A typed result computed from one register. -/
theorem stores_unary {kind : ScalarKind} (hkind : ins.resultKind? = some kind) (x : Int32) (f : Words → Words) :
    Stores (words x >>= fun w => setScalar r ins.c kind (f w)) (placeOf ins.c) (ins.Yields r s) u :=
  .look (looks_words x) fun w _ => stores_setScalar hkind (f w)

/-- A typed result computed from two registers. -/
theorem stores_binary {kind : ScalarKind} (hkind : ins.resultKind? = some kind) (x y : Int32)
    (f : Words → Words → Words) :
    Stores (words x >>= fun w => words y >>= fun z => setScalar r ins.c kind (f w z)) (placeOf ins.c)
      (ins.Yields r s) u :=
  .look (looks_words x) fun w _ => stores_unary hkind y (f w)

/-- The result of an operation on two integers. -/
theorem stores_intBinary {kind : ScalarKind} (hkind : ins.resultKind? = some kind) (x y : Int32)
    (f : Int64 → Int64 → Words) :
    Stores (int x >>= fun m => int y >>= fun n => setScalar r ins.c kind (f m n)) (placeOf ins.c)
      (ins.Yields r s) u :=
  .look (looks_int x) fun m _ => .look (looks_int y) fun n _ => stores_setScalar hkind (f m n)

/-- The result of an immediate. -/
theorem stores_data (hop : ins.opcode = .data) :
    Stores (data r ins) (placeOf ins.c) (ins.Yields r s) u := by
  have hkind (tag : Tag) (htag : Tag.ofCode? ins.a.toUInt32.toNat = some tag) :
      ins.resultKind? = tag.immediateKind? := by
    unfold Instruction.resultKind?
    rw [hop]
    dsimp only
    rw [htag]
    rfl
  unfold data Machine.data
  split <;> rename_i htag
  · exact .put (.immediate hop (hkind _ htag) htag)
  · exact stores_setScalar (hkind _ htag) _
  · exact stores_setScalar (hkind _ htag) _
  · exact stores_setScalar (hkind _ htag) _
  · exact .put (.immediate hop (hkind _ htag) htag)
  · exact .of_keeps (.throw _)

/-- The result of a mathematical function. -/
theorem stores_math (hkind : ins.resultKind? = some .float) :
    Stores (match MathFn.ofNumber? ins.a.toInt with
      | some f => words ins.b >>= fun w => applyMath f w.lo >>= fun y => setFloat r ins.c y
      | none => fail .value) (placeOf ins.c) (ins.Yields r s) u := by
  split
  · exact .look (looks_words _) fun _ _ => .bind (keeps_applyMath _ _) fun _ _ _ => stores_setScalar hkind _
  · exact .of_keeps (.throw _)

/-- A copy of a value, behind the check of its tag. -/
theorem stores_checked {v : Value} {f : ValueType → Option Tag} {V : Value → Prop}
    (hv : ∀ t, r.types[placeOf x]? = some t → v.hasTag (f t) = true → V v) :
    Stores (typeOf r x >>= fun t => checkTag v (f t) >>= fun _ => copyTo x v) (placeOf x) V u :=
  .look (looks_typeOf r x) fun t ht => .look (looks_checkTag _ _) fun _ hcheck =>
    .write (hv t (typeOf_eq_ok ht) (hasTag_of_checkTag hcheck))

/-- **One instruction that does not transfer control.** -/
theorem stores_effect (r : Routine) (ins : Instruction) (s : State) :
    Stores (effect r ins) (placeOf ins.c) (ins.Yields r s) s := by
  obtain ⟨op, a, b, c, line⟩ := ins
  cases op with
  | nop => exact .of_keeps (.pure _)
  | data => exact stores_data rfl
  | getConst => exact .look (looks_constant r b) fun v hv => .write (.constant (.inl rfl) (constant_eq_ok hv))
  | getConstString =>
    exact .look (looks_constant r b) fun v hv => .write (.constant (.inr rfl) (constant_eq_ok hv))
  | getConstScalar k => exact .look (looks_constant r b) fun v _ => stores_setScalar rfl _
  | move => exact .look (looks_reg a) fun v hv => .write (.copy (.inl rfl) (reg_eq_ok hv))
  | moveString => exact .look (looks_reg a) fun v hv => .write (.copy (.inr rfl) (reg_eq_ok hv))
  | moveScalar k => exact stores_unary rfl a _
  | convert v => exact stores_unary rfl a _
  | unary op => exact stores_unary rfl a _
  | intArith op =>
    exact .look (looks_int a) fun _ _ => .look (looks_int b) fun _ _ =>
      .look (looks_ofExcept _) fun _ _ => stores_setScalar rfl _
  | intBits op => exact stores_intBinary rfl a b _
  | logic op => exact stores_binary rfl a b _
  | floatArith op => exact stores_binary rfl a b _
  | math =>
    exact stores_math rfl
  | complexArith op => exact stores_binary rfl a b _
  | compareInt rel => exact stores_intBinary rfl a b _
  | compareFloat rel => exact stores_binary rfl a b _
  | compareComplex rel => exact stores_binary rfl a b _
  | compareString rel =>
    exact .look (looks_reg a) fun _ _ => .look (looks_reg b) fun _ _ => .look .get fun _ _ =>
      stores_setScalar rfl _
  | arith op =>
    refine .look (looks_reg a) fun x hx => .look (looks_reg b) fun y hy => ?_
    have hleft := reg_eq_ok hx
    have hright := reg_eq_ok hy
    refine .bind (.onHeap _) fun v t hv => .put ?_
    change onHeap _ s = _ at hv
    rw [onHeap_eq] at hv
    cases hresult : Heap.genericArith op x y s.heap with
    | error e h =>
      rw [hresult] at hv
      cases hv
    | ok w h =>
      rw [hresult] at hv
      cases hv
      exact .arith rfl hleft hright hresult
  | assignAll =>
    exact .look (looks_reg b) fun _ _ => .look (looks_checkTag _ _) fun _ _ => .look (looks_reg c) fun _ _ =>
      .look (looks_reg a) fun _ _ => .of_keeps (.onHeap _)
  | concat =>
    refine .look (looks_reg a) fun x _ => .look (looks_reg b) fun y _ => .bind (.onHeap _) fun v t hv => ?_
    cases hv
    exact .put (.string (.inl rfl))
  | charAt =>
    exact .look (looks_reg a) fun _ _ => .look (looks_int b) fun _ _ => .bind (.onHeap _) fun _ _ _ =>
      stores_setScalar rfl _
  | setChar =>
    refine .look (looks_reg c) fun x _ => .look (looks_int b) fun i _ => .look (looks_int a) fun ch _ => ?_
    refine .bind (.onHeap _) fun v t hv => ?_
    change onHeap _ s = _ at hv
    rw [onHeap_eq] at hv
    cases hresult : Heap.setChar x i ch s.heap with
    | error e h =>
      rw [hresult] at hv
      cases hv
    | ok w h =>
      rw [hresult] at hv
      cases hv
      obtain ⟨id, rfl⟩ := exists_string_of_setChar hresult
      exact .overwrite (.string (.inr rfl))
  | size of =>
    exact .look (looks_reg a) fun _ _ => .look (looks_checkTag _ _) fun _ _ => .look (looks_reg a) fun _ _ =>
      .bind (.onHeap _) fun _ _ _ => stores_setScalar rfl _
  | arrayGet k =>
    exact .look (looks_reg a) fun _ _ => .look (looks_int b) fun _ _ => .bind (.onHeap _) fun _ _ _ =>
      stores_setScalar rfl _
  | arraySet k =>
    exact .look (looks_reg c) fun _ _ => .look (looks_int b) fun _ _ => .look (looks_words a) fun _ _ =>
      .of_keeps (.onHeap _)
  | arrayGetMulti k =>
    exact .look (looks_indices a b) fun _ _ => .look (looks_reg a) fun _ _ => .bind (.onHeap _) fun _ _ _ =>
      stores_setScalar rfl _
  | arraySetMulti k =>
    exact .look (looks_indices c b) fun _ _ => .look (looks_reg c) fun _ _ => .look (looks_words a) fun _ _ =>
      .of_keeps (.onHeap _)
  | listGet k =>
    refine .look (looks_reg a) fun _ _ => .look (looks_int b) fun _ _ => .bind (.onHeap _) fun v _ _ => ?_
    exact stores_checked (f := fun t => some (t.listItemTag k)) fun t ht htag =>
      .listItem rfl ht (of_decide_eq_true htag)
  | listSet k =>
    exact .look (looks_reg c) fun _ _ => .look (looks_int b) fun _ _ => .look (looks_reg a) fun _ _ =>
      .of_keeps (.onHeap _)
  | tupleGetAny =>
    exact .look (looks_readItem _ a _) fun v _ => stores_checked fun t ht htag => .tupleItem rfl ht htag
  | tupleGet k => exact .look (looks_readItem _ a _) fun _ _ => stores_setScalar rfl _
  | tupleSetAny =>
    exact .look (looks_reg a) fun _ _ => .look (looks_typeOf r c) fun _ _ => .look (looks_checkTag _ _) fun _ _ =>
      .of_keeps (.write (p := .item _ _ _) nofun _)
  | tupleSet k => exact .look (looks_reg a) fun _ _ => .of_keeps (.write (p := .item _ _ _) nofun _)
  | getVar storage k => exact .look (looks_read _) fun _ _ => stores_setScalar rfl _
  | setVar storage k =>
    exact .look (looks_reg a) fun _ _ => .of_keeps (.write (by cases storage <;> exact nofun) _)
  | getField k => exact .look (looks_readItem _ a _) fun _ _ => stores_setScalar rfl _
  | setField k => exact .look (looks_reg a) fun _ _ => .of_keeps (.write (p := .item _ _ _) nofun _)
  | print =>
    exact .look (looks_reg a) fun _ _ => .of_keeps (.bind (.onHeap _) fun _ => .modify fun _ => rfl)
  | caseEntry => exact .of_keeps (.throw _)
  | callSegment => exact .of_keeps (.throw _)
  | goto => exact .of_keeps (.pure _)
  | test kind => exact .of_keeps (.pure _)
  | switch => exact .of_keeps (.pure _)
  | ret => exact .of_keeps (.pure _)

/-- **One instruction stores at most what it yields.** -/
theorem stores_step (r : Routine) (pc : Nat) (ins : Instruction) (s : State) :
    Stores (step r pc ins) (placeOf ins.c) (ins.Yields r s) s := by
  have heffect := stores_effect r ins s
  obtain ⟨op, a, b, c, line⟩ := ins
  cases op with
  | goto => exact .of_keeps (.pure _)
  | test kind =>
    refine .look (looks_testHolds kind a) fun holds _ => ?_
    cases holds <;> exact .of_keeps (.pure _)
  | switch => exact .of_looks (looks_dispatch r pc _)
  | ret =>
    change Stores (if b = 0 then (pure (.ret .none) : Exec Flow) else
      reg a >>= fun v => onHeap (Heap.clone v) >>= fun w => pure (.ret w)) _ _ _
    split
    · exact .of_keeps (.pure _)
    · exact .look (looks_reg a) fun _ _ => .of_keeps (.bind (.onHeap _) fun _ => .pure _)
  | _ => exact heffect.followed fun _ => .pure _

end Step

/-! ### What a run keeps -/

namespace Image

variable {r : Routine} {pc : Nat} {ins : Instruction} {s : State}

/-- Where the interpreter goes on, it does so in the state after the step. -/
theorem interpret_eq_next {x : Running} (h : interpret r pc ins s = .next x) :
    ∃ i, x = ⟨.interpreting i, stateAfter (step r pc ins) s⟩ := by
  unfold interpret at h
  split at h <;> rename_i hstep <;> cases h <;> rw [stateAfter, hstep] <;> exact ⟨_, rfl⟩

/-- Where it halts, it does so in the state after the step. -/
theorem interpret_eq_halt {o : Outcome} (h : interpret r pc ins s = .halt o) :
    o.state = stateAfter (step r pc ins) s := by
  unfold interpret at h
  split at h <;> rename_i hstep <;> cases h <;> rw [stateAfter, hstep]

end Image

/-- **What every step keeps, a run keeps**: before every instruction, and at the end. -/
theorem Routine.keeps_of_step {r : Routine} {I : State → Prop}
    (hstep : ∀ {i ins s}, r.code[i]? = some ins → I s → I (stateAfter (step r i ins) s)) {start : State}
    (hstart : I start) : (∀ {i s}, r.Reaches start i s → I s) ∧
      ∀ {n o}, (Image.interpreted r).run r n start = some o → I o.state := by
  refine ⟨fun hreaches => ?_, fun hrun => ?_⟩
  · induction hreaches with
    | start => exact hstart
    | step before here next ih =>
      obtain ⟨_, ⟨⟩⟩ := Image.interpret_eq_next next
      exact hstep here ih
  · refine iterate_invariant (I := fun x => ∃ i s, x = ⟨.interpreting i, s⟩ ∧ I s) (Q := fun o => I o.state)
      ?_ ?_ ⟨0, start, rfl, hstart⟩ hrun
    · rintro _ x ⟨i, s, rfl, hs⟩ hx
      rw [Image.advance_interpreted] at hx
      cases hins : r.code[i]? with
      | none =>
        rw [hins] at hx
        cases hx
      | some ins =>
        rw [hins] at hx
        obtain ⟨j, rfl⟩ := Image.interpret_eq_next hx
        exact ⟨j, _, rfl, hstep hins hs⟩
    · rintro _ o ⟨i, s, rfl, hs⟩ ho
      rw [Image.advance_interpreted] at ho
      cases hins : r.code[i]? with
      | none =>
        rw [hins] at ho
        cases ho
        exact hs
      | some ins =>
        rw [hins] at ho
        rw [Image.interpret_eq_halt ho]
        exact hstep hins hs

/-! ### Scalar registers keep their tags -/

/-- Every register declared as a scalar carries the tag of its type. -/
def State.CarriesTags (r : Routine) (s : State) : Prop :=
  ∀ (q : Nat) (t : ValueType) (tag : ScalarTag), r.types[q]? = some t → t.scalarTag? = some tag →
    (s.frame.registers[q]?).map Value.tag = some tag.tag

/-- The declared type of a wanted register, whatever its number. -/
theorem Want.admits_of_any {types : Array ValueType} {x : Int32} {want : Want} {t : ValueType}
    (h : (typeAt? types x.toInt).any want.admits = true) (ht : types[placeOf x]? = some t) :
    want.admits t = true := by
  obtain ⟨t', ht', hadmits⟩ := (Option.any_eq_true _ _).1 h
  unfold typeAt? at ht'
  split at ht'
  · cases ht'
  · rw [← placeOf_of_nonneg (by omega), ht] at ht'
    cases ht'
    exact hadmits

/-- A typed result is wanted in a register of its kind. -/
theorem Instruction.mem_wants_of_resultKind {ins : Instruction} {kind : ScalarKind} {ws : List (Int × Want)}
    (hkind : ins.resultKind? = some kind) (hws : ins.wants = some ws) :
    (ins.c.toInt, .scalar kind) ∈ ws := by
  obtain ⟨op, a, b, c, line⟩ := ins
  cases op with
  | data =>
    obtain ⟨kind', hkind', rfl⟩ := Option.map_eq_some_iff.1 hws
    obtain rfl : kind' = kind := Option.some.inj (hkind'.symm.trans hkind)
    exact .head _
  | math =>
    obtain ⟨-, -, rfl⟩ := Option.map_eq_some_iff.1 hws
    cases hkind
    exact .head _
  | size of => cases of <;> cases hws <;> cases hkind <;> exact .head _
  | arrayGetMulti k | tupleGet k | getField k =>
    obtain ⟨-, ⟨⟩⟩ := Option.ite_none_left_eq_some.1 hws
    cases hkind
    exact .head _
  | getVar storage k =>
    cases storage <;> obtain ⟨-, ⟨⟩⟩ := Option.ite_none_left_eq_some.1 hws <;> cases hkind <;> exact .head _
  | getConstScalar | moveScalar | convert | unary | intArith | intBits | logic | floatArith | complexArith
  | compareInt | compareFloat | compareComplex | compareString | charAt | arrayGet =>
    cases hws
    cases hkind
    exact .head _
  | _ => cases hkind

/-- **An eligible instruction yields what the type of its destination says.** -/
theorem Instruction.Yields.tag_eq {r : Routine} {ins : Instruction} {s : State} {v : Value} {t : ValueType}
    {tag : ScalarTag} {k : Classifier} (h : ins.Yields r s v) (heligible : k.isEligible r.types ins = true)
    (ht : r.types[placeOf ins.c]? = some t) (htag : t.scalarTag? = some tag) : v.tag = tag.tag := by
  obtain ⟨ws, hws, hall⟩ := Native.exists_wants heligible
  have hboxed {want : Want} (hmem : (ins.c.toInt, want) ∈ ws) (hwant : want.isBoxed = true) : False := by
    rw [Want.scalarTag?_eq_none hwant (Want.admits_of_any (hall _ _ hmem) ht)] at htag
    cases htag
  have hscalar {kind : ScalarKind} (hmem : (ins.c.toInt, .scalar kind) ∈ ws) : t.scalar? = some kind := by
    have hadmits : (Want.scalar kind).admits t = true := Want.admits_of_any (hall _ _ hmem) ht
    exact of_decide_eq_true hadmits
  cases h with
  | @typed kind t' w hkind ht' =>
    obtain rfl : t' = t := Option.some.inj (ht'.symm.trans ht)
    have hmem := Instruction.mem_wants_of_resultKind hkind hws
    obtain rfl : tag.kind = kind :=
      Option.some.inj ((ValueType.scalar?_of_scalarTag htag).symm.trans (hscalar hmem))
    rw [ValueType.value_eq htag]
    rfl
  | immediate hop huntyped =>
    unfold Instruction.wants at hws
    rw [hop] at hws
    obtain ⟨kind, hkind, -⟩ := Option.map_eq_some_iff.1 hws
    unfold Instruction.resultKind? at huntyped
    rw [hop] at huntyped
    cases hkind.symm.trans huntyped
  | constant hop =>
    unfold Instruction.wants at hws
    rcases hop with hop | hop <;> rw [hop] at hws <;> cases hws <;> exact (hboxed (.head _) rfl).elim
  | copy hop =>
    unfold Instruction.wants at hws
    rcases hop with hop | hop <;> rw [hop] at hws <;> cases hws <;> exact (hboxed (.head _) rfl).elim
  | arith hop =>
    unfold Instruction.wants at hws
    rw [hop] at hws
    cases hws
    exact (hboxed (.head _) rfl).elim
  | string hop =>
    unfold Instruction.wants at hws
    rcases hop with hop | hop <;> rw [hop] at hws <;> cases hws <;> exact (hboxed (.head _) rfl).elim
  | @listItem kind t' _ hop ht' hitem =>
    obtain rfl : t' = t := Option.some.inj (ht'.symm.trans ht)
    unfold Instruction.wants at hws
    rw [hop] at hws
    cases hws
    rw [hitem]
    exact ValueType.listItemTag_eq htag (hscalar (.head _))
  | @tupleItem t' _ hop ht' hitem =>
    obtain rfl : t' = t := Option.some.inj (ht'.symm.trans ht)
    rw [ValueType.tag?_of_scalarTag htag] at hitem
    exact of_decide_eq_true hitem

/-- Instructions without a result. -/
theorem Instruction.not_yields {r : Routine} {ins : Instruction} {s : State} {v : Value}
    (hop : ins.opcode = .caseEntry ∨ ins.opcode = .print ∨ ins.opcode = .test .any) : ¬ins.Yields r s v := by
  intro h
  have hkind : ins.resultKind? = none := by
    unfold Instruction.resultKind?
    rcases hop with hop | hop | hop <;> rw [hop]
  cases h <;> grind

/-- A store of the right tag. -/
theorem State.CarriesTags.of_stores {r : Routine} {ins : Instruction} {s : State} {m : Exec Flow}
    (h : s.CarriesTags r) (hm : m.Stores (placeOf ins.c) (ins.Yields r s) s)
    (hyields : ∀ v t tag, ins.Yields r s v → r.types[placeOf ins.c]? = some t → t.scalarTag? = some tag →
      v.tag = tag.tag) : (stateAfter m s).CarriesTags r := by
  intro q t tag ht htag
  have hq := h q t tag ht htag
  rcases hm with hkeeps | ⟨v, hv, hset⟩
  · rwa [hkeeps]
  · rw [hset, Array.getElem?_modify]
    split
    · rename_i hc
      subst hc
      obtain ⟨w, hw, -⟩ := Option.map_eq_some_iff.1 hq
      rw [hw, Option.map_some, Option.map_some, hyields v t tag hv ht htag]
    · exact hq

/-- **Scalar registers keep their tags.** In a routine whose instructions are all eligible, but for case
entries, prints and untyped tests, every register declared as a scalar carries the tag of its type before
every instruction of an interpreted run and at its end, if it does so at the start. -/
theorem Routine.carriesTags_of_isEligible (r : Routine)
    (heligible : ∀ ins ∈ r.code, (ins.opcode = .caseEntry ∨ ins.opcode = .print ∨ ins.opcode = .test .any) ∨
      Classifier.standard.isEligible r.types ins = true) {start : State} (hstart : start.CarriesTags r) :
    (∀ {i s}, r.Reaches start i s → s.CarriesTags r) ∧
      ∀ {n o}, (Image.interpreted r).run r n start = some o → o.state.CarriesTags r := by
  refine keeps_of_step (fun {i ins s} hins hs => ?_) hstart
  refine hs.of_stores (Step.stores_step r i ins s) fun v t tag hyields ht htag => ?_
  rcases heligible ins (Array.mem_of_getElem? hins) with hop | heligible
  · exact absurd hyields (Instruction.not_yields hop)
  · exact hyields.tag_eq heligible ht htag

/-- Takes a level out of a pair until it is not below the limit, and prints it. -/
def Routine.levels : Routine where
  name := "levels"
  code := #[⟨.data, 2, 3, 0, 0⟩, ⟨.moveScalar .int, 0, 0, 1, 0⟩, ⟨.tupleGetAny, 2, 1, 1, 0⟩,
    ⟨.compareInt .lt, 1, 0, 3, 0⟩, ⟨.test .bool, 3, 6, 0, 0⟩, ⟨.goto, 0, 1, 0, 0⟩, ⟨.print, 1, 0, 0, 0⟩,
    ⟨.ret, 1, 1, 0, 0⟩]
  types := #[.int, .enum, .tuple [.bool, .enum], .bool]
  constants := #[]
  checked := by decide

/-- A routine with a loop, run from a state with its tags. -/
theorem Routine.carriesTags_levels :
    let start : State := ⟨⟨#[.ofInt 0, .ofEnum 5, .object .tuple 0, .ofBool false], .none, #[]⟩, {},
      ⟨#[some ⟨1, .tuple #[.ofBool true, .ofEnum 7]⟩]⟩, "", default⟩
    (∀ ins ∈ levels.code, (ins.opcode = .caseEntry ∨ ins.opcode = .print ∨ ins.opcode = .test .any) ∨
      Classifier.standard.isEligible levels.types ins = true) ∧ start.CarriesTags levels ∧
      ∃ o, (Image.interpreted levels).run levels 20 start = some o ∧ o.state.CarriesTags levels := by
  intro start
  have heligible : ∀ ins ∈ levels.code, (ins.opcode = .caseEntry ∨ ins.opcode = .print ∨
      ins.opcode = .test .any) ∨ Classifier.standard.isEligible levels.types ins = true := by decide
  have hstart : start.CarriesTags levels := by
    intro q t tag ht htag
    obtain ⟨hq, -⟩ := Array.getElem?_eq_some_iff.1 ht
    have hq : q < 4 := hq
    interval_cases q <;> cases ht <;> cases htag <;> rfl
  obtain ⟨o, ho⟩ : ∃ o, (Image.interpreted levels).run levels 20 start = some o :=
    Option.isSome_iff_exists.1 (by decide +kernel)
  exact ⟨heligible, hstart, o, ho, (levels.carriesTags_of_isEligible heligible hstart).2 ho⟩

end RegisterVM
