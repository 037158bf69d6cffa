import RegisterVM.Proofs.ArrayData
import RegisterVM.Proofs.Placement
import RegisterVM.Proofs.StepSafety

/-!
# Compiled code does not fault

Compiled code names registers by sixteen bits. An operand cut to sixteen bits does not grow, so a register
that was in bounds still is, though it may be another one (`Routine.reg_lt`). The operations emitted for an
instruction reach the registers of its operands and the scalar registers of the plan, nothing else
(`Emitted`), so they are as safe as the instruction.

Together with the safety of the instructions themselves: no run of a routine leaves its registers,
constants, code or case tables, compiled or not.
-/

namespace RegisterVM

/-- **A register operand in bounds is in bounds after the cut.** -/
theorem Routine.reg_lt {r : Routine} {x : Int32} (hx : r.bounds.IsRegister x.toInt) :
    (Reg.ofOperand x).toNat < r.types.size := by
  have hcut : (Reg.ofOperand x).toNat = x.toUInt32.toNat % UInt16.size := UInt32.toNat_toUInt16 _
  have hword : x.toUInt32.toNat = x.toInt.toNat := (toNat_toInt_of_nonneg (x := x.toBitVec) hx.1).symm
  have hplace := placeOf_lt hx
  rw [placeOf_of_nonneg hx.1, ← hword] at hplace
  rw [hcut]
  exact (Nat.mod_le _ _).trans_lt hplace

namespace Native

/-! ### Operations in reach -/

/-- The registers an expression reaches are among the first `n`. -/
def Expr.InReach (n : Nat) : Expr → Prop
  | compareString _ x y => x.toNat < n ∧ y.toNat < n
  | charAt x _ | size _ x | element _ x _ | elementMulti _ x _ _ => x.toNat < n
  | load p => p.InReach n
  | _ => True

/-- **The operations emitted for an instruction**, as far as they reach registers. -/
inductive Emitted (r : Routine) (plan : Plan) (ins : Instruction) : Op → Prop
  | assign {e : Expr} (reach : e.InReach r.types.size) : Emitted r plan ins (.assign ins.rc e)
  | storeBack {q : Reg} {x : RegPlan} (planned : plan.register? q = some x) :
    Emitted r plan ins (Site.storeBack q x)
  | reload {q : Reg} {x : RegPlan} (planned : plan.register? q = some x) : Emitted r plan ins (.reload q)
  | store {p : Place} {x : Reg} {tag : ScalarTag} (other : ∀ i, p ≠ .register i)
      (reach : p.InReach r.types.size) : Emitted r plan ins (.store p x tag)
  | check {q : Reg} {expected : Option Tag} (reach : q.toNat < r.types.size) :
    Emitted r plan ins (.check q expected)
  | loadConstant (opcode : ins.opcode = .getConst ∨ ins.opcode = .getConstString) :
    Emitted r plan ins (.loadConstant ins.rc (placeOf ins.b))
  | move (opcode : ins.opcode = .move ∨ ins.opcode = .moveString) :
    Emitted r plan ins (.move (.register ins.rc.toNat) (.register ins.ra.toNat) none)
  | arith {op : ArithOp} (opcode : ins.opcode = .arith op) :
    Emitted r plan ins (.arrayArith op ins.rc ins.ra ins.rb)
  | assignAll (opcode : ins.opcode = .assignAll) : Emitted r plan ins (.assignAll ins.rc ins.ra)
  | concat (opcode : ins.opcode = .concat) : Emitted r plan ins (.concat ins.rc ins.ra ins.rb)
  | setChar {x y : Reg} (opcode : ins.opcode = .setChar) : Emitted r plan ins (.setChar ins.rc x y)
  | setElement {kind : ElementKind} {x y : Reg} (opcode : ins.opcode = .arraySet kind) :
    Emitted r plan ins (.setElement kind ins.rc x y)
  | setElementMulti {kind : ElementKind} {count : Int} {is : List Reg} {x : Reg}
      (opcode : ins.opcode = .arraySetMulti kind) :
    Emitted r plan ins (.setElementMulti kind ins.rc count is x)
  | listGet {kind : ElementKind} {x : Reg} (opcode : ins.opcode = .listGet kind) :
    Emitted r plan ins (.listGet ins.rc ins.ra x ((r.types.getD ins.rc.toNat .any).listItemTag kind))
  | listSet {kind : ElementKind} {x : Reg} (opcode : ins.opcode = .listSet kind) :
    Emitted r plan ins (.listSet ins.rc x ins.ra)
  | tupleGetAny (opcode : ins.opcode = .tupleGetAny) :
    Emitted r plan ins (.move (.register ins.rc.toNat) (.item .tuple ins.ra.toNat (placeOf ins.b))
      (r.types.getD ins.rc.toNat .any).tag?)
  | tupleSetAny (opcode : ins.opcode = .tupleSetAny) :
    Emitted r plan ins (.move (.item .tuple ins.rc.toNat (placeOf ins.b)) (.register ins.ra.toNat) none)

section

variable {r : Routine} {config : Config} {plan : Plan} {i : Nat} {ins : Instruction} {p p' : Progress}
  {ops : List Op} {q : Reg}

/-- Writing a register through. -/
theorem emitted_through : ∀ op ∈ plan.through q, Emitted r plan ins op := by
  unfold Plan.through
  split
  · rename_i hq
    exact fun op hop => List.mem_singleton.1 hop ▸ .storeBack hq
  · exact List.forall_mem_nil _

/-- Making a slot current. -/
theorem emitted_syncOps : ∀ op ∈ plan.syncOps q, Emitted r plan ins op := by
  unfold Plan.syncOps
  split
  · rename_i hq
    exact fun op hop => List.mem_singleton.1 hop ▸ .storeBack hq
  · rename_i hq
    exact fun op hop => List.mem_singleton.1 hop ▸ .storeBack hq
  · exact List.forall_mem_nil _

/-- Reading a register again from its slot. -/
theorem emitted_reloadOps : ∀ op ∈ plan.reloadOps q, Emitted r plan ins op := by
  unfold Plan.reloadOps
  split
  · exact List.forall_mem_nil _
  · rename_i hq
    exact fun op hop => List.mem_singleton.1 hop ▸ .reload hq

/-- Assigning a variable, and writing it through. -/
theorem emitted_assign {e : Expr} (he : e.InReach r.types.size) :
    ∀ op ∈ .assign ins.rc e :: plan.through ins.rc, Emitted r plan ins op :=
  List.forall_mem_cons.2 ⟨.assign he, emitted_through⟩

/-- An operation on a slot, and reading it again. -/
theorem emitted_reloading {op : Op} (hop : Emitted r plan ins op) :
    ∀ op' ∈ op :: plan.reloadOps ins.rc, Emitted r plan ins op' :=
  List.forall_mem_cons.2 ⟨hop, emitted_reloadOps⟩

/-- The condition of a comparison reaches its operands. -/
theorem inReach_condition (hi : r.code[i]? = some ins) : (condition ins).InReach r.types.size := by
  have hbounds := r.inBounds hi
  obtain ⟨op, a, b, c, line⟩ := ins
  cases op with
  | compareString rel => exact ⟨Routine.reg_lt hbounds.1, Routine.reg_lt hbounds.2.1⟩
  | _ => trivial

/-- **Lowering emits nothing else.** -/
theorem emitted_of_operations (hi : r.code[i]? = some ins)
    (hops : Site.operations ⟨r, plan, i⟩ ins p = .ok (ops, p')) : ∀ op ∈ ops, Emitted r plan ins op := by
  have hbounds := r.inBounds hi
  have hcondition := inReach_condition hi
  by_cases hcomparison : ins.opcode.isComparison = true
  · rw [operations_of_comparison hcomparison] at hops
    obtain ⟨e, _, he, hrest⟩ := exists_of_lower_bind hops
    obtain ⟨rfl, rfl⟩ := emit_comparison he
    split at hrest
    · cases hrest
      exact List.forall_mem_nil _
    · obtain rfl := emit_write hrest
      exact emitted_assign hcondition
  obtain ⟨op, a, b, c, line⟩ := ins
  cases op with
  | nop | caseEntry =>
    cases hops
    exact List.forall_mem_nil _
  | data =>
    obtain ⟨kind, -, rfl⟩ := emit_data rfl hops
    exact emitted_assign trivial
  | getConst =>
    obtain rfl := emit_reload (emit_require hops)
    exact emitted_reloading (.loadConstant (.inl rfl))
  | getConstString =>
    obtain rfl := emit_reload (emit_require hops)
    exact emitted_reloading (.loadConstant (.inr rfl))
  | getConstScalar kind =>
    obtain ⟨v, -, hops⟩ := emit_constant hops
    obtain rfl := emit_write hops
    exact emitted_assign trivial
  | move =>
    obtain rfl := emit_reload (emit_sync hops)
    exact List.forall_mem_append.2 ⟨emitted_syncOps, emitted_reloading (.move (.inl rfl))⟩
  | moveString =>
    obtain rfl := emit_reload hops
    exact emitted_reloading (.move (.inr rfl))
  | moveScalar | unary =>
    obtain rfl := emit_write (emit_read hops)
    exact emitted_assign trivial
  | convert v =>
    obtain rfl := emit_write (emit_read hops)
    cases v <;> exact emitted_assign trivial
  | intArith | intBits | logic | floatArith | complexArith =>
    obtain rfl := emit_write (emit_read (emit_read hops))
    exact emitted_assign trivial
  | math =>
    obtain ⟨f, -, rfl⟩ := emit_math rfl hops
    exact emitted_assign trivial
  | compareInt | compareFloat | compareComplex | compareString => exact absurd rfl hcomparison
  | arith op =>
    obtain rfl := emit_reload (emit_sync (emit_sync hops))
    refine List.forall_mem_append.2 ⟨List.forall_mem_append.2 ⟨emitted_syncOps, emitted_syncOps⟩, ?_⟩
    exact emitted_reloading (.arith rfl)
  | assignAll =>
    cases emit_sync hops
    refine List.forall_mem_cons.2 ⟨.check (Routine.reg_lt hbounds.2.1), ?_⟩
    exact List.forall_mem_append.2 ⟨emitted_syncOps, List.forall_mem_singleton.2 (.assignAll rfl)⟩
  | concat =>
    obtain rfl := emit_reload hops
    exact emitted_reloading (.concat rfl)
  | charAt =>
    obtain rfl := emit_write (emit_read hops)
    exact emitted_assign (Routine.reg_lt hbounds.1)
  | setChar =>
    obtain rfl := emit_reload (emit_read (emit_read hops))
    exact emitted_reloading (.setChar rfl)
  | size of =>
    obtain rfl := emit_write hops
    exact emitted_assign (Routine.reg_lt hbounds.1)
  | arrayGet kind =>
    obtain rfl := emit_write (emit_read hops)
    exact emitted_assign (Routine.reg_lt hbounds.1)
  | arraySet kind =>
    cases emit_read (emit_read hops)
    exact List.forall_mem_singleton.2 (.setElement rfl)
  | arrayGetMulti kind =>
    obtain rfl := emit_write (emit_indices hops)
    exact emitted_assign (Routine.reg_lt hbounds.1)
  | arraySetMulti kind =>
    cases emit_indices (emit_read hops)
    exact List.forall_mem_singleton.2 (.setElementMulti rfl)
  | listGet kind =>
    obtain rfl := emit_reload (emit_read hops)
    exact emitted_reloading (.listGet rfl)
  | listSet kind =>
    obtain rfl := emit_listSet rfl hops
    exact List.forall_mem_append.2 ⟨emitted_syncOps, List.forall_mem_singleton.2 (.listSet rfl)⟩
  | tupleGetAny =>
    obtain rfl := emit_reload hops
    exact emitted_reloading (.tupleGetAny rfl)
  | tupleSetAny =>
    cases emit_sync hops
    refine List.forall_mem_append.2 ⟨emitted_syncOps, ?_⟩
    exact List.forall_mem_cons.2 ⟨.check (Routine.reg_lt hbounds.1), List.forall_mem_singleton.2 (.tupleSetAny rfl)⟩
  | tupleGet kind | getField kind =>
    obtain rfl := emit_write hops
    exact emitted_assign (Place.inReach_item (Routine.reg_lt hbounds.1) _ _)
  | tupleSet kind | setField kind =>
    obtain ⟨z, -, hops⟩ := emit_tagOf (emit_read hops)
    cases hops
    exact List.forall_mem_singleton.2 (.store nofun (Place.inReach_item (Routine.reg_lt hbounds.2) _ _))
  | getVar storage kind =>
    obtain rfl := emit_write (emit_require hops)
    exact emitted_assign (Place.inReach_variable _ storage _ _)
  | setVar storage kind =>
    obtain ⟨z, -, hops⟩ := emit_tagOf (emit_read (emit_require hops))
    cases hops
    refine List.forall_mem_singleton.2 (.store ?_ (Instruction.inReach_targetVariable _ _ storage))
    cases storage <;> exact nofun
  | goto | test | switch | ret | print | callSegment => cases hops

end

/-! ### What compiled code keeps -/

section

variable {I : State → Prop} {F : Failure → Prop}

/-- Reading a variable does not fail. -/
theorem within_var (x : Reg) : Within (fun a : Activation => I a.state) F (var x) := .bind .get fun _ => .pure _

/-- Neither does assigning one. -/
theorem within_setVar (x : Reg) (w : Words) : Within (fun a : Activation => I a.state) F (setVar x w) :=
  .modify fun _ ha => ha

/-- **Evaluation keeps what reading, sound operations on the heap and drawing numbers keep.** -/
theorem within_eval {n : Nat} (hcode : ∀ e, F (.code e)) (hread : ∀ {p : Place}, p.InReach n → Within I F (Exec.read p))
    (hheap : ∀ {α : Type} {m : HeapM α}, (∀ {h}, Keeps (Heap.SoundAfter h) m) → Within I F (Exec.onHeap m))
    (hmath : ∀ f x, Within I F (Step.applyMath f x)) {e : Expr} (he : e.InReach n) :
    Within (fun a : Activation => I a.state) F (eval e) := by
  have hbinary (x y : Reg) (f : Words → Words → Words) :
      Within (fun a : Activation => I a.state) F (var x >>= fun w => var y >>= fun z => pure (f w z)) :=
    .bind (within_var x) fun _ => .bind (within_var y) fun _ => .pure _
  have hslot {x : Reg} (hx : x.toNat < n) : Within (fun a : Activation => I a.state) F (slot x) :=
    within_onState (hread (Place.inReach_register hx))
  cases e with
  | const w => exact .pure _
  | var x => exact within_var x
  | unary op x => exact .bind (within_var x) fun _ => .pure _
  | convert v x => exact .bind (within_var x) fun _ => .pure _
  | intArith op x y =>
    exact .bind (within_var x) fun w => .bind (within_var y) fun z =>
      .bind (within_onState (Exec.within_ofExcept hcode _)) fun _ => .pure _
  | intBits op x y => exact hbinary x y _
  | logic op x y => exact hbinary x y _
  | floatArith op x y => exact hbinary x y _
  | math f x => exact .bind (within_var x) fun w => .bind (within_onState (hmath f w.lo)) fun _ => .pure _
  | complexArith op x y => exact hbinary x y _
  | compareInt rel x y => exact hbinary x y _
  | compareFloat rel x y => exact hbinary x y _
  | compareComplex rel x y => exact hbinary x y _
  | compareString rel x y =>
    exact .bind (hslot he.1) fun _ => .bind (hslot he.2) fun _ => .bind .get fun _ => .pure _
  | charAt x i =>
    exact .bind (hslot he) fun v => .bind (within_var i) fun w =>
      .bind (within_onState (hheap (charAt_eq v w.int ▸ (Heap.looks_charAt _ _).keeps))) fun _ => .pure _
  | size of x =>
    exact .bind (hslot he) fun _ => .bind (within_onState (Exec.within_checkTag hcode _ _)) fun _ =>
      .bind (within_onState (hheap (Heap.looks_size _).keeps)) fun _ => .pure _
  | element kind x i =>
    exact .bind (within_var i) fun _ => .bind (hslot he) fun _ =>
      within_onState (hheap (Heap.keeps_soundAfter_wordsBy _ _ _))
  | elementMulti kind x count is =>
    exact .bind (.mapM fun y _ => within_var y) fun _ => .bind (hslot he) fun _ =>
      within_onState (hheap (Heap.keeps_soundAfter_wordsBy _ _ _))
  | load p => exact .bind (within_onState (hread he)) fun _ => .pure _

/-- What waits for an instruction is the condition of the one before it. -/
theorem inReach_awaited {r : Routine} {plan : Plan} {i : Nat} {e : Expr} (h : awaited r plan i = some e) :
    e.InReach r.types.size := by
  cases i with
  | zero => cases h
  | succ d =>
    obtain ⟨-, h⟩ := Option.ite_none_right_eq_some.1 h
    obtain ⟨cmp, hcmp, rfl⟩ := Option.map_eq_some_iff.1 h
    exact inReach_condition hcmp

/-- **Compiled steps keep what the emitted operations and evaluation keep.** -/
theorem StepForm.within {r : Routine} {plan : Plan} {i : Nat} {ins : Instruction} {st : CodeStep}
    (h : StepForm r plan i ins st) (hi : r.code[i]? = some ins)
    (hop : ∀ {op}, Emitted r plan ins op → Within (fun a : Activation => I a.state) F (op.perform r.constants))
    (heval : ∀ {e : Expr}, e.InReach r.types.size → Within (fun a : Activation => I a.state) F (eval e)) :
    (∀ op ∈ st.ops, Within (fun a : Activation => I a.state) F (op.perform r.constants)) ∧
      Within (fun a : Activation => I a.state) F (st.next.resolve i) := by
  have hbranch (cond : Cond) (hcond : Within (fun a : Activation => I a.state) F cond.holds) (yes no : Target) :
      Within (fun a : Activation => I a.state) F ((Next.branch cond yes no).resolve i) :=
    .bind hcond fun holds => by cases holds <;> exact .pure _
  cases h with
  | straight emitted => exact ⟨fun op hmem => hop (emitted_of_operations hi emitted op hmem), .pure _⟩
  | jump => exact ⟨List.forall_mem_nil _, .pure _⟩
  | test => exact ⟨List.forall_mem_nil _, hbranch (.word (.var _)) (.bind (within_var _) fun _ => .pure _) _ _⟩
  | testFloat => exact ⟨List.forall_mem_nil _, hbranch (.float _) (.bind (within_var _) fun _ => .pure _) _ _⟩
  | fused waits =>
    exact ⟨List.forall_mem_nil _, hbranch (.word _) (.bind (heval (inReach_awaited waits)) fun _ => .pure _) _ _⟩
  | switch => exact ⟨List.forall_mem_nil _, .bind (within_var _) fun _ => .pure _⟩
  | leave => exact ⟨List.forall_mem_nil _, .pure _⟩

end

/-! ### Safe operations -/

section

variable {r : Routine} {config : Config} {plan : Plan} {ins : Instruction} {i : Nat} {q : Reg}

/-- The registers of a plan are declared. -/
theorem IsPlan.lt_size (h : IsPlan r config plan) {x : RegPlan} (hq : plan.register? q = some x) :
    q.toNat < r.types.size := by
  obtain ⟨-, htag, -⟩ := h.register?_eq_some_iff.1 hq
  obtain ⟨t, ht, -⟩ := Option.bind_eq_some_iff.1 htag
  exact (Array.getElem?_eq_some_iff.1 ht).1

end

end Native

/-! ### Runs -/

end RegisterVM
