import RegisterVM.Native.Assigned
import RegisterVM.Proofs.LoweredBody

/-!
# The registers compiled code names

Compiled code names registers in its expressions and operations, for variables and for slots of the register file, and
in its transfers of control. The operations emitted for an instruction name every register the instruction uses or
defines and no others (`namesRoles_operations`), as long as its operands have the width of a register number: what
makes slots current or picks them up again is about these registers too.

So do the steps of compiled code (`Emits.mem_registers`), with two exceptions. A return is left to the interpreter. A
fused comparison does nothing by itself, and the test after it names the operands of the comparison
(`Emits.registers_of_waiting`).
-/

namespace RegisterVM

/-! ### Names in expressions, operations and steps -/

/-- The registers a place is reached through. -/
def Place.registers : Place → List Nat
  | register q | item _ q _ => [q]
  | _ => []

namespace Native

/-- The registers whose slots an expression looks at. -/
def Expr.slots : Expr → List Nat
  | compareString _ x y => [x.toNat, y.toNat]
  | charAt x _ | size _ x | element _ x _ | elementMulti _ x _ _ => [x.toNat]
  | load p => p.registers
  | _ => []

/-- The registers an expression names, for variables and for slots. -/
def Expr.registers (e : Expr) : List Nat := e.slots ++ e.operands.map UInt16.toNat

namespace Op

/-- The registers whose slots an operation accesses, apart from those of its variables. -/
def slots : Op → List Nat
  | assign _ e => e.slots
  | store p _ _ => p.registers
  | reload _ => []
  | check x _ | loadConstant x _ => [x.toNat]
  | setChar x _ _ | setElement _ x _ _ | setElementMulti _ x _ _ _ => [x.toNat]
  | move dst src _ => dst.registers ++ src.registers
  | arrayArith _ dst x y | concat dst x y => [dst.toNat, x.toNat, y.toNat]
  | assignAll x y | listGet x y _ _ | listSet x _ y => [x.toNat, y.toNat]

/-- The registers an operation names, for variables and for slots. -/
def registers (op : Op) : List Nat :=
  op.slots ++ (op.assigned?.toList ++ op.operands).map UInt16.toNat

end Op

/-- The registers a transfer of control looks at. -/
def Next.registers : Next → List Nat
  | branch (.word e) _ _ => e.registers
  | branch (.float x) _ _ | switch x _ _ => [x.toNat]
  | fall | jump _ | leave => []

/-- The registers a step of compiled code names. -/
def CodeStep.registers (st : CodeStep) : List Nat := st.ops.flatMap Op.registers ++ st.next.registers

section

variable {r : Routine} {config : Config} {plan : Plan} {i n : Nat} {ins : Instruction} {p p' : Progress}
  {ops : List Op} {x : Reg}

/-! ### Operations of one instruction -/

/-- Storing a register back names that register. -/
theorem registers_storeBack (x : Reg) (y : RegPlan) : (Site.storeBack x y).registers = [x.toNat, x.toNat] := rfl

/-- Writing a register through names that register. -/
theorem eq_of_mem_through (h : n ∈ (plan.through x).flatMap Op.registers) : n = x.toNat := by
  unfold Plan.through at h
  split at h
  · simpa [registers_storeBack] using h
  · simp at h

/-- Making its slot current names it. -/
theorem eq_of_mem_syncOps (h : n ∈ (plan.syncOps x).flatMap Op.registers) : n = x.toNat := by
  unfold Plan.syncOps at h
  split at h
  · simpa [registers_storeBack] using h
  · simpa [registers_storeBack] using h
  · simp at h

/-- Reading it again names it. -/
theorem eq_of_mem_reloadOps (h : n ∈ (plan.reloadOps x).flatMap Op.registers) : n = x.toNat := by
  unfold Plan.reloadOps at h
  split at h
  · simp at h
  · exact List.mem_singleton.1 h

/-- Operations that name the registers of an instruction and no others. -/
def NamesRoles (ins : Instruction) (ops : List Op) : Prop :=
  ∀ n, n ∈ ops.flatMap Op.registers ↔ n ∈ (ins.uses ++ ins.defs).map UInt16.toNat

namespace NamesRoles

/-- The order in which an operation names registers, and how often, does not matter. -/
theorem of_subset (xs ys : List Reg) (hops : ops.flatMap Op.registers = xs.map UInt16.toNat)
    (hroles : ins.uses ++ ins.defs = ys) (hsub : xs ⊆ ys) (hsup : ys ⊆ xs) : NamesRoles ins ops := by
  intro n
  rw [hops, hroles]
  exact ⟨fun h => List.map_subset _ hsub h, fun h => List.map_subset _ hsup h⟩

/-- The order of operations does not matter. -/
theorem perm {ops' : List Op} (h : NamesRoles ins ops) (hperm : ops'.Perm ops) : NamesRoles ins ops' := fun n =>
  (hperm.flatMap_right _).mem_iff.trans (h n)

/-- Storing registers that are used. -/
theorem sync (h : NamesRoles ins ops) (hx : x ∈ ins.uses) : NamesRoles ins (plan.syncOps x ++ ops) := by
  intro n
  rw [List.flatMap_append, List.mem_append, h n, or_iff_right_iff_imp]
  intro hn
  rw [eq_of_mem_syncOps hn]
  exact List.mem_map_of_mem (List.mem_append_left _ hx)

/-- A scalar computed from what is used, for the register that is defined. -/
theorem assign {e : Expr} (he : e.registers = ins.uses.map UInt16.toNat) (hdefs : ins.defs = [ins.rc]) :
    NamesRoles ins (.assign ins.rc e :: plan.through ins.rc) := by
  intro n
  have hthrough : n ∈ (plan.through ins.rc).flatMap Op.registers → n = ins.rc.toNat := eq_of_mem_through
  have hop : n ∈ (Op.assign ins.rc e).registers ↔ n = ins.rc.toNat ∨ n ∈ e.registers := by
    simp [Op.registers, Op.assigned?, Op.operands, Op.slots, Expr.registers, or_left_comm]
  rw [List.flatMap_cons, List.mem_append, hop, he, hdefs, List.map_append, List.mem_append, List.map_singleton,
    List.mem_singleton]
  tauto

/-- An operation on slots, after which the register it defines is picked up. -/
theorem reload {op : Op} (hop : NamesRoles ins [op]) (hdefs : ins.defs = [ins.rc]) :
    NamesRoles ins (op :: plan.reloadOps ins.rc) := by
  intro n
  rw [← List.singleton_append, List.flatMap_append, List.mem_append, hop n, or_iff_left_iff_imp]
  intro hn
  rw [eq_of_mem_reloadOps hn, hdefs]
  exact List.mem_map_of_mem (List.mem_append_right _ (List.mem_singleton_self _))

/-- An operation that names first what is defined, then what is used. -/
theorem single {op : Op} (hop : op.registers = (ins.defs ++ ins.uses).map UInt16.toNat) : NamesRoles ins [op] :=
  of_subset (ins.defs ++ ins.uses) (ins.uses ++ ins.defs) ((List.flatMap_singleton _ _).trans hop) rfl
    List.perm_append_comm.subset List.perm_append_comm.subset

end NamesRoles

/-- A condition names the registers the comparison uses. -/
theorem registers_condition (h : ins.opcode.isComparison = true) :
    (condition ins).registers = ins.uses.map UInt16.toNat := by
  obtain ⟨op, a, b, c, line⟩ := ins
  cases op with
  | compareInt | compareFloat | compareComplex | compareString => rfl
  | _ => cases h

/-- **The operations of an instruction name its registers and no others**, if it is not fused. -/
theorem namesRoles_operations (hops : Site.operations ⟨r, plan, i⟩ ins p = .ok (ops, p')) (hfused : i ∉ plan.fused)
    (huses : ins.uses.map UInt16.toNat = ins.reads) : NamesRoles ins ops := by
  by_cases hcomparison : ins.opcode.isComparison = true
  · rw [operations_of_comparison hcomparison] at hops
    obtain ⟨e, _, he, hrest⟩ := exists_of_lower_bind hops
    obtain ⟨rfl, rfl⟩ := emit_comparison he
    rw [if_neg fun hmem => hfused (List.contains_iff_mem.1 hmem)] at hrest
    obtain rfl := emit_write hrest
    refine .assign (registers_condition hcomparison) ?_
    obtain ⟨op, a, b, c, line⟩ := ins
    cases op <;> first | rfl | cases hcomparison
  obtain ⟨op, a, b, c, line⟩ := ins
  cases op with
  | nop | caseEntry =>
    cases hops
    exact fun _ => .rfl
  | data =>
    obtain ⟨kind, -, rfl⟩ := emit_data rfl hops
    exact .assign rfl rfl
  | getConst | getConstString =>
    obtain rfl := emit_reload (emit_require hops)
    exact .reload (.single rfl) rfl
  | getConstScalar =>
    obtain ⟨v, -, hops⟩ := emit_constant hops
    obtain rfl := emit_write hops
    exact .assign rfl rfl
  | move =>
    obtain rfl := emit_reload (emit_sync hops)
    exact .sync (.reload (.single rfl) rfl) (.head _)
  | moveString | concat | tupleGetAny =>
    obtain rfl := emit_reload hops
    exact .reload (.single rfl) rfl
  | convert v =>
    obtain rfl := emit_write (emit_read hops)
    cases v <;> exact .assign rfl rfl
  | moveScalar | unary | charAt | arrayGet =>
    obtain rfl := emit_write (emit_read hops)
    exact .assign rfl rfl
  | intArith | intBits | logic | floatArith | complexArith =>
    obtain rfl := emit_write (emit_read (emit_read hops))
    exact .assign rfl rfl
  | math =>
    obtain ⟨f, -, rfl⟩ := emit_math rfl hops
    exact .assign rfl rfl
  | compareInt | compareFloat | compareComplex | compareString => exact absurd rfl hcomparison
  | arith =>
    obtain rfl := emit_reload (emit_sync (emit_sync hops))
    rw [List.append_assoc]
    exact .sync (.sync (.reload (.single rfl) rfl) (.tail _ (.head _))) (.head _)
  | assignAll =>
    cases emit_sync hops
    -- The check of `b` comes before the store of `a`.
    refine .perm (.sync (x := .ofOperand a) (.of_subset [.ofOperand b, .ofOperand c, .ofOperand a]
      [.ofOperand a, .ofOperand b, .ofOperand c] rfl rfl ?_ ?_) (.head _)) List.perm_middle.symm <;> simp
  | setChar =>
    obtain rfl := emit_reload (emit_read (emit_read hops))
    refine .reload (.of_subset [.ofOperand c, .ofOperand b, .ofOperand a]
      [.ofOperand a, .ofOperand b, .ofOperand c, .ofOperand c] rfl rfl ?_ ?_) rfl <;> simp
  | size | tupleGet | getField =>
    obtain rfl := emit_write hops
    exact .assign rfl rfl
  | arraySet =>
    cases emit_read (emit_read hops)
    refine .of_subset [.ofOperand c, .ofOperand b, .ofOperand a]
      [.ofOperand a, .ofOperand b, .ofOperand c] rfl rfl ?_ ?_ <;> simp
  | arrayGetMulti =>
    obtain rfl := emit_write (emit_indices hops)
    dsimp only
    rw [indexRegisters_eq (countOf_lt_of_map (List.cons.inj huses).2)]
    exact .assign rfl rfl
  | arraySetMulti =>
    cases emit_indices (emit_read hops)
    dsimp only
    rw [indexRegisters_eq (countOf_lt_of_map (List.cons.inj (List.cons.inj huses).2).2)]
    exact .of_subset (.ofOperand c :: .ofOperand a :: registersAfter (.ofOperand c) b)
      (.ofOperand a :: .ofOperand c :: registersAfter (.ofOperand c) b) (List.append_nil _) (List.append_nil _)
      (List.Perm.swap _ _ _).subset (List.Perm.swap _ _ _).subset
  | listGet =>
    obtain rfl := emit_reload (emit_read hops)
    exact .reload (.single rfl) rfl
  | listSet kind =>
    obtain rfl := emit_listSet rfl hops
    refine .sync (.of_subset [.ofOperand c, .ofOperand a, .ofOperand b]
      [.ofOperand a, .ofOperand b, .ofOperand c] rfl rfl ?_ ?_) (.head _) <;> simp
  | tupleSetAny =>
    cases emit_sync hops
    refine .sync (.of_subset [.ofOperand a, .ofOperand c, .ofOperand a] [.ofOperand a, .ofOperand c] rfl rfl ?_ ?_)
      (.head _) <;> simp
  | tupleSet | setField =>
    obtain ⟨z, -, hops⟩ := emit_tagOf (emit_read hops)
    cases hops
    refine .of_subset [.ofOperand c, .ofOperand a] [.ofOperand a, .ofOperand c] rfl rfl ?_ ?_ <;> simp
  | getVar storage =>
    obtain rfl := emit_write (emit_require hops)
    cases storage <;> exact .assign rfl rfl
  | setVar storage =>
    obtain ⟨z, -, hops⟩ := emit_tagOf (emit_read (emit_require hops))
    cases hops
    cases storage <;> exact .single rfl
  | goto | test | switch | ret | print | callSegment => cases hops

/-! ### Steps of compiled code -/

variable {st : CodeStep}

/-- A branch names the registers of its condition, wherever it goes. -/
theorem registers_branch {S : Site} {cond : Cond} {t : Nat}
    (h : (S.target t >>= fun taken => S.target (S.index + 1) >>= fun next =>
      pure (⟨[], .branch cond next taken⟩ : CodeStep)) p = .ok (st, p')) (yes no : Target) :
    st.registers = (Next.branch cond yes no).registers := by
  cases emit_target (emit_target h)
  cases cond <;> rfl

/-- **A step names the registers of its instruction and no others**, apart from returns and fused comparisons. -/
theorem Emits.mem_registers (h : Emits r plan i ins st) (hret : ins.opcode ≠ .ret) (hfused : i ∉ plan.fused)
    (hwaits : ∀ d ∈ plan.fused, d + 1 ≠ i) (huses : ins.uses.map UInt16.toNat = ins.reads) :
    n ∈ st.registers ↔ n ∈ (ins.uses ++ ins.defs).map UInt16.toNat := by
  obtain ⟨p, p', hp, hstep⟩ := h
  rw [awaited_eq_none hwaits] at hp
  have hstraight (hops : (Site.operations ⟨r, plan, i⟩ ins >>= fun ops => pure (⟨ops, .fall⟩ : CodeStep)) p =
      .ok (st, p')) : n ∈ st.registers ↔ n ∈ (ins.uses ++ ins.defs).map UInt16.toNat := by
    obtain ⟨ops, _, hops, hpure⟩ := exists_of_lower_bind hops
    cases hpure
    rw [CodeStep.registers, Next.registers, List.append_nil]
    exact namesRoles_operations hops hfused huses n
  obtain ⟨op, a, b, c, line⟩ := ins
  cases op with
  | goto =>
    cases emit_target hstep
    exact Iff.rfl
  | test kind =>
    cases kind with
    | bool =>
      obtain ⟨e, _, htake, hrest⟩ := exists_of_lower_bind hstep
      cases htake
      rw [hp] at hrest
      rw [registers_branch (emit_read hrest) .exit .exit]
      exact Iff.rfl
    | int =>
      obtain ⟨e, _, htake, hrest⟩ := exists_of_lower_bind hstep
      cases htake
      rw [registers_branch (emit_read hrest) .exit .exit]
      exact Iff.rfl
    | float =>
      rw [registers_branch (emit_read hstep) .exit .exit]
      exact Iff.rfl
    | any => exact hstraight hstep
  | switch =>
    have hrest := emit_read hstep
    dsimp only at hrest
    split at hrest
    · cases hrest
    · obtain ⟨table, _, htable, hrest⟩ := exists_of_lower_bind hrest
      cases emit_target hrest
      exact Iff.rfl
  | ret => exact absurd rfl hret
  | _ => exact hstraight hstep

/-- A return names none. -/
theorem Emits.registers_of_ret (h : Emits r plan i ins st) (hop : ins.opcode = .ret) : st.registers = [] := by
  obtain ⟨p, p', -, hstep⟩ := h
  obtain ⟨op, a, b, c, line⟩ := ins
  cases hop
  cases hstep
  rfl

section

variable (hplan : IsPlan r config plan)

include hplan

/-- A fused comparison does nothing by itself. -/
theorem Emits.registers_of_fused (h : Emits r plan i ins st) (hi : r.code[i]? = some ins) (hfused : i ∈ plan.fused) :
    st.registers = [] := by
  obtain ⟨p, p', -, hstep⟩ := h
  obtain ⟨cmp, test, hfuses⟩ := hplan.exists_fuses hfused
  obtain rfl : cmp = ins := Option.some.inj (hfuses.compareAt.symm.trans hi)
  rw [step_of_comparison hfuses.comparison, operations_of_comparison hfuses.comparison] at hstep
  obtain ⟨ops, _, hops, hpure⟩ := exists_of_lower_bind hstep
  cases hpure
  obtain ⟨e, _, -, hrest⟩ := exists_of_lower_bind hops
  rw [if_pos (List.contains_iff_mem.2 hfused)] at hrest
  cases hrest
  rfl

/-- The test after it names the operands of the comparison. -/
theorem Emits.registers_of_waiting {d : Nat} {cmp test : Instruction} (h : Emits r plan (d + 1) test st)
    (hd : d ∈ plan.fused) (hcmp : r.code[d]? = some cmp) (htest : r.code[d + 1]? = some test) :
    st.registers = cmp.uses.map UInt16.toNat := by
  obtain ⟨p, p', hp, hstep⟩ := h
  obtain ⟨cmp', test', hfuses⟩ := hplan.exists_fuses hd
  obtain rfl : cmp' = cmp := Option.some.inj (hfuses.compareAt.symm.trans hcmp)
  obtain rfl : test' = test := Option.some.inj (hfuses.testAt.symm.trans htest)
  have hpending : p.pending = some (condition cmp') := by
    rw [hp, awaited, if_pos hd, hcmp]
    rfl
  obtain ⟨op, a, b, c, line⟩ := test'
  cases hfuses.opcode
  obtain ⟨e, _, htake, hrest⟩ := exists_of_lower_bind hstep
  cases htake
  rw [hpending] at hrest
  rw [registers_branch hrest .exit .exit]
  exact registers_condition hfuses.comparison

end

end

end Native

end RegisterVM
