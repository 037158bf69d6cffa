import RegisterVM.Proofs.EmittedRegisters
import RegisterVM.Proofs.RegisterAccesses
import RegisterVM.Proofs.SegmentRun
import RegisterVM.Proofs.StepBounds

/-!
# Operands cut to sixteen bits

Code is checked and interpreted with operands at full width, while the analyses and compiled code name registers by
sixteen bits. What an instruction accesses when it is executed are the registers of its operands at full width
(`Routine.accessesExactly`). Its roles have the same numbers exactly if no operand reaches `2 ^ 16`
(`Routine.rolesMatch_iff`); the check of the code does not ask for that.

Where it holds, everything that is made of the roles names the registers the interpreter accesses: the dataflow facts
and the check of a switch (`Routine.AnalysesMatch`), the plan of a range, and the steps of compiled code, each of which
names all registers of its instruction and no others (`Native.NamesOperands`). A fused comparison leaves its operands
to the test after it, and a return leaves everything to the interpreter.
-/

namespace RegisterVM

/-! ### Operands of sixteen bits -/

namespace Instruction

/-- The registers an instruction names at full width have numbers of sixteen bits. -/
def Narrow (ins : Instruction) : Prop := ∀ q ∈ ins.reads ++ ins.writes, q < UInt16.size

/-- The registers an instruction uses and defines have the numbers of those it names at full width. -/
def RolesMatch (ins : Instruction) : Prop :=
  ins.uses.map UInt16.toNat = ins.reads ∧ ins.defs.map UInt16.toNat = ins.writes

instance (ins : Instruction) : Decidable ins.Narrow :=
  inferInstanceAs (Decidable (∀ q ∈ ins.reads ++ ins.writes, q < UInt16.size))

instance (ins : Instruction) : Decidable ins.RolesMatch :=
  inferInstanceAs (Decidable (ins.uses.map UInt16.toNat = ins.reads ∧ ins.defs.map UInt16.toNat = ins.writes))

/-- An instruction whose roles match has operands of sixteen bits. -/
theorem RolesMatch.narrow {ins : Instruction} (h : ins.RolesMatch) : ins.Narrow := by
  unfold Narrow
  rw [← h.1, ← h.2, ← List.map_append]
  intro q hq
  obtain ⟨x, -, rfl⟩ := List.mem_map.1 hq
  exact x.toNat_lt

/-- The registers of an instruction whose roles match are those it names at full width. -/
theorem RolesMatch.mem_iff {ins : Instruction} (h : ins.RolesMatch) {q : Reg} :
    q ∈ ins.uses ∨ q ∈ ins.defs ↔ q.toNat ∈ ins.reads ++ ins.writes := by
  rw [← h.1, ← h.2, ← List.map_append, List.mem_map_of_injective (fun _ _ => UInt16.toNat_inj.1), List.mem_append]

end Instruction

/-- A span of index registers with numbers of sixteen bits ends at one. -/
theorem end_lt_of_indexPlaces {base count : Int32} (hbase : 0 ≤ base.toInt) (hlt : base.toInt < UInt16.size)
    (hspan : ∀ q ∈ indexPlaces base count, q < UInt16.size) : base.toInt + count.toInt < UInt16.size := by
  have hsize : UInt16.size = 65536 := rfl
  by_contra hge
  -- A longer span has the register with number `2 ^ 16`.
  obtain ⟨k, hk⟩ : ∃ k : Nat, base.toInt + (k + 1) = UInt16.size :=
    ⟨(UInt16.size - base.toInt - 1).toNat, by omega⟩
  have hmem : placeOf (base + Int32.ofNat (k + 1)) ∈ indexPlaces base count :=
    List.mem_map.2 ⟨k, List.mem_range.2 (by unfold countOf; omega), rfl⟩
  have hsum : (base + Int32.ofNat (k + 1)).toInt = UInt16.size := by
    rw [Int32.toInt_add, Int32.toInt_ofNat_of_lt (by omega), ← hk]
    exact Int.bmod_eq_of_le (by omega) (by omega)
  have hplace := hspan _ hmem
  rw [placeOf_of_nonneg (by omega), hsum] at hplace
  omega

namespace Routine

variable {r : Routine} {i : Nat} {ins : Instruction}

/-- **Operands of sixteen bits make the roles match.** -/
theorem rolesMatch_of_narrow (hi : r.code[i]? = some ins) (h : ins.Narrow) : ins.RolesMatch := by
  have hreg (x : Int32) (hx : r.bounds.IsRegister x.toInt) (hmem : placeOf x ∈ ins.reads ++ ins.writes) :
      x.toInt < UInt16.size := by
    have hlt := h _ hmem
    rw [placeOf_of_nonneg hx.1] at hlt
    omega
  refine ⟨Instruction.map_uses (r.inBounds hi) (fun x hx hmem => ?_) (fun base count hx hend hmem hspan => ?_),
    Instruction.map_defs (r.inBounds hi) fun x hx hmem => ?_⟩
  · exact Reg.toNat_ofOperand hx.1 (hreg x hx (List.mem_append_left _ hmem))
  · have hlt := hreg base hx (List.mem_append_left _ hmem)
    exact map_registersAfter hx.1 hlt
      (end_lt_of_indexPlaces hx.1 hlt fun q hq => h q (List.mem_append_left _ (hspan hq)))
  · exact Reg.toNat_ofOperand hx.1 (hreg x hx (List.mem_append_right _ hmem))

/-- **The roles of checked code have the right numbers exactly where operands have sixteen bits.** -/
theorem rolesMatch_iff (hi : r.code[i]? = some ins) : ins.RolesMatch ↔ ins.Narrow :=
  ⟨Instruction.RolesMatch.narrow, rolesMatch_of_narrow hi⟩

-- The index registers end at the last register of sixteen bits, and one behind it.
example : Instruction.RolesMatch ⟨.arrayGetMulti .int, 65533, 2, 0, 0⟩ ∧
    ¬Instruction.RolesMatch ⟨.arrayGetMulti .int, 65534, 2, 0, 0⟩ := by decide

/-- With no more registers than can be numbered, operands have sixteen bits. -/
theorem narrow_of_size_le (hregs : r.types.size ≤ UInt16.size) (hi : r.code[i]? = some ins) : ins.Narrow :=
  Instruction.RolesMatch.narrow ⟨map_uses hregs hi, map_defs hregs hi⟩

/-! ### What is executed -/

/-- The roles of all instructions have the numbers of the registers they name at full width. -/
def RolesMatch (r : Routine) : Prop := ∀ (i : Nat) (ins : Instruction), r.code[i]? = some ins → ins.RolesMatch

/-- The accesses to registers when instruction `ins` at `i` is executed in `s`. -/
def accesses (r : Routine) (i : Nat) (ins : Instruction) (s : State) : List Access :=
  (stateAfter (Traced.step r i ins) ⟨s, []⟩).log

/-- Executing the instruction reads the registers `R` and writes the registers `W`: no others, and all of them if it
completes. -/
structure AccessesExactly (r : Routine) (i : Nat) (ins : Instruction) (R W : List Nat) : Prop where
  /-- without its log, execution with a log is execution -/
  executes : ∀ s, mapState Logged.state (Traced.step r i ins ⟨s, []⟩) = step r i ins s
  only : ∀ s, ∀ access ∈ r.accesses i ins s, access.Among R W
  all : ∀ s flow t, step r i ins s = .ok flow t → ∀ access : Access, access.Among R W → access ∈ r.accesses i ins s
  /-- which scalars other registers hold does not matter; references are counted, so they stay the same -/
  depends : ∀ s s', s.Alike true (· ∈ R) s' →
    EndsAlike true (fun q => q ∈ R ∨ q ∈ W) (Flow.Alike true) (step r i ins s) (step r i ins s')
  keeps : ∀ s, ∀ q ∉ W, (stateAfter (step r i ins) s).frame.registers[q]? = s.frame.registers[q]?

/-- **An instruction accesses the registers of its operands at full width.** -/
theorem accessesExactly (r : Routine) (i : Nat) (ins : Instruction) :
    r.AccessesExactly i ins ins.reads ins.writes := by
  have hstep (s : State) : mapState Logged.state (Traced.step r i ins ⟨s, []⟩) = step r i ins s ∧
      (∀ access ∈ r.accesses i ins s, access.Among ins.reads ins.writes) ∧ ∀ flow t, step r i ins s = .ok flow t →
        ∀ access : Access, access.Among ins.reads ins.writes → access ∈ r.accesses i ins s := by
    obtain ⟨more, hrun, hamong, hall⟩ := Traced.Follows.step r i ins s []
    have hlog : r.accesses i ins s = more := by
      rw [accesses, stateAfter, hrun]
      cases step r i ins s <;> rfl
    refine ⟨?_, hlog ▸ hamong, hlog ▸ hall⟩
    rw [hrun]
    cases step r i ins s <;> rfl
  exact ⟨fun s => (hstep s).1, fun s => (hstep s).2.1, fun s => (hstep s).2.2,
    fun s s' h => endsAlike_step h i (fun _ hq => hq) (.inl rfl), fun s q hq => register_of_not_mem_writes hq⟩

end Routine

/-! ### Plans and compiled code -/

namespace Native

section

variable {r : Routine} {config : Config} {plan : Plan} {i : Nat} {ins : Instruction} {st : CodeStep}

/-- The step of instruction `ins` at `i` names the registers of its operands at full width. -/
structure StepNames (r : Routine) (plan : Plan) (i : Nat) (ins : Instruction) (st : CodeStep) : Prop where
  /-- a return is left to the interpreter -/
  ret : ins.opcode = .ret → st.registers = []
  /-- a fused comparison leaves its operands to the test after it -/
  compare : i ∈ plan.fused → st.registers = []
  test : ∀ d ∈ plan.fused, d + 1 = i → ∀ cmp, r.code[d]? = some cmp → st.registers = cmp.reads
  other : ins.opcode ≠ .ret → i ∉ plan.fused → (∀ d ∈ plan.fused, d + 1 ≠ i) →
    ∀ n, n ∈ st.registers ↔ n ∈ ins.reads ++ ins.writes

/-- Compiled code, and the plan it was made from, name the registers that the instructions access. -/
structure NamesOperands (r : Routine) (plan : Plan) (code : Code) : Prop where
  planned : ∀ q : Reg, (plan.register? q).isSome = true ↔
    (∃ i ∈ plan.range, ∃ ins, r.code[i]? = some ins ∧ q.toNat ∈ ins.reads ++ ins.writes) ∧
      ∃ t, r.types[q.toNat]? = some t ∧ t.scalar?.isSome = true
  entry : ∀ q ∈ code.entry, (plan.register? q).isSome = true
  flush : ∀ x ∈ code.flush, (plan.register? x.1).isSome = true
  steps : ∀ i ∈ plan.range, ∀ ins, r.code[i]? = some ins →
    ∃ st, code.step? i = some st ∧ StepNames r plan i ins st

section

variable (hplan : IsPlan r config plan) (hmatch : r.RolesMatch)

include hplan hmatch

/-- A register is planned if an instruction of the range names it and it is a scalar. -/
theorem IsPlan.isSome_register_iff {q : Reg} : (plan.register? q).isSome = true ↔
    (∃ i ∈ plan.range, ∃ ins, r.code[i]? = some ins ∧ q.toNat ∈ ins.reads ++ ins.writes) ∧
      ∃ t, r.types[q.toNat]? = some t ∧ t.scalar?.isSome = true := by
  constructor
  · intro h
    obtain ⟨x, hx⟩ := Option.isSome_iff_exists.1 h
    obtain ⟨htouched, htag, -⟩ := hplan.register?_eq_some_iff.1 hx
    obtain ⟨i, hi, ins, hins, hq⟩ := Plan.mem_touched_iff.1 htouched
    obtain ⟨t, ht, htag⟩ := Option.bind_eq_some_iff.1 htag
    refine ⟨⟨i, hi, ins, hins, (hmatch i ins hins).mem_iff.1 hq⟩, t, ht, ?_⟩
    rw [ValueType.scalar?_of_scalarTag htag]
    rfl
  · rintro ⟨⟨i, hi, ins, hins, hq⟩, t, ht, hscalar⟩
    obtain ⟨kind, hkind⟩ := Option.isSome_iff_exists.1 hscalar
    obtain ⟨x, hx, -⟩ := hplan.exists_register hins hi ((hmatch i ins hins).mem_iff.2 hq) ht hkind
    rw [hx]
    rfl

/-- What is emitted for an instruction names the registers of its operands. -/
theorem Emits.stepNames (h : Emits r plan i ins st) (hi : r.code[i]? = some ins) : StepNames r plan i ins st where
  ret := h.registers_of_ret
  compare := h.registers_of_fused hplan hi
  test := by
    rintro d hd rfl cmp hcmp
    rw [h.registers_of_waiting hplan hd hcmp hi, (hmatch d cmp hcmp).1]
  other hret hfused hwaits n := by
    rw [h.mem_registers hret hfused hwaits (hmatch i ins hi).1, List.map_append, (hmatch i ins hi).1,
      (hmatch i ins hi).2]

/-- **Compiled code names what the instructions access**, where the roles match. -/
theorem namesOperands {code : Code} (h : plan.lower r = .ok code) : NamesOperands r plan code := by
  have hlowered := lowered_of_lower hplan h
  refine ⟨fun q => hplan.isSome_register_iff hmatch, fun q hq => ?_, fun x hx => ?_, fun i hi ins hins => ?_⟩
  · rw [hlowered.entry] at hq
    obtain ⟨tag, defined, flush, hq⟩ := (mem_entryRegisters hplan).1 hq
    rw [hq]
    rfl
  · rw [hlowered.flush] at hx
    obtain ⟨defined, hx⟩ := (mem_flushedRegisters hplan).1 hx
    rw [hx]
    rfl
  · obtain ⟨st, hst, hemits⟩ := hlowered.steps i hi ins hins
    exact ⟨st, hst, hemits.stepNames hplan hmatch hins⟩

end

end

end Native

/-! ### Everything made of the roles -/

namespace Segment

/-- **What the finder asks of a switch**: of the register it reads, an integral type. -/
theorem offenderAt_eq_none_iff {r : Routine} {run : IndexRange} {i : Nat} {sw : Instruction}
    (hi : r.code[i]? = some sw) (hop : sw.opcode = .switch) (hmatch : sw.RolesMatch) :
    offenderAt r.code r.types run i = none ↔ i + sw.caseCount ≤ run.last ∧
      (∃ q ∈ sw.reads, (r.types[q]?).any ValueType.isIntegral = true) ∧
        ∀ t ∈ branchTargets r.code i, targetAllowed r.code run t = true := by
  have hreads : sw.reads = [sw.ra.toNat] := by
    rw [← hmatch.1, Instruction.uses, hop]
    rfl
  simp only [offenderAt, hi, hop, Opcode.isJump, reduceCtorEq, if_false, if_true, Bool.false_eq_true,
    ite_eq_left_iff, imp_false, not_not, Bool.and_eq_true, decide_eq_true_eq, List.all_eq_true, hreads,
    List.mem_singleton, exists_eq_left, and_assoc]

end Segment

namespace Routine

variable {r : Routine}

/-- The dataflow facts and the check of a switch are about the registers that the instructions access. -/
structure AnalysesMatch (r : Routine) : Prop where
  uses : ∀ (i : Nat) (ins : Instruction), r.code[i]? = some ins →
    ((Dataflow.ofCode r.code r.types.size).graph.usesAt i).map UInt16.toNat = ins.reads
  defs : ∀ (i : Nat) (ins : Instruction), r.code[i]? = some ins →
    ((Dataflow.ofCode r.code r.types.size).graph.defsAt i).map UInt16.toNat = ins.writes
  switch : ∀ (run : IndexRange) (i : Nat) (sw : Instruction), r.code[i]? = some sw → sw.opcode = .switch →
    (Segment.offenderAt r.code r.types run i = none ↔ i + sw.caseCount ≤ run.last ∧
      (∃ q ∈ sw.reads, (r.types[q]?).any ValueType.isIntegral = true) ∧
        ∀ t ∈ branchTargets r.code i, Segment.targetAllowed r.code run t = true)

/-- **The analyses are about the registers that are accessed**, if roles match. -/
theorem analysesMatch (h : r.RolesMatch) : r.AnalysesMatch where
  uses i ins hi := (congrArg _ (FlowGraph.usesAt_ofCode hi)).trans (h i ins hi).1
  defs i ins hi := (congrArg _ (FlowGraph.defsAt_ofCode hi)).trans (h i ins hi).2
  switch _ i sw hi hop := Segment.offenderAt_eq_none_iff hi hop (h i sw hi)

/-- **Registers are named as they are accessed, where operands have sixteen bits.** A step accesses the registers of
its operands at full width, and the roles have their numbers exactly if these have sixteen bits, as they have if there
are no more than `2 ^ 16` registers. If all operands of a routine have sixteen bits, what a step accesses are its roles,
and the analyses, the plan of every range and its compiled code name these registers. -/
theorem roles_name_accessed_registers (r : Routine) :
    (∀ (i : Nat) (ins : Instruction), r.code[i]? = some ins →
      r.AccessesExactly i ins ins.reads ins.writes ∧ (ins.RolesMatch ↔ ins.Narrow)) ∧
    (r.types.size ≤ UInt16.size → ∀ (i : Nat) (ins : Instruction), r.code[i]? = some ins → ins.Narrow) ∧
    ((∀ (i : Nat) (ins : Instruction), r.code[i]? = some ins → ins.Narrow) →
      (∀ (i : Nat) (ins : Instruction), r.code[i]? = some ins →
        r.AccessesExactly i ins (ins.uses.map UInt16.toNat) (ins.defs.map UInt16.toNat)) ∧
      r.AnalysesMatch ∧
      ∀ (config : Native.Config) (range : IndexRange) (plan : Native.Plan) (code : Native.Code),
        Native.Plan.build r.code r.types (.ofCode r.code r.types.size) range config = .ok plan →
          plan.lower r = .ok code → Native.NamesOperands r plan code) := by
  refine ⟨fun i ins hi => ⟨r.accessesExactly i ins, rolesMatch_iff hi⟩, fun hregs i ins => narrow_of_size_le hregs,
    fun hnarrow => ?_⟩
  have hmatch : r.RolesMatch := fun i ins hi => rolesMatch_of_narrow hi (hnarrow i ins hi)
  refine ⟨fun i ins hi => ?_, analysesMatch hmatch, fun config range plan code hbuild hlower => ?_⟩
  · rw [(hmatch i ins hi).1, (hmatch i ins hi).2]
    exact r.accessesExactly i ins
  · obtain ⟨-, hplan⟩ := Native.Plan.isPlan_of_build hbuild
    exact Native.namesOperands hplan hmatch hlower

/-- Takes an element of a matrix, caps it and dispatches on it. -/
def caps : Routine where
  name := "caps"
  code := #[⟨.arrayGetMulti .int, 0, 2, 3, 0⟩, ⟨.compareInt .lt, 3, 1, 4, 0⟩, ⟨.test .bool, 4, 4, 0, 0⟩,
    ⟨.moveScalar .int, 1, 0, 3, 0⟩, ⟨.switch, 3, 6, 1, 0⟩, ⟨.caseEntry, 0, 6, 0, 0⟩, ⟨.ret, 3, 1, 0, 0⟩]
  types := #[.array .int, .int, .int, .int, .bool]
  constants := #[.ofInt 1]
  checked := by decide

/-- The index registers 1 and 2 are among what the first instruction reads, and the comparison is fused. -/
theorem roles_name_accessed_registers_caps :
    let access : Instruction := ⟨.arrayGetMulti .int, 0, 2, 3, 0⟩
    caps.code[0]? = some access ∧ caps.AccessesExactly 0 access [0, 1, 2] [3] ∧ caps.types.size ≤ UInt16.size ∧
      caps.AnalysesMatch ∧ ∃ plan code,
        Native.Plan.build caps.code caps.types (.ofCode caps.code caps.types.size) ⟨0, 6⟩ {} = .ok plan ∧
          plan.lower caps = .ok code ∧ 1 ∈ plan.fused ∧ Native.NamesOperands caps plan code := by
  intro access
  have hregs : caps.types.size ≤ UInt16.size := by decide
  obtain ⟨plan, hbuild, hlowers, hfused⟩ : ∃ plan,
      Native.Plan.build caps.code caps.types (.ofCode caps.code caps.types.size) ⟨0, 6⟩ {} = .ok plan ∧
        (plan.lower caps).toOption.isSome = true ∧ 1 ∈ plan.fused := ⟨_, rfl, by decide +kernel, by decide +kernel⟩
  obtain ⟨code, hlower⟩ : ∃ code, plan.lower caps = .ok code := by
    cases h : plan.lower caps with
    | ok code => exact ⟨code, rfl⟩
    | error e =>
      rw [h] at hlowers
      cases hlowers
  obtain ⟨hsteps, hnarrow, hnamed⟩ := roles_name_accessed_registers caps
  obtain ⟨-, hanalyses, hcompiled⟩ := hnamed (hnarrow hregs)
  exact ⟨rfl, (hsteps 0 access rfl).1, hregs, hanalyses, plan, code, hbuild, hlower, hfused,
    hcompiled {} _ plan code hbuild hlower⟩

/-- A routine with one register more than sixteen bits can name. -/
def wide : Routine where
  name := "wide"
  code := #[⟨.moveScalar .int, 65536, 0, 1, 0⟩, ⟨.ret, 1, 1, 0, 0⟩]
  types := Array.replicate 65537 .int
  constants := #[]
  checked := by
    rw [Array.size_replicate]
    decide

/-- **The roles are not what is accessed** without a bound on the number of registers: the move reads register 65536
and is said to use register 0. -/
theorem wide_uses_another_register :
    let move : Instruction := ⟨.moveScalar .int, 65536, 0, 1, 0⟩
    let start : State := ⟨⟨Array.replicate 65537 .none, .none, #[]⟩, {}, default, "", default⟩
    wide.code[0]? = some move ∧ move.uses.map UInt16.toNat = [0] ∧
      .read 65536 ∈ wide.accesses 0 move start ∧ .read 0 ∉ wide.accesses 0 move start ∧
        ¬wide.AccessesExactly 0 move (move.uses.map UInt16.toNat) (move.defs.map UInt16.toNat) := by
  intro move start
  have hexact := wide.accessesExactly 0 move
  have hregister {i : Nat} (hi : i < 65537) : Exec.register i start = .ok .none start := by
    have hvalue : start.frame.registers[i]? = some .none := Array.getElem?_replicate.trans (if_pos hi)
    rw [Exec.register_eq, hvalue]
  have htype : Step.typeOf wide move.c start = .ok .int start := by
    have hc : wide.types[placeOf move.c]? = some .int :=
      Array.getElem?_replicate.trans (if_pos (by decide))
    rw [Step.typeOf, hc]
    rfl
  obtain ⟨t, hset⟩ : ∃ t, Exec.put (.register (placeOf move.c)) (.ofInt 0) start = .ok () t :=
    ⟨_, bind_of_ok (hregister (by decide))⟩
  have hwords : Step.words move.a start = .ok ⟨0, 0⟩ start := bind_of_ok (hregister (by decide))
  have heffect : Step.effect wide move start = .ok () t :=
    (bind_of_ok hwords).trans ((bind_of_ok htype).trans hset)
  have hok : step wide 0 move start = .ok .next t := bind_of_ok heffect
  have hread : .read 65536 ∈ wide.accesses 0 move start :=
    hexact.all start .next t hok (.read 65536) (List.mem_singleton_self _)
  have hother : .read 0 ∉ wide.accesses 0 move start := fun hmem =>
    absurd (hexact.only start (.read 0) hmem) (by decide)
  have huses : move.uses.map UInt16.toNat = [0] := by decide
  refine ⟨rfl, huses, hread, hother, fun hroles => ?_⟩
  rw [huses] at hroles
  exact hother (hroles.all start .next t hok (.read 0) (List.mem_singleton_self 0))

end Routine

end RegisterVM
