import RegisterVM.Proofs.DeadRegisters
import RegisterVM.Proofs.DirectDefinitions
import RegisterVM.Proofs.RegisterEffects

/-!
# Roles and edges bound what is executed

The analyses read an instruction through its layout and a switch through its case entries; the interpreter
executes it through tables of its own. Both agree: whatever an instruction yields goes into a register that
its layout makes a definition (`Instruction.Yields.writes_eq`), so a step leaves every other register alone,
even if it fails, and it goes on along an edge.

A run is then a path. It passes instructions along edges (`Routine.Passes.isPath`), and a register that none of
them defines holds at its end what it held at its start (`Routine.Passes.register_eq`). So a use of a register
that is carried directly finds the value the register got at the last visit to its definition
(`Routine.Passes.carried`).
-/

namespace RegisterVM

/-! ### One step -/

/-- A typed result goes into a register that is written. -/
theorem Instruction.writes_of_resultKind {ins : Instruction} {kind : ScalarKind}
    (h : ins.resultKind? = some kind) : ins.writes = [placeOf ins.c] := by
  obtain ⟨op, a, b, c, line⟩ := ins
  cases op with
  | data | math | size | getConstScalar | moveScalar | tupleGet | getVar | getField | convert | unary | intArith
  | intBits | charAt | logic | compareInt | compareFloat | compareComplex | compareString | floatArith
  | complexArith | arrayGet | arrayGetMulti => rfl
  | _ => cases h

/-- **What an instruction yields goes into a register that is written.** -/
theorem Instruction.Yields.writes_eq {r : Routine} {ins : Instruction} {s : State} {v : Value}
    (h : ins.Yields r s v) : ins.writes = [placeOf ins.c] := by
  have hlayout {op : Opcode} (hop : ins.opcode = op) : ins.writes = { ins with opcode := op }.writes := by
    rw [← hop]
  cases h with
  | typed _ hkind => exact writes_of_resultKind hkind
  | immediate hop | arith hop | listItem hop | tupleItem hop => exact hlayout hop
  | constant hop | copy hop | string hop => rcases hop with hop | hop <;> exact hlayout hop

namespace Routine

variable {r : Routine} {i j : Nat} {ins : Instruction} {s t : State}

/-- A register that an instruction does not write stays as it is. -/
theorem register_of_not_mem_writes {q : Nat} (hq : q ∉ ins.writes) :
    (stateAfter (step r i ins) s).frame.registers[q]? = s.frame.registers[q]? := by
  rcases Step.stores_step r i ins s with hkept | ⟨v, hv, hmodify⟩
  · rw [hkept]
  · rw [hv.writes_eq, List.mem_singleton] at hq
    rw [hmodify, Array.getElem?_modify, if_neg (Ne.symm hq)]

/-- An instruction writes no register but those it defines. -/
theorem not_mem_writes (hregs : r.types.size ≤ UInt16.size) (hi : r.code[i]? = some ins) {q : Nat}
    (hq : ∀ d ∈ ins.defs, d.toNat ≠ q) : q ∉ ins.writes := by
  rw [← map_defs hregs hi, List.mem_map]
  rintro ⟨d, hd, rfl⟩
  exact hq d hd rfl

/-- **Roles and edges bound every step.** Whether or not it fails, a step leaves a register that is no
definition of its instruction with the value it had. If it goes on inside the code, then to a successor. -/
theorem step_bounded (r : Routine) (hregs : r.types.size ≤ UInt16.size) {i : Nat} {ins : Instruction}
    (hi : r.code[i]? = some ins) (s : State) :
    (∀ q, (∀ d ∈ ins.defs, d.toNat ≠ q) →
      (stateAfter (step r i ins) s).frame.registers[q]? = s.frame.registers[q]?) ∧
    ∀ f t, step r i ins s = .ok f t → ∀ j, f.goesTo? i = some j → j < r.code.size →
      j ∈ successors r.code i := by
  constructor
  · intro q hq
    exact register_of_not_mem_writes (not_mem_writes hregs hi hq)
  · intro f t hstep j hj hlt
    exact mem_successors_of_step hi hstep hj hlt

/-- Changes a character of one of two strings, and does so again while register 2 holds zero. -/
def relabel : Routine where
  name := "relabel"
  code := #[⟨.setChar, 3, 2, 1, 0⟩, ⟨.switch, 2, 3, 1, 0⟩, ⟨.caseEntry, 0, 0, 0, 0⟩, ⟨.ret, 0, 1, 0, 0⟩]
  types := #[.string, .string, .int, .int]
  constants := #[.ofInt 0]
  checked := by decide

/-- Both strings are one object at first. The change gives the second register a string of its own, the first
one keeps the object; the switch goes back along the edge of its case. -/
theorem step_bounded_relabel :
    let start : State := ⟨⟨#[.object .string 0, .object .string 0, .ofInt 0, .ofInt 66], .none, #[]⟩, {},
      ⟨#[some ⟨2, .string #[72, 105]⟩]⟩, "", default⟩
    relabel.types.size ≤ UInt16.size ∧
    (stateAfter (step relabel 0 ⟨.setChar, 3, 2, 1, 0⟩) start).frame.registers[0]? = some (.object .string 0) ∧
    (stateAfter (step relabel 0 ⟨.setChar, 3, 2, 1, 0⟩) start).frame.registers[1]? = some (.object .string 1) ∧
    step relabel 1 ⟨.switch, 2, 3, 1, 0⟩ start = .ok (.jump 0) start ∧ 0 ∈ successors relabel.code 1 := by
  intro start
  have hregs : relabel.types.size ≤ UInt16.size := by decide
  have hset : relabel.code[0]? = some ⟨.setChar, 3, 2, 1, 0⟩ := rfl
  have hcode : relabel.code[1]? = some ⟨.switch, 2, 3, 1, 0⟩ := rfl
  have hswitch : step relabel 1 ⟨.switch, 2, 3, 1, 0⟩ start = .ok (.jump 0) start := rfl
  refine ⟨hregs, ?_, by decide +kernel, hswitch, ?_⟩
  · refine (relabel.step_bounded hregs hset start).1 0 fun d hd => ?_
    obtain rfl : d = 1 := List.mem_singleton.1 hd
    decide
  · exact (relabel.step_bounded hregs hcode start).2 _ _ hswitch 0 rfl (by decide)

/-! ### Runs -/

/-- The interpreted run from instruction `i` in state `s` executes the instructions `path` and comes to `j` in
state `t`. -/
inductive Passes (r : Routine) : Nat → State → List Nat → Nat → State → Prop
  | nil (i : Nat) (s : State) : Passes r i s [] i s
  | cons {i j k : Nat} {ins : Instruction} {s t u : State} {path : List Nat} (here : r.code[i]? = some ins)
      (next : Image.interpret r i ins s = .next ⟨.interpreting j, t⟩) (rest : Passes r j t path k u) :
      Passes r i s (i :: path) k u

/-- Where the interpreter goes on, it follows the step. -/
theorem exists_flow_of_interpret (h : Image.interpret r i ins s = .next ⟨.interpreting j, t⟩) :
    ∃ f, step r i ins s = .ok f t ∧ f.goesTo? i = some j := by
  unfold Image.interpret at h
  split at h <;> rename_i hstep <;> cases h <;> exact ⟨_, hstep, rfl⟩

namespace Passes

variable {path : List Nat}

/-- A run that passes to an instruction of the code starts at one. -/
theorem lt_size (h : r.Passes i s path j t) (hj : j < r.code.size) : i < r.code.size := by
  cases h with
  | nil => exact hj
  | cons here _ _ => exact (Array.getElem?_eq_some_iff.1 here).1

/-- **A run goes along edges.** -/
theorem isPath (h : r.Passes i s path j t) (hj : j < r.code.size) : Dataflow.Path r.code i path j := by
  induction h with
  | nil i s => exact .nil i
  | cons here next rest ih =>
    obtain ⟨f, hstep, hgoes⟩ := exists_flow_of_interpret next
    exact .cons (mem_successors_of_step here hstep hgoes (rest.lt_size hj)) (ih hj)

/-- **A run keeps the registers that no instruction on its way defines.** -/
theorem register_eq (hregs : r.types.size ≤ UInt16.size) (h : r.Passes i s path j t) {q : Reg}
    (hclear : Dataflow.Clear r.code q path) : t.frame.registers[q.toNat]? = s.frame.registers[q.toNat]? := by
  induction h with
  | nil i s => rfl
  | @cons i j k ins s t u path here next rest ih =>
    have hafter : t = stateAfter (step r i ins) s := by
      obtain ⟨_, ⟨⟩⟩ := Image.interpret_eq_next next
      rfl
    have hq : ∀ d ∈ ins.defs, d.toNat ≠ q.toNat := by
      intro d hd heq
      rw [UInt16.toNat_inj] at heq
      subst heq
      exact hclear i List.mem_cons_self ⟨ins, here, hd⟩
    rw [ih fun p hp => hclear p (List.mem_cons_of_mem _ hp), hafter]
    exact register_of_not_mem_writes (not_mem_writes hregs here hq)

/-- A run, cut where it comes to one of the instructions on its way. -/
theorem split {front back : List Nat} {d : Nat} (h : r.Passes i s (front ++ d :: back) j t) :
    ∃ u, r.Passes i s front d u ∧ r.Passes d u (d :: back) j t := by
  induction front generalizing i s with
  | nil =>
    cases h with
    | cons here next rest => exact ⟨s, .nil _ s, .cons here next rest⟩
  | cons x front ih =>
    cases h with
    | cons here next rest =>
      obtain ⟨u, hfront, hback⟩ := ih rest
      exact ⟨u, .cons here next hfront, hback⟩

/-- **A register carried directly is used with the value its definition gave it.** A run from the start of the
range that stays inside it and comes to a use has executed the definition, and the register holds what it
held right after the last time. -/
theorem carried (hregs : r.types.size ≤ UInt16.size) {range : IndexRange} {q : Reg} {d use : Nat}
    (hdirect : (Dataflow.ofCode r.code r.types.size).directDef? q range = some d)
    (h : r.Passes range.first s path use t) (hinside : ∀ p ∈ path, p ∈ range) (huse : use ∈ range)
    (hq : Dataflow.UsesAt r.code use q) :
    ∃ front back u ins, path = front ++ d :: back ∧ r.Passes range.first s front d u ∧ r.code[d]? = some ins ∧
      t.frame.registers[q.toNat]? = (stateAfter (step r d ins) u).frame.registers[q.toNat]? := by
  have hlt : use < r.code.size := by
    obtain ⟨_, hins, -⟩ := hq
    exact (Array.getElem?_eq_some_iff.1 hins).1
  obtain ⟨front, back, rfl, hclear⟩ := Dataflow.exists_lastVisit hdirect ⟨h.isPath hlt, hinside, huse⟩ hq
  obtain ⟨u, hfront, hrest⟩ := h.split
  cases hrest with
  | @cons _ _ _ ins _ _ _ _ here next rest =>
    refine ⟨front, back, u, ins, rfl, hfront, here, ?_⟩
    obtain ⟨_, ⟨⟩⟩ := Image.interpret_eq_next next
    exact rest.register_eq hregs hclear

end Passes

end Routine

end RegisterVM
