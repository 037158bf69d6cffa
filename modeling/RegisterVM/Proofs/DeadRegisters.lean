import RegisterVM.Machine.Image
import RegisterVM.Proofs.CheckedCode
import RegisterVM.Proofs.Liveness
import RegisterVM.Proofs.StepAlike

/-!
# Dead registers do not matter

Whether a register is live before an instruction is computed from operand roles and control flow. In
checked code with registers below `2 ^ 16` the roles are the registers a step reads and writes
(`Routine.map_uses`, `Routine.map_defs`) and the flow covers every way a step goes on
(`Routine.mem_successors_of_step`). So states alike on the registers live before an instruction are
alike, after it, on the registers live where control goes (`Routine.stepsAlike_interpret`), and a run
cannot tell what scalars dead registers hold.
-/

namespace RegisterVM

/-! ### Registers by number -/

/-- The number of an index register. -/
theorem toNat_registerAfter {base count : Int32} (hbase : 0 ≤ base.toInt)
    (hlt : base.toInt < UInt16.size) (hend : base.toInt + count.toInt < UInt16.size) {k : Nat}
    (hk : k < countOf count) :
    (Reg.ofOperand base + UInt16.ofNat (k + 1)).toNat = base.toInt.toNat + (k + 1) := by
  have hsize : UInt16.size = 65536 := rfl
  unfold countOf at hk
  rw [UInt16.toNat_add, Reg.toNat_ofOperand hbase hlt, placeOf_of_nonneg hbase,
    UInt16.toNat_ofNat_of_lt' (by omega)]
  omega

/-- The index registers of an element access are the same by number and at full width. -/
theorem map_registersAfter {base count : Int32} (hbase : 0 ≤ base.toInt)
    (hlt : base.toInt < UInt16.size) (hend : base.toInt + count.toInt < UInt16.size) :
    (registersAfter (.ofOperand base) count).map UInt16.toNat = indexPlaces base count := by
  have hcount : countOf count < UInt16.size := by
    unfold countOf
    omega
  unfold registersAfter indexPlaces
  rw [Nat.mod_eq_of_lt hcount, List.map_map]
  refine List.map_congr_left fun k hk => ?_
  rw [List.mem_range] at hk
  rw [Function.comp_apply, toNat_registerAfter hbase hlt hend hk]
  unfold countOf at hk
  have hsize : UInt16.size = 65536 := rfl
  have hsum : (base + Int32.ofNat (k + 1)).toInt = base.toInt + (k + 1) := by
    rw [Int32.toInt_add, Int32.toInt_ofNat_of_lt (by omega)]
    exact Int.bmod_eq_of_le (by omega) (by omega)
  rw [placeOf_of_nonneg (by omega), hsum]
  omega

namespace Instruction

variable {n : Bounds} {i : Nat} {ins : Instruction}

/-- The registers an instruction uses have the numbers of those its step reads, if operands and spans do. -/
theorem map_uses (hb : ins.InBounds n i)
    (hreg : ∀ x : Int32, n.IsRegister x.toInt → placeOf x ∈ ins.reads → (Reg.ofOperand x).toNat = placeOf x)
    (hspan : ∀ base count : Int32, n.IsRegister base.toInt → n.IsRegister (base.toInt + count.toInt) →
      placeOf base ∈ ins.reads → indexPlaces base count ⊆ ins.reads →
      (registersAfter (.ofOperand base) count).map UInt16.toNat = indexPlaces base count) :
    ins.uses.map UInt16.toNat = ins.reads := by
  unfold InBounds at hb
  unfold uses
  unfold reads at hreg hspan ⊢
  cases hl : ins.opcode.layout <;> simp only [hl, ra, rb, rc, List.map_cons, List.map_nil] at hb hreg hspan ⊢
  case unaryAC | staticGet | testA | switch | unaryBC => rw [hreg _ hb.1 (by simp)]
  case staticSet => rw [hreg _ hb.1 (by simp), hreg _ hb.2 (by simp)]
  case binaryABC => rw [hreg _ hb.1 (by simp), hreg _ hb.2.1 (by simp)]
  case indexSet | indexUpdate =>
    rw [hreg _ hb.1 (by simp), hreg _ hb.2.1 (by simp), hreg _ hb.2.2 (by simp)]
  case readA | storeA => rw [hreg _ hb (by simp)]
  case multiGet => rw [hreg _ hb.1 (by simp), hspan _ _ hb.1 hb.2.1 (by simp) (by simp)]
  case multiSet =>
    rw [hreg _ hb.1 (by simp), hreg _ hb.2.1 (by simp), hspan _ _ hb.2.1 hb.2.2 (by simp) fun q hq => by simp [hq]]
  case ret =>
    split at hreg
    · rename_i hzero
      rw [if_pos hzero, if_pos hzero, List.map_nil]
    · rename_i hne
      rw [if_neg hne, if_neg hne, List.map_cons, List.map_nil,
        hreg _ (hb fun h => hne (Int32.toInt_inj.1 h)) (by simp)]

/-- The registers an instruction defines are those it writes, if operands are read as the registers they name. -/
theorem map_defs (hb : ins.InBounds n i)
    (hreg : ∀ x : Int32, n.IsRegister x.toInt → placeOf x ∈ ins.writes → (Reg.ofOperand x).toNat = placeOf x) :
    ins.defs.map UInt16.toNat = ins.writes := by
  unfold InBounds at hb
  unfold defs
  unfold writes at hreg ⊢
  cases hl : ins.opcode.layout <;> simp only [hl, rc, List.map_cons, List.map_nil] at hb hreg ⊢
  case loadC => rw [hreg _ hb.1 (by simp)]
  case unaryAC | unaryBC | staticGet => rw [hreg _ hb.2 (by simp)]
  case binaryABC | indexUpdate | multiGet => rw [hreg _ hb.2.2 (by simp)]

end Instruction

namespace Routine

variable {r : Routine} {i : Nat} {ins : Instruction}

/-- An operand in bounds names the register it says, as long as there are no more than can be numbered. -/
theorem toNat_ofOperand {r : Routine} (hregs : r.types.size ≤ UInt16.size) {x : Int32}
    (hx : r.bounds.IsRegister x.toInt) : (Reg.ofOperand x).toNat = placeOf x := by
  obtain ⟨h0, hlt⟩ := hx
  have : x.toInt < r.types.size := hlt
  exact Reg.toNat_ofOperand h0 (by omega)

/-- The index registers of an element access are the places behind the first. -/
theorem map_span (hregs : r.types.size ≤ UInt16.size) {base count : Int32}
    (hbase : r.bounds.IsRegister base.toInt)
    (hend : r.bounds.IsRegister (base.toInt + count.toInt)) :
    (registersAfter (.ofOperand base) count).map UInt16.toNat = indexPlaces base count := by
  have hlt : base.toInt < r.types.size := hbase.2
  have hlt' : base.toInt + count.toInt < r.types.size := hend.2
  exact map_registersAfter hbase.1 (by omega) (by omega)

/-- **The registers an instruction uses are those its step reads.** -/
theorem map_uses (hregs : r.types.size ≤ UInt16.size) (hi : r.code[i]? = some ins) :
    ins.uses.map UInt16.toNat = ins.reads :=
  Instruction.map_uses (r.inBounds hi) (fun _ hx _ => toNat_ofOperand hregs hx)
    fun _ _ hbase hend _ _ => map_span hregs hbase hend

/-- The registers an instruction of a routine defines are those it writes. -/
theorem map_defs (hregs : r.types.size ≤ UInt16.size) (hi : r.code[i]? = some ins) :
    ins.defs.map UInt16.toNat = ins.writes :=
  Instruction.map_defs (r.inBounds hi) fun _ hx _ => toNat_ofOperand hregs hx

/-! ### Where control goes -/

/-- The case entries of a switch, as its step reads them. -/
theorem extract_eq_caseEntries (hi : r.code[i]? = some ins) (hs : ins.opcode = .switch) :
    (r.code.extract (i + 1) (i + 1 + placeOf ins.c)).toList = caseEntries r.code i ins.caseCount := by
  obtain ⟨-, -, hc, -⟩ := r.inBounds_of_switch hi hs
  rw [caseEntries, Instruction.caseCount, countOf_eq_placeOf hc]

end Routine

/-- Where control goes from instruction `i`, unless it returns. -/
def Flow.goesTo? (i : Nat) : Flow → Option Nat
  | .next => some (i + 1)
  | .jump target => some target
  | .ret _ => none

namespace Step

variable {r : Routine} {i : Nat} {ins : Instruction} {s t : State}

/-- The entry a discriminant selects is one of the switch. -/
theorem mem_of_caseTarget {d : Int64} {entries : List Instruction} {j : Nat}
    (h : caseTarget? r d entries s = .ok (some j) t) : j ∈ entries.map Instruction.target := by
  induction entries generalizing s with
  | nil => cases h
  | cons entry rest ih =>
    obtain ⟨k, u, -, h⟩ := exists_of_bind_eq_ok h
    by_cases hk : k.int? = some d
    · rw [if_pos hk] at h
      cases h
      exact List.mem_cons_self
    · rw [if_neg hk] at h
      exact List.mem_cons_of_mem _ (ih h)

/-- Dispatching goes to a branch target of the switch. -/
theorem mem_of_dispatch (hi : r.code[i]? = some ins) (hs : ins.opcode = .switch) {f : Flow}
    (h : dispatch r i ins s = .ok f t) : ∃ j, f = .jump j ∧ j ∈ branchTargets r.code i := by
  have htargets : branchTargets r.code i =
      ins.target :: (caseEntries r.code i ins.caseCount).map Instruction.target := by
    simp [branchTargets, hi, hs, Opcode.isJump]
  rw [htargets, ← Routine.extract_eq_caseEntries hi hs]
  obtain ⟨v, u, -, h⟩ := exists_of_bind_eq_ok h
  replace h : select r i ins v u = .ok f t := h
  unfold select at h
  dsimp only at h
  split at h
  · cases h
  · cases hd : v.int? with
    | none =>
      rw [hd] at h
      cases h
      exact ⟨_, rfl, List.mem_cons_self⟩
    | some d =>
      rw [hd] at h
      obtain ⟨target, u, hcase, h⟩ := exists_of_bind_eq_ok h
      cases h
      cases target with
      | none => exact ⟨_, rfl, List.mem_cons_self⟩
      | some j => exact ⟨_, rfl, List.mem_cons_of_mem _ (mem_of_caseTarget hcase)⟩

end Step

namespace Routine

variable {r : Routine} {i : Nat} {ins : Instruction} {s t : State}

/-- **A step goes where control can flow.** -/
theorem mem_flowTargets_of_step (hi : r.code[i]? = some ins) {f : Flow}
    (h : step r i ins s = .ok f t) {j : Nat} (hj : f.goesTo? i = some j) :
    j ∈ flowTargets r.code i ins := by
  have hjump : ins.opcode.isJump = true → branchTargets r.code i = [ins.target] := fun hop => by
    simp [branchTargets, hi, hop]
  obtain ⟨op, a, b, c, line⟩ := ins
  cases op with
  | goto =>
    cases h
    cases hj
    rw [flowTargets, hjump rfl]
    exact List.mem_singleton_self _
  | test kind =>
    obtain ⟨holds, u, -, h⟩ := exists_of_bind_eq_ok h
    rw [flowTargets, hjump rfl]
    cases holds with
    | true =>
      cases h
      cases hj
      exact List.mem_cons_self
    | false =>
      cases h
      cases hj
      exact List.mem_cons_of_mem _ (List.mem_singleton_self _)
  | switch =>
    obtain ⟨k, rfl, hk⟩ := Step.mem_of_dispatch hi rfl h
    cases hj
    exact hk
  | ret =>
    rw [step_of_ret i rfl] at h
    split at h
    · cases h
      cases hj
    · obtain ⟨v, u, -, h⟩ := exists_of_bind_eq_ok h
      obtain ⟨v, u, -, h⟩ := exists_of_bind_eq_ok h
      cases h
      cases hj
  | caseEntry => obtain ⟨_, u, heffect, -⟩ := exists_of_bind_eq_ok h; cases heffect
  | _ =>
    obtain ⟨_, u, -, h⟩ := exists_of_bind_eq_ok h
    cases h
    cases hj
    exact List.mem_singleton_self _

/-- **Control only goes where the flow of the code says.** -/
theorem mem_successors_of_step (hi : r.code[i]? = some ins) {f : Flow}
    (h : step r i ins s = .ok f t) {j : Nat} (hj : f.goesTo? i = some j) (hlt : j < r.code.size) :
    j ∈ successors r.code i := by
  have hflow : j ∈ flowTargets r.code i ins := mem_flowTargets_of_step hi h hj
  rw [successors, hi]
  exact mem_ascending.2 (List.mem_filter.2 ⟨hflow, by simpa using hlt⟩)

/-! ### Runs -/

/-- Register `q` is live before instruction `i`. -/
def LiveAt (r : Routine) (i q : Nat) : Prop :=
  q < UInt16.size ∧ (Dataflow.ofCode r.code r.types.size).isLiveIn (.ofNat q) i = true

instance (r : Routine) (i q : Nat) : Decidable (r.LiveAt i q) := by
  unfold LiveAt
  infer_instance

/-- A register is live where the analysis says so. -/
theorem liveAt_toNat {q : Reg} :
    r.LiveAt i q.toNat ↔ (Dataflow.ofCode r.code r.types.size).isLiveIn q i = true := by
  unfold LiveAt
  rw [UInt16.ofNat_toNat]
  exact and_iff_right q.toNat_lt

/-- What a step reads is live before it. -/
theorem liveAt_of_reads (hregs : r.types.size ≤ UInt16.size) (hi : r.code[i]? = some ins) {q : Nat}
    (hq : q ∈ ins.reads) : r.LiveAt i q := by
  rw [← map_uses hregs hi, List.mem_map] at hq
  obtain ⟨q, hq, rfl⟩ := hq
  exact liveAt_toNat.2 (Dataflow.isLiveIn_of_uses hi hq)

/-- What is live where control goes was live before or has just been written. -/
theorem liveAt_of_successors (hregs : r.types.size ≤ UInt16.size) (hi : r.code[i]? = some ins) {j : Nat}
    (hj : j ∈ successors r.code i) {q : Nat} (hq : r.LiveAt j q) : r.LiveAt i q ∨ q ∈ ins.writes := by
  obtain ⟨q, rfl⟩ : ∃ q' : Reg, q'.toNat = q := ⟨.ofNat q, UInt16.toNat_ofNat_of_lt' hq.1⟩
  rw [← map_defs hregs hi]
  by_cases hdef : q ∈ ins.defs
  · exact .inr (List.mem_map_of_mem hdef)
  · exact .inl (liveAt_toNat.2
      (Dataflow.isLiveIn_of_successors hi hj (liveAt_toNat.1 hq) hdef))

/-- Behind the code no register is live. -/
theorem not_liveAt_of_size_le (h : r.code.size ≤ i) (q : Nat) : ¬r.LiveAt i q := fun hq => by
  rw [LiveAt, Dataflow.isLiveIn_of_size_le h] at hq
  cases hq.2

/-- After a step the states are alike on what is live where control goes. -/
theorem alike_of_step (hregs : r.types.size ≤ UInt16.size) (hi : r.code[i]? = some ins) {f : Flow}
    {u : State} (hstep : step r i ins u = .ok f s) {strict : Bool} {s' : State}
    (h : s.Alike strict (fun q => r.LiveAt i q ∨ q ∈ ins.writes) s') {j : Nat}
    (hj : f.goesTo? i = some j) : s.Alike strict (r.LiveAt j) s' := by
  refine h.mono fun q hq => ?_
  by_cases hlt : j < r.code.size
  · exact liveAt_of_successors hregs hi (mem_successors_of_step hi hstep hj hlt) hq
  · exact absurd hq (not_liveAt_of_size_le (by omega) q)

end Routine

/-- The same result up to values that are alike, in states alike outside the registers. -/
structure Outcome.Alike (strict : Bool) (o o' : Outcome) : Prop where
  result : match o.result, o'.result with
    | .ok v, .ok v' => v.Alike strict v'
    | .error e, .error e' => e = e'
    | _, _ => False
  world : o.state.WorldAlike strict o'.state

/-- Two interpreting machines take the same step: they go on at the same instruction in states alike
on the registers live there, or end alike. -/
inductive StepsAlike (r : Routine) (strict : Bool) :
    Transition Running Outcome → Transition Running Outcome → Prop
  | next {j : Nat} {s s' : State} (alike : s.Alike strict (r.LiveAt j) s') :
    StepsAlike r strict (.next ⟨.interpreting j, s⟩) (.next ⟨.interpreting j, s'⟩)
  | halt {o o' : Outcome} (alike : o.Alike strict o') : StepsAlike r strict (.halt o) (.halt o')

/-- **One instruction of a run** on states alike on the registers live before it. -/
theorem Routine.stepsAlike_interpret {r : Routine} (hregs : r.types.size ≤ UInt16.size) {i : Nat}
    {ins : Instruction} (hi : r.code[i]? = some ins) {strict : Bool} {s s' : State}
    (h : s.Alike strict (r.LiveAt i) s') (hwide : strict = true ∨ ins.ReadsWide s) :
    StepsAlike r strict (Image.interpret r i ins s) (Image.interpret r i ins s') := by
  have hends := endsAlike_step (r := r) h i (fun q hq => liveAt_of_reads hregs hi hq) hwide
  unfold Image.interpret
  cases hs : step r i ins s with
  | error f t =>
    cases hs' : step r i ins s' with
    | ok g t' =>
      rw [hs, hs'] at hends
      exact hends.elim
    | error f' t' =>
      rw [hs, hs'] at hends
      obtain ⟨rfl, ht⟩ := hends
      exact .halt ⟨rfl, ht⟩
  | ok f t =>
    cases hs' : step r i ins s' with
    | error f' t' =>
      rw [hs, hs'] at hends
      exact hends.elim
    | ok g t' =>
      rw [hs, hs'] at hends
      obtain ⟨hflow, ht⟩ := hends
      cases hflow with
      | next => exact .next (alike_of_step hregs hi hs ht rfl)
      | jump target => exact .next (alike_of_step hregs hi hs ht rfl)
      | ret value => exact .halt ⟨value, ht.world⟩

namespace Image

/-- Runs an image of a routine from instruction `i`. -/
def runFrom (m : Image) (r : Routine) (i budget : Nat) (s : State) : Option Outcome :=
  iterate (m.advance r) budget ⟨.interpreting i, s⟩

/-- One step of interpreting. -/
theorem advance_interpreted (r : Routine) (i : Nat) (s : State) :
    (interpreted r).advance r ⟨.interpreting i, s⟩ =
      match r.code[i]? with
      | none => .halt ⟨.ok .none, s⟩
      | some ins => interpret r i ins s := by
  have hcode : (interpreted r).code = r.code := rfl
  rw [advance, hcode]
  cases hi : r.code[i]? with
  | none => rfl
  | some ins => exact if_neg (r.opcode_ne_callSegment hi)

/-- **Runs from states alike on the live registers end alike.** -/
theorem runFrom_interpreted_alike {r : Routine} (hregs : r.types.size ≤ UInt16.size) {i : Nat}
    {s s' : State} (h : s.Alike true (r.LiveAt i) s') (budget : Nat) :
    Option.Rel (Outcome.Alike true) ((interpreted r).runFrom r i budget s)
      ((interpreted r).runFrom r i budget s') := by
  induction budget generalizing i s s' with
  | zero => exact .none
  | succ budget ih =>
    have hstep : StepsAlike r true ((interpreted r).advance r ⟨.interpreting i, s⟩)
        ((interpreted r).advance r ⟨.interpreting i, s'⟩) := by
      rw [advance_interpreted, advance_interpreted]
      cases hi : r.code[i]? with
      | none => exact .halt ⟨.refl _, h.world⟩
      | some ins => exact r.stepsAlike_interpret hregs hi h (.inl rfl)
    unfold runFrom at ih ⊢
    unfold iterate
    revert hstep
    generalize (interpreted r).advance r ⟨.interpreting i, s⟩ = x,
      (interpreted r).advance r ⟨.interpreting i, s'⟩ = y
    rintro (alike | alike)
    · exact ih alike
    · exact .some alike

end Image

/-! ### States that differ in dead registers -/

/-- The state with its register file left out. -/
def State.withoutRegisters (s : State) : State := { s with frame := { s.frame with registers := #[] } }

/-- What a run shows: its result and all of the state it leaves but the register file. -/
def Outcome.shown (o : Outcome) : Except RunError Value × State :=
  (o.result, o.state.withoutRegisters)

/-- The states agree, except that registers not live before instruction `i` may hold different
scalars. -/
structure State.SameButDead (r : Routine) (i : Nat) (s s' : State) : Prop where
  rest : s.withoutRegisters = s'.withoutRegisters
  size : s.frame.registers.size = s'.frame.registers.size
  registers : ∀ q v v', s.frame.registers[q]? = some v → s'.frame.registers[q]? = some v' →
    v = v' ∨ ¬r.LiveAt i q ∧ v.IsScalar ∧ v'.IsScalar

/-- States that are the same but for dead registers are alike in the live ones. -/
theorem State.SameButDead.alike {r : Routine} {i : Nat} {s s' : State} (h : s.SameButDead r i s') :
    s.Alike true (r.LiveAt i) s' := by
  refine ⟨fun q => ?_, ?_⟩
  · cases hv : s.frame.registers[q]? with
    | none =>
      rw [Array.getElem?_eq_none_iff, h.size, ← Array.getElem?_eq_none_iff] at hv
      rw [hv]
      exact .none
    | some v =>
      have hlt : q < s'.frame.registers.size := h.size ▸ (Array.getElem?_eq_some_iff.1 hv).1
      have hv' := Array.getElem?_eq_getElem hlt
      rw [hv']
      refine .some ((h.registers q _ _ hv hv').imp_left ?_)
      rintro rfl
      exact .refl _
  · obtain ⟨⟨_, _, _⟩, ⟨_, _⟩, _, _, _⟩ := s
    obtain ⟨⟨_, _, _⟩, ⟨_, _⟩, _, _, _⟩ := s'
    cases h.rest
    exact ⟨.refl _, .refl (fun _ => .refl) _, .refl _, .refl _, .refl _, rfl, rfl⟩

/-- States that are alike but for registers are the same without them. -/
theorem State.WorldAlike.withoutRegisters_eq {s s' : State} (h : s.WorldAlike true s') :
    s.withoutRegisters = s'.withoutRegisters := by
  obtain ⟨receiver, outer, statics, globals, heap, output, random⟩ := h
  have houter : s.frame.outer = s'.frame.outer :=
    Pointwise.eq (outer.mono fun _ _ _ hslots => hslots.eq_of_strict)
  simp only [withoutRegisters, receiver.eq_of_strict, houter, heap.eq_of_strict, output, random,
    State.mk.injEq, and_true, true_and]
  obtain ⟨_, ⟨_, _⟩, _, _, _⟩ := s
  obtain ⟨_, ⟨_, _⟩, _, _, _⟩ := s'
  rw [Namespace.mk.injEq]
  exact ⟨statics.eq_of_strict, globals.eq_of_strict⟩

/-- Outcomes that are alike are shown the same. -/
theorem Outcome.Alike.shown_eq {o o' : Outcome} (h : o.Alike true o') : o.shown = o'.shown := by
  obtain ⟨result, s⟩ := o
  obtain ⟨result', s'⟩ := o'
  obtain ⟨hresult, hworld⟩ := h
  have heq : result = result' := by
    cases result with
    | ok v =>
      cases result' with
      | ok v' => exact congrArg Except.ok (Value.Alike.eq_of_strict hresult)
      | error e' => exact hresult.elim
    | error e =>
      cases result' with
      | ok v' => exact hresult.elim
      | error e' => exact congrArg Except.error hresult
  exact Prod.ext heq hworld.withoutRegisters_eq

/-- **What dead registers hold does not show.** From states that differ only in scalars held by
registers not live before instruction `i`, the runs need the same number of steps, and if they end,
they end with the same result and leave the same state outside the register file. -/
theorem Routine.shown_eq_of_sameButDead (r : Routine) (hregs : r.types.size ≤ UInt16.size) {i : Nat}
    {s s' : State} (h : s.SameButDead r i s') (budget : Nat) :
    ((Image.interpreted r).runFrom r i budget s).map Outcome.shown =
      ((Image.interpreted r).runFrom r i budget s').map Outcome.shown := by
  have hruns := Image.runFrom_interpreted_alike hregs h.alike budget
  revert hruns
  generalize (Image.interpreted r).runFrom r i budget s = x,
    (Image.interpreted r).runFrom r i budget s' = y
  rintro (alike | -)
  · exact congrArg some alike.shown_eq
  · rfl

/-- Counts register 0 down to zero, with a scratch register that every round writes first. -/
def Routine.countdown : Routine where
  name := "countdown"
  code := #[⟨.data, 2, 1, 1, 0⟩, ⟨.intArith .sub, 0, 1, 0, 0⟩, ⟨.test .int, 0, 4, 0, 0⟩,
    ⟨.goto, 0, 0, 0, 0⟩, ⟨.ret, 0, 1, 0, 0⟩]
  types := #[.int, .int]
  constants := #[]
  checked := by decide

/-- A countdown that is started with different values in a dead register. -/
theorem Routine.shown_eq_countdown :
    let s : State := ⟨⟨#[.ofInt 2, .ofInt 0], .none, #[]⟩, {}, default, "", default⟩
    let s' : State := ⟨⟨#[.ofInt 2, .ofFloat 7], .none, #[]⟩, {}, default, "", default⟩
    countdown.types.size ≤ UInt16.size ∧ s.SameButDead countdown 0 s' ∧
      ((Image.interpreted countdown).runFrom countdown 0 10 s).map Outcome.shown =
        ((Image.interpreted countdown).runFrom countdown 0 10 s').map Outcome.shown := by
  intro s s'
  have hregs : countdown.types.size ≤ UInt16.size := by decide
  have hsame : s.SameButDead countdown 0 s' := by
    refine ⟨rfl, rfl, fun q v v' hv hv' => ?_⟩
    obtain ⟨hq, -⟩ := Array.getElem?_eq_some_iff.1 hv
    have hq : q < 2 := hq
    interval_cases q
    · cases hv
      cases hv'
      exact .inl rfl
    · cases hv
      cases hv'
      exact .inr ⟨by decide +kernel, trivial, trivial⟩
  exact ⟨hregs, hsame, countdown.shown_eq_of_sameButDead hregs hsame 10⟩

end RegisterVM
