import RegisterVM.Proofs.SegmentRun

/-!
# One step inside a segment

While control stays inside a segment, compiled code makes one step for every instruction the
interpreter executes, and both come to the same index. Compiled code ends where the interpreter leaves
the segment, and where it fails (`KeepsPace`). Two steps have no counterpart: at a return compiled code
ends and leaves the instruction to the interpreter, and right behind the segment it ends without one.

A branch changes no register, so all it takes to be inside at its target is that the target is a leader
or right behind (`Inside.keepsPace_transfer`). A fused comparison changes its register in the
interpreter only (`Inside.keepsPace_fused`); every other instruction is performed by the operations
emitted for it (`Inside.keepsPace_effect`).
-/

namespace RegisterVM

/-- An instruction after which control goes on. -/
theorem Image.interpret_of_step {r : Routine} {i j : Nat} {ins : Instruction} {s t : State} {f : Flow}
    (hstep : step r i ins s = .ok f t) (hj : f.goesTo? i = some j) :
    interpret r i ins s = .next ⟨.interpreting j, t⟩ := by
  unfold interpret
  rw [hstep]
  cases f with
  | next =>
    cases hj
    rfl
  | jump target =>
    cases hj
    rfl
  | ret v => cases hj

namespace Native

/-- Compiled code of a sound range. -/
structure IsCompiled (r : Routine) (config : Config) (k : Classifier) (plan : Plan) (code : Code) :
    Prop where
  regs : r.types.size ≤ UInt16.size
  isPlan : IsPlan r config plan
  sound : SoundRange k r.code r.types plan.range
  lowered : Lowered r plan code

/-- The interpreter's step at index `i` of a segment, and the step of compiled code. -/
inductive KeepsPace (r : Routine) (plan : Plan) (i : Nat) :
    Transition Running Outcome → Transition (Nat × Activation) (Code.Ending × State) → Prop
  | next {j : Nat} {s : State} {a : Activation} (inside : Inside r plan j s a) :
    KeepsPace r plan i (.next ⟨.interpreting j, s⟩) (.next (j, a))
  | exit {s u : State} (alike : s.Alike false (r.LiveAt (plan.range.last + 1)) u) :
    KeepsPace r plan i (.next ⟨.interpreting (plan.range.last + 1), s⟩) (.halt (.returned 0 none, u))
  | failed {e : ErrorCode} {s u : State} (world : s.WorldAlike false u) :
    KeepsPace r plan i (.halt ⟨.error (.failed e i), s⟩) (.halt (.returned (e.pack i) none, u))
  | broken {f : Failure} {s u : State} (other : ∀ e, f ≠ .code e) (world : s.WorldAlike false u) :
    KeepsPace r plan i (.halt ⟨.error (.ofFailure i f), s⟩) (.halt (.broken f, u))

/-! ### Steps of compiled code -/

/-- Compiled code goes on where control is, or ends. -/
def Code.proceed (c : Code) (a : Activation) :
    Control → Transition (Nat × Activation) (Code.Ending × State)
  | .at j => .next (j, a)
  | .out exit => .halt (c.close a 0 exit)

namespace Code

variable {c : Code} {constants : Array Value} {i : Nat} {a b : Activation}

/-- What is performed at an index are the operations of its step, and then its control is resolved. -/
theorem perform_of_step? {st : CodeStep} (h : c.step? i = some st) : c.perform constants i =
    (performAll constants st.ops >>= fun _ => st.next.resolve i) := by
  unfold perform
  rw [h]
  rfl

/-- Compiled code goes on where its control says. -/
theorem advance_of_perform {control : Control} (hi : i ≤ c.range.last)
    (h : c.perform constants i a = .ok control b) :
    c.advance constants (i, a) = c.proceed b control := by
  rw [advance, if_neg (by omega), h]
  cases control <;> rfl

/-- Leaving a segment gives the state after registers have been stored back. -/
theorem close_of_storeBack (h : c.storeBack a = .ok () b) (status : Int32) (exit : Option Nat) :
    c.close a status exit = (.returned status exit, b.state) := by
  unfold close
  rw [h]

end Code

/-- A branch is emitted with the landings of both ways. -/
theorem emit_branch {S : Site} {cond : Cond} {t : Nat} {st : CodeStep} {p p' : Progress}
    (h : (S.target t >>= fun taken => S.target (S.index + 1) >>= fun next =>
      pure (⟨[], .branch cond next taken⟩ : CodeStep)) p = .ok (st, p')) :
    st = ⟨[], .branch cond (S.plan.landing (S.index + 1)) (S.plan.landing t)⟩ := by
  cases emit_target (emit_target h)
  rfl

namespace Inside

variable {r : Routine} {config : Config} {k : Classifier} {plan : Plan} {code : Code} {i j : Nat}
  {ins : Instruction} {s t : State} {a b : Activation}

/-- The index of an instruction of the segment. -/
theorem mem (h : Inside r plan i s a) (hi : i ≤ plan.range.last) : i ∈ plan.range := ⟨h.first_le, hi⟩

/-- Control is not at a case entry. -/
theorem ne_caseEntry (h : Inside r plan i s a) (hi : i ≤ plan.range.last)
    (hins : r.code[i]? = some ins) : ins.opcode ≠ .caseEntry :=
  fun hop => h.notCase (h.mem hi) ⟨ins, hins, hop⟩

/-- **Arriving at an instruction** that does not wait for a condition. -/
theorem arrives (h : Inside r plan i s a) (hc : IsCompiled r config k plan code)
    (hi : i ≤ plan.range.last) (hins : r.code[i]? = some ins) (hconf : ins.Conforms r s)
    (hfused : ∀ d ∈ plan.fused, d + 1 ≠ i) :
    ∃ V K, Arrives r config k plan i ins V K s a ∧ Covers r plan i V K := by
  obtain ⟨V, K, hmirrors, hcovers⟩ := h.current
  have hskip : ∀ q, ¬Skips r plan i q := by
    rintro q ⟨d, hd, heq, -⟩
    exact hfused d hd heq
  refine ⟨V, K, ⟨hc.regs, hc.isPlan, hc.sound, h.mem hi, hins, hconf, hmirrors, fun q hq => ?_⟩, hcovers⟩
  exact hcovers.usable hc.isPlan (h.mem hi) hins hq (hskip q)

/-! ### Transfers of control -/

/-- Control lands in a block of the segment, or right behind it. -/
theorem keepsPace_landing (h : Inside r plan j s a) (hc : IsCompiled r config k plan code) :
    KeepsPace r plan i (.next ⟨.interpreting j, s⟩) (code.proceed a (plan.landing j).control) := by
  unfold Plan.landing
  by_cases hexit : j = plan.range.last + 1
  · subst hexit
    obtain ⟨b, hb, halike⟩ := h.exists_storeBack hc.isPlan hc.lowered (.inl rfl)
    rw [if_pos rfl]
    change KeepsPace r plan i _ (.halt (code.close a 0 none))
    rw [Code.close_of_storeBack hb]
    exact .exit halike
  · rw [if_neg hexit]
    exact .next h

/-- A step that transfers control and changes nothing else. -/
theorem keepsPace_transfer (h : Inside r plan i s a) (hc : IsCompiled r config k plan code)
    (hi : i ≤ plan.range.last) (hins : r.code[i]? = some ins) (hwrites : ins.writes = []) {f : Flow}
    (hstep : step r i ins s = .ok f s) (hj : f.goesTo? i = some j)
    (hway : BranchEdge r.code i j ∨ j = i + 1 ∧ ins.opcode.isJump = true)
    (hperform : code.perform r.constants i a = .ok (plan.landing j).control a) :
    KeepsPace r plan i (Image.interpret r i ins s) (code.advance r.constants (i, a)) := by
  have hmem := h.mem hi
  obtain ⟨hfirst, hlast, hcase, htarget⟩ : plan.range.first ≤ j ∧ j ≤ plan.range.last + 1 ∧
      (j ∈ plan.range → ¬IsCase r.code j) ∧ plan.target j = .ok (plan.landing j) := by
    rcases hway with hedge | ⟨rfl, hjump⟩
    · obtain ⟨hfirst, hlast, hcase⟩ := hc.sound.branches i hmem j hedge
      exact ⟨hfirst, hlast, fun _ => hcase, hc.isPlan.target_of_branchEdge hmem hedge⟩
    · have hswitch : ins.opcode ≠ .switch := fun hop => by
        rw [hop] at hjump
        cases hjump
      refine ⟨Nat.le_succ_of_le h.first_le, by omega, fun _ => ?_, ?_⟩
      · exact r.not_isCase_succ hins (h.notCase hmem) hswitch
      · exact hc.isPlan.target_after_jump hmem hins hjump
  have hinside : Inside r plan j s a := by
    obtain ⟨V, K, hmirrors, hcovers⟩ := h.current
    refine ⟨hfirst, hlast, hcase, ⟨V, K, hmirrors, ?_⟩, fun e ins he => ?_⟩
    · refine hcovers.next hc.regs hc.isPlan hmem hins ?_ (fun n _ => ⟨id, id⟩) fun q hq => ?_
      · exact fun hlt => Routine.mem_successors_of_step hins hstep hj hlt
      · rw [hwrites] at hq
        cases hq
    · rw [awaited_of_target hc.isPlan htarget] at he
      cases he
  rw [Image.interpret_of_step hstep hj, Code.advance_of_perform (hc.lowered.range ▸ hi) hperform]
  exact hinside.keepsPace_landing hc

/-- A step of compiled code without operations. -/
theorem perform_of_next {next : Next} {control : Control} (hst : code.step? i = some ⟨[], next⟩)
    (hnext : next.resolve i a = .ok control a) : code.perform r.constants i a = .ok control a := by
  rw [Code.perform_of_step? hst]
  exact hnext

/-- A jump. -/
theorem keepsPace_goto (h : Inside r plan i s a) (hc : IsCompiled r config k plan code)
    (hi : i ≤ plan.range.last) (hins : r.code[i]? = some ins) (hop : ins.opcode = .goto) :
    KeepsPace r plan i (Image.interpret r i ins s) (code.advance r.constants (i, a)) := by
  have hwrites : ins.writes = [] := by rw [Instruction.writes, hop]; rfl
  have hstep : step r i ins s = .ok (.jump ins.target) s := by rw [step, Machine.step, hop]; rfl
  obtain ⟨st, hst, p, p', -, hemit⟩ := hc.lowered.steps i (h.mem hi) ins hins
  rw [Site.step, hop] at hemit
  cases emit_target hemit
  exact h.keepsPace_transfer hc hi hins hwrites hstep rfl (.inl (.of_jump hins (by rw [hop]; rfl)))
    (perform_of_next hst rfl)

/-- A test goes the same way on both sides, once both see the same condition. -/
theorem keepsPace_branch (h : Inside r plan i s a) (hc : IsCompiled r config k plan code)
    (hi : i ≤ plan.range.last) (hins : r.code[i]? = some ins) {kind : TestKind}
    (hop : ins.opcode = .test kind) {cond : Cond} {holds : Bool}
    (hst : code.step? i = some ⟨[], .branch cond (plan.landing (i + 1)) (plan.landing ins.target)⟩)
    (htest : Step.testHolds kind ins.a s = .ok holds s) (hcond : cond.holds a = .ok holds a) :
    KeepsPace r plan i (Image.interpret r i ins s) (code.advance r.constants (i, a)) := by
  have hjump : ins.opcode.isJump = true := by rw [hop]; rfl
  have hwrites : ins.writes = [] := by rw [Instruction.writes, hop]; rfl
  have hstep : step r i ins s = (if holds then .ok .next s else .ok (.jump ins.target) s) := by
    rw [step, Machine.step, hop]
    refine (bind_of_ok htest).trans ?_
    cases holds <;> rfl
  have hnext : Next.resolve i (.branch cond (plan.landing (i + 1)) (plan.landing ins.target)) a =
      .ok (if holds then (plan.landing (i + 1)).control else (plan.landing ins.target).control) a := by
    refine (bind_of_ok hcond).trans ?_
    cases holds <;> rfl
  cases holds with
  | true =>
    exact h.keepsPace_transfer hc hi hins hwrites hstep rfl (.inr ⟨rfl, hjump⟩) (perform_of_next hst hnext)
  | false =>
    exact h.keepsPace_transfer hc hi hins hwrites hstep rfl (.inl (.of_jump hins hjump))
      (perform_of_next hst hnext)

/-- What a test looks at in a register that holds a scalar. -/
theorem testHolds_of_scalar {kind : TestKind} {x : Int32} {tag : ScalarTag} {w : Words}
    (hkind : kind ≠ .any) (h : s.frame.registers[placeOf x]? = some (.scalar tag w)) :
    Step.testHolds kind x s =
      .ok (if kind = .float then !Binary64.eq w.lo 0 else w.bool) s := by
  have hreg : Step.reg x s = .ok (.scalar tag w) s := Step_reg_eq h
  refine (bind_of_ok hreg).trans ?_
  cases kind with
  | any => exact absurd rfl hkind
  | _ => rfl

/-- A test, which a comparison may have been fused with. -/
theorem keepsPace_test (h : Inside r plan i s a) (hc : IsCompiled r config k plan code)
    (hi : i ≤ plan.range.last) (hins : r.code[i]? = some ins) (hconf : ins.Conforms r s)
    {kind : TestKind} (hop : ins.opcode = .test kind) :
    KeepsPace r plan i (Image.interpret r i ins s) (code.advance r.constants (i, a)) := by
  have hcompilable := hc.isPlan.compilable i (h.mem hi) ins hins
  obtain ⟨st, hst, p, p', hpending, hemit⟩ := hc.lowered.steps i (h.mem hi) ins hins
  have hread : ∀ {scalar : ScalarKind}, (∀ d ∈ plan.fused, d + 1 ≠ i) →
      ins.wants = some [(ins.a.toInt, .scalar scalar)] → ReadsScalar s a ins.a scalar := by
    intro scalar hfused hwants
    obtain ⟨V, K, harrives, -⟩ := h.arrives hc hi hins hconf hfused
    obtain ⟨ws, hws, hall⟩ := harrives.wants (h.ne_caseEntry hi hins)
    rw [hwants] at hws
    cases hws
    refine harrives.reads hall ?_
    rw [Instruction.uses, hop]
    exact .head _
  rw [Site.step, hop] at hemit
  cases kind with
  | any =>
    rw [hop] at hcompilable
    cases hcompilable
  | bool =>
    obtain ⟨e, _, htake, hrest⟩ := exists_of_lower_bind hemit
    cases htake
    cases hawaited : p.pending with
    | some e =>
      rw [hawaited] at hrest
      cases emit_branch hrest
      obtain ⟨v, hv, heval⟩ := h.waiting e ins (hpending.symm.trans hawaited) hins
      have htest : Step.testHolds .bool ins.a s = .ok v.words.bool s := by
        have hreg : Step.reg ins.a s = .ok v s := Step_reg_eq hv
        exact bind_of_ok hreg
      refine h.keepsPace_branch hc hi hins hop hst htest ((bind_of_ok heval).trans ?_)
      rw [Words.bool_single_ofBool]
      rfl
    | none =>
      rw [hawaited] at hrest
      cases emit_branch (emit_read hrest)
      have hfused : ∀ d ∈ plan.fused, d + 1 ≠ i := by
        rintro d hd rfl
        obtain ⟨cmp, test, hfuses⟩ := hc.isPlan.exists_fuses hd
        rw [hpending, awaited, if_pos hd, hfuses.compareAt] at hawaited
        cases hawaited
      obtain ⟨tag, w, hw, -, hsame, -⟩ := hread hfused (by rw [Instruction.wants, hop])
      refine h.keepsPace_branch hc hi hins hop hst (testHolds_of_scalar (by rintro ⟨⟩) hw) ?_
      exact congrArg (EStateM.Result.ok · a) hsame.bool_eq
  | int =>
    obtain ⟨e, _, htake, hrest⟩ := exists_of_lower_bind hemit
    cases htake
    cases emit_branch (emit_read hrest)
    have hfused := succ_ne_of_fused hc.isPlan hins (by rw [hop]; rintro ⟨⟩)
    obtain ⟨tag, w, hw, -, hsame, -⟩ := hread hfused (by rw [Instruction.wants, hop])
    refine h.keepsPace_branch hc hi hins hop hst (testHolds_of_scalar (by rintro ⟨⟩) hw) ?_
    exact congrArg (EStateM.Result.ok · a) hsame.bool_eq
  | float =>
    cases emit_branch (emit_read hemit)
    have hfused := succ_ne_of_fused hc.isPlan hins (by rw [hop]; rintro ⟨⟩)
    obtain ⟨tag, w, hw, -, hsame, -⟩ := hread hfused (by rw [Instruction.wants, hop])
    refine h.keepsPace_branch hc hi hins hop hst (testHolds_of_scalar (by rintro ⟨⟩) hw) ?_
    exact congrArg (fun lo => EStateM.Result.ok (!Binary64.eq lo 0) a) hsame.1

/-- The interpreter's dispatch on a register that holds an integer. -/
theorem dispatch_of_int (hins : r.code[i]? = some ins) (hop : ins.opcode = .switch) {v : Value} {key : Int64}
    (hv : s.frame.registers[placeOf ins.a]? = some v) (hkey : v.int? = some key) {target : Option Nat}
    (hcase : Step.caseTarget? r key (caseEntries r.code i ins.caseCount) s = .ok target s) :
    Step.dispatch r i ins s = .ok (.jump (target.getD ins.target)) s := by
  have hreg : Step.reg ins.a s = .ok v s := Step_reg_eq hv
  have hsize : ¬r.code.size ≤ i + placeOf ins.c := by
    have hlt := r.lt_size_of_switch hins hop
    obtain ⟨-, -, hcount, -⟩ := r.inBounds_of_switch hins hop
    rw [Instruction.caseCount, countOf_eq_placeOf hcount] at hlt
    omega
  refine (bind_of_ok hreg).trans ?_
  change Step.select r i ins v s = _
  unfold Step.select
  dsimp only
  rw [if_neg hsize, hkey, Routine.extract_eq_caseEntries hins hop]
  exact bind_of_ok hcase

/-- A switch, which finds the same entry on both sides. -/
theorem keepsPace_switch (h : Inside r plan i s a) (hc : IsCompiled r config k plan code)
    (hi : i ≤ plan.range.last) (hins : r.code[i]? = some ins) (hconf : ins.Conforms r s)
    (hop : ins.opcode = .switch) :
    KeepsPace r plan i (Image.interpret r i ins s) (code.advance r.constants (i, a)) := by
  have hwrites : ins.writes = [] := by rw [Instruction.writes, hop]; rfl
  have hfused := succ_ne_of_fused hc.isPlan hins (by rw [hop]; exact nofun)
  obtain ⟨V, K, harrives, -⟩ := h.arrives hc hi hins hconf hfused
  have hdeclares : Declares r ins.a.toInt (.scalar .int) := by
    obtain ⟨hreg, -⟩ := r.inBounds_of_switch hins hop
    have hnonneg := hreg.1
    unfold Declares typeAt?
    rw [if_neg (by omega), ← placeOf_of_nonneg hnonneg]
    rcases hc.sound.integral i (h.mem hi) ins hins hop with ht | ht <;> rw [ht] <;> rfl
  obtain ⟨tag, w, hw, hkind, hsame, -⟩ := harrives.reads hdeclares (by
    rw [Instruction.uses, hop]
    exact .head _)
  have hkey : Value.int? (.scalar tag w) = some w.int := by
    cases tag <;> first | rfl | cases hkind
  obtain ⟨st, hst, p, p', -, hemit⟩ := hc.lowered.steps i (h.mem hi) ins hins
  rw [Site.step, hop] at hemit
  have hrest := emit_read hemit
  have hsize := r.lt_size_of_switch hins hop
  dsimp only at hrest
  rw [if_neg (by omega)] at hrest
  obtain ⟨table, _, htable, hrest⟩ := exists_of_lower_bind hrest
  cases emit_target hrest
  have hstep : step r i ins s = .ok (.jump (((firstCase r w.int
      (caseEntries r.code i ins.caseCount)).map Instruction.target).getD ins.target)) s := by
    rw [step, Machine.step, hop]
    exact dispatch_of_int hins hop hw hkey (caseTarget?_eq htable w.int s)
  have hedge := mem_branchTargets.1 (by
    obtain ⟨j, hj, hmem⟩ := Step.mem_of_dispatch hins hop
      (dispatch_of_int hins hop hw hkey (caseTarget?_eq htable w.int s))
    cases hj
    exact hmem)
  refine h.keepsPace_transfer hc hi hins hwrites hstep rfl (.inl hedge) (perform_of_next hst ?_)
  have hfind := find?_caseTable htable w.int
  rw [List.reverse_nil, List.find?_nil, Option.map_none, Option.none_or] at hfind
  have hresolve : Next.resolve i (.switch (.ofOperand ins.a) table (plan.landing ins.target)) a =
      .ok (((table.find? fun x => x.1 == (a.var (.ofOperand ins.a)).int).map Prod.snd).getD
        (plan.landing ins.target)).control a := rfl
  refine hresolve.trans ?_
  rw [hsame.int_eq, hfind]
  cases firstCase r w.int (caseEntries r.code i ins.caseCount) <;> rfl

/-! ### Instructions that do not transfer control -/

/-- An instruction that goes on with the next one, on both sides. -/
theorem goesOn (h : Inside r plan i s a) (hc : IsCompiled r config k plan code)
    (hi : i ≤ plan.range.last) (hins : r.code[i]? = some ins) (hop : ins.opcode ≠ .switch)
    (hstep : step r i ins s = .ok .next t) {V K V' K' : Nat → Prop} (hcovers : Covers r plan i V K)
    (hmirrors : Mirrors r plan V' K' t b)
    (hkeep : ∀ n, n ∉ ins.writes → (V n → V' n) ∧ (K n → K' n))
    (hgiven : ∀ q : Reg, q.toNat ∈ ins.writes → ¬Skips r plan (i + 1) q →
      V' q.toNat ∧ (plan.register? q = none ∨ plan.through q ≠ [] → K' q.toNat))
    (hwaiting : ∀ e ins, awaited r plan (i + 1) = some e → r.code[i + 1]? = some ins → ∃ v,
      t.frame.registers[placeOf ins.a]? = some v ∧
        eval e b = .ok (.single (Words.ofBool v.words.bool)) b) :
    Inside r plan (i + 1) t b := by
  have hmem := h.mem hi
  refine ⟨Nat.le_succ_of_le h.first_le, by omega, fun _ => ?_, ⟨V', K', hmirrors, ?_⟩, hwaiting⟩
  · exact r.not_isCase_succ hins (h.notCase hmem) hop
  · refine hcovers.next hc.regs hc.isPlan hmem hins (fun hlt => ?_) hkeep hgiven
    exact Routine.mem_successors_of_step hins hstep rfl hlt

/-- The step of an instruction that neither branches nor returns. -/
theorem step_of_effect (hbranch : ins.opcode.isBranch = false) (hret : ins.opcode ≠ .ret) :
    step r i ins = (Step.effect r ins >>= fun _ => pure .next) := by
  obtain ⟨op, x, y, c, line⟩ := ins
  cases op with
  | goto => cases hbranch
  | test kind => cases hbranch
  | switch => cases hbranch
  | ret => exact absurd rfl hret
  | _ => rfl

/-- What is emitted for other instructions are operations, and control falls through. -/
theorem emit_operations {S : Site} {st : CodeStep} {p p' : Progress}
    (hbranch : ins.opcode.isBranch = false) (hret : ins.opcode ≠ .ret)
    (h : S.step ins p = .ok (st, p')) :
    ∃ ops, S.operations ins p = .ok (ops, p') ∧ st = ⟨ops, .fall⟩ := by
  have hstep : S.step ins = (S.operations ins >>= fun ops => pure ⟨ops, .fall⟩) := by
    obtain ⟨op, x, y, c, line⟩ := ins
    cases op with
    | goto => cases hbranch
    | test kind => cases hbranch
    | switch => cases hbranch
    | ret => exact absurd rfl hret
    | _ => rfl
  rw [hstep] at h
  obtain ⟨ops, _, hops, hpure⟩ := exists_of_lower_bind h
  cases hpure
  exact ⟨ops, hops, rfl⟩

/-- **A fused comparison** sets its register in the interpreter and leaves its condition to the test. -/
theorem keepsPace_fused (h : Inside r plan i s a) (hc : IsCompiled r config k plan code)
    (hi : i ≤ plan.range.last) (hins : r.code[i]? = some ins) (hconf : ins.Conforms r s)
    (hfused : i ∈ plan.fused) :
    KeepsPace r plan i (Image.interpret r i ins s) (code.advance r.constants (i, a)) := by
  obtain ⟨cmp, test, hfuses⟩ := hc.isPlan.exists_fuses hfused
  obtain rfl : ins = cmp := Option.some.inj (hins.symm.trans hfuses.compareAt)
  have hop := hfuses.comparison
  have hbranch : ins.opcode.isBranch = false := by
    cases hcase : ins.opcode <;> rw [hcase] at hop <;> first | rfl | cases hop
  have hret : ins.opcode ≠ .ret := fun hcase => by rw [hcase] at hop; cases hop
  have hwrites : ins.writes = [placeOf ins.c] := by
    unfold Instruction.writes
    cases hcase : ins.opcode <;> rw [hcase] at hop <;> first | rfl | cases hop
  have hnext := succ_ne_of_fused hc.isPlan hins fun hcase => by rw [hcase] at hop; cases hop
  obtain ⟨V, K, harrives, hcovers⟩ := h.arrives hc hi hins hconf hnext
  obtain ⟨hwritesScalar, holds, heval, heffect⟩ := harrives.comparison hop
  obtain ⟨y, t, hy, hkind, hset⟩ := hwritesScalar.setScalar harrives.mirrors
  have hstep : step r i ins s = .ok .next (s.setRegister (Reg.ofOperand ins.c).toNat
      (.scalar y.tag (ScalarKind.bool.value t (.single (Words.ofBool holds))).words)) := by
    rw [step_of_effect hbranch hret]
    exact bind_of_ok (heffect.trans (hset _))
  obtain ⟨st, hst, p, p', -, hemit⟩ := hc.lowered.steps i (h.mem hi) ins hins
  obtain ⟨ops, hops, rfl⟩ := emit_operations hbranch hret hemit
  obtain rfl : ops = [] := by
    rw [operations_of_comparison hop] at hops
    obtain ⟨e, _, -, hrest⟩ := exists_of_lower_bind hops
    rw [if_pos (List.contains_iff_mem.2 hfused)] at hrest
    cases hrest
    rfl
  have hinside : Inside r plan (i + 1) (s.setRegister (Reg.ofOperand ins.c).toNat
      (.scalar y.tag (ScalarKind.bool.value t (.single (Words.ofBool holds))).words)) a := by
    refine h.goesOn hc hi hins (fun hcase => by rw [hcase] at hop; cases hop) hstep hcovers
      (harrives.mirrors.forget hy _) (fun n hn => ?_) (fun q hq hskip => ?_) fun e ins' he hins' => ?_
    · have hne : n ≠ (Reg.ofOperand ins.c).toNat := by
        rintro rfl
        exact hn (by rw [hwrites, List.mem_singleton]; exact hwritesScalar.1.1)
      exact ⟨fun hV => ⟨hV, hne⟩, fun hK => ⟨hK, hne⟩⟩
    · -- the register written is the one that is nowhere until the test
      rw [hwrites, List.mem_singleton, ← hwritesScalar.1.1] at hq
      exact absurd ⟨i, hfused, rfl, ins, hins, UInt16.toNat_inj.1 hq⟩ hskip
    · rw [awaited, if_pos hfused, hins] at he
      cases he
      obtain rfl : ins' = test := Option.some.inj (hins'.symm.trans hfuses.testAt)
      have hlt : (Reg.ofOperand ins.c).toNat < s.frame.registers.size := by
        rw [hconf.typed.size]
        exact hwritesScalar.1.1 ▸ hwritesScalar.1.2
      refine ⟨.scalar y.tag (ScalarKind.bool.value t (.single (Words.ofBool holds))).words, ?_, ?_⟩
      · rw [hfuses.operand, ← hwritesScalar.1.1, State.registers_setRegister, if_pos rfl,
          Array.getElem?_eq_getElem hlt]
        rfl
      · rw [heval]
        cases holds <;> rfl
  rw [Image.interpret_of_step hstep rfl, Code.advance_of_perform (hc.lowered.range ▸ hi) (perform_of_next hst rfl)]
  exact .next hinside

/-- **An instruction performed by its operations.** -/
theorem keepsPace_effect (h : Inside r plan i s a) (hc : IsCompiled r config k plan code)
    (hi : i ≤ plan.range.last) (hins : r.code[i]? = some ins) (hconf : ins.Conforms r s)
    (hbranch : ins.opcode.isBranch = false) (hret : ins.opcode ≠ .ret) (hfused : i ∉ plan.fused) :
    KeepsPace r plan i (Image.interpret r i ins s) (code.advance r.constants (i, a)) := by
  have htest : ins.opcode ≠ .test .bool := fun hcase => by rw [hcase] at hbranch; cases hbranch
  have hswitch : ins.opcode ≠ .switch := fun hcase => by rw [hcase] at hbranch; cases hbranch
  obtain ⟨V, K, harrives, hcovers⟩ := h.arrives hc hi hins hconf (succ_ne_of_fused hc.isPlan hins htest)
  obtain ⟨st, hst, p, p', -, hemit⟩ := hc.lowered.steps i (h.mem hi) ins hins
  obtain ⟨ops, hops, rfl⟩ := emit_operations hbranch hret hemit
  have hfollows := ends_effect harrives (h.ne_caseEntry hi hins) hbranch hret hfused hops
  have hperform : code.perform r.constants i = _ := Code.perform_of_step? hst
  have hstep : step r i ins = _ := step_of_effect hbranch hret
  cases heffect : Step.effect r ins s with
  | ok _ t =>
    cases hperformed : performAll r.constants ops a with
    | error f b =>
      rw [heffect, hperformed] at hfollows
      exact hfollows.elim
    | ok _ b =>
      rw [heffect, hperformed] at hfollows
      obtain ⟨V', K', hupdates, hmirrors⟩ := hfollows
      have hok : step r i ins s = .ok .next t := by
        rw [hstep]
        exact bind_of_ok heffect
      have hinside : Inside r plan (i + 1) t b := by
        refine h.goesOn hc hi hins hswitch hok hcovers hmirrors hupdates.keeps
          (fun q hq _ => hupdates.given q hq) fun e ins' he _ => ?_
        rw [awaited, if_neg hfused] at he
        cases he
      have hdone : code.perform r.constants i a = .ok (.at (i + 1)) b := by
        rw [hperform]
        exact bind_of_ok hperformed
      rw [Image.interpret_of_step hok rfl, Code.advance_of_perform (hc.lowered.range ▸ hi) hdone]
      exact .next hinside
  | error f t =>
    cases hperformed : performAll r.constants ops a with
    | ok _ b =>
      rw [heffect, hperformed] at hfollows
      exact hfollows.elim
    | error f' b =>
      rw [heffect, hperformed] at hfollows
      obtain ⟨rfl, hfails⟩ := hfollows
      have hinterpret : Image.interpret r i ins s = .halt ⟨.error (.ofFailure i f), t⟩ := by
        unfold Image.interpret
        rw [hstep, bind_of_error heffect]
      have hbroken : code.perform r.constants i a = .error f b := by
        rw [hperform]
        exact bind_of_error hperformed
      obtain ⟨b', hb', hworld⟩ := hfails.exists_storeBack hc.isPlan hc.lowered
      have hlast : ¬code.range.last < i := by rw [hc.lowered.range]; omega
      rw [hinterpret, Code.advance, if_neg hlast, hbroken]
      cases f with
      | code e =>
        dsimp only
        rw [Code.close_of_storeBack hb']
        exact .failed hworld
      | notExecutable op => exact .broken nofun hfails.1
      | fault f => exact .broken nofun hfails.1

/-! ### Any instruction -/

/-- **Compiled code keeps pace with the interpreter** at every instruction but a return. -/
theorem keepsPace (h : Inside r plan i s a) (hc : IsCompiled r config k plan code)
    (hi : i ≤ plan.range.last) (hins : r.code[i]? = some ins) (hconf : ins.Conforms r s)
    (hret : ins.opcode ≠ .ret) :
    KeepsPace r plan i (Image.interpret r i ins s) (code.advance r.constants (i, a)) := by
  cases hop : ins.opcode with
  | goto => exact h.keepsPace_goto hc hi hins hop
  | test kind => exact h.keepsPace_test hc hi hins hconf hop
  | switch => exact h.keepsPace_switch hc hi hins hconf hop
  | _ =>
    have hbranch : ins.opcode.isBranch = false := by rw [hop]; rfl
    by_cases hfused : i ∈ plan.fused
    · exact h.keepsPace_fused hc hi hins hconf hfused
    · exact h.keepsPace_effect hc hi hins hconf hbranch hret hfused

/-- **At a return** compiled code ends and leaves the instruction to the interpreter. -/
theorem exists_leave (h : Inside r plan i s a) (hc : IsCompiled r config k plan code)
    (hi : i ≤ plan.range.last) (hins : r.code[i]? = some ins) (hop : ins.opcode = .ret) :
    ∃ u, code.advance r.constants (i, a) = .halt (.returned 0 (some i), u) ∧
      s.Alike false (r.LiveAt i) u := by
  obtain ⟨b, hb, halike⟩ := h.exists_storeBack hc.isPlan hc.lowered (.inr ⟨h.mem hi, ins, hins, hop⟩)
  obtain ⟨st, hst, p, p', -, hemit⟩ := hc.lowered.steps i (h.mem hi) ins hins
  rw [Site.step, hop] at hemit
  cases hemit
  refine ⟨b.state, ?_, halike⟩
  rw [Code.advance_of_perform (hc.lowered.range ▸ hi) (perform_of_next hst rfl)]
  exact congrArg _ (Code.close_of_storeBack hb 0 (some i))

/-- **Behind the segment** compiled code ends. -/
theorem exists_exit (h : Inside r plan i s a) (hc : IsCompiled r config k plan code)
    (hi : plan.range.last < i) :
    ∃ u, code.advance r.constants (i, a) = .halt (.returned 0 none, u) ∧
      i = plan.range.last + 1 ∧ s.Alike false (r.LiveAt i) u := by
  obtain rfl : i = plan.range.last + 1 := by
    have := h.le_last
    omega
  obtain ⟨b, hb, halike⟩ := h.exists_storeBack hc.isPlan hc.lowered (.inl rfl)
  refine ⟨b.state, ?_, rfl, halike⟩
  rw [Code.advance, if_pos (hc.lowered.range ▸ hi), Code.close_of_storeBack hb]

end Inside

end Native

end RegisterVM
