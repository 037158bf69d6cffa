import RegisterVM.Proofs.Installation
import RegisterVM.Proofs.SegmentStep
import RegisterVM.Proofs.Triples

/-!
# Where control is, and what holds there

Control in a machine that executes an image of a routine is at an instruction outside compiled code, or
inside a compiled segment and at most right behind it (`Placed`). It comes to a case entry only where some
branch goes to one: what follows an instruction that is no switch is no entry, the code does not begin with
one, and right behind a segment there is one only if the segment begins with one.

An invariant of the state that every instruction and every compiled operation keeps holds throughout a run
(`Secures.visited`), and the run ends with an error only if one of them may fail so (`Secures.expected`).
-/

namespace RegisterVM

/-- Some branch goes to a case entry. -/
def Routine.EntersCases (r : Routine) : Prop := ∃ i t, BranchEdge r.code i t ∧ IsCase r.code t

namespace Routine

variable {r : Routine} {i j : Nat} {ins : Instruction}

/-- Code does not start with a case entry. -/
theorem not_isCase_zero (r : Routine) : ¬IsCase r.code 0 := fun h => by
  obtain ⟨i, sw, -, -, hlt, -⟩ := r.exists_ownsCase h
  omega

/-- Control goes to a case entry only by a branch. -/
theorem entersCases_of_flow (hi : r.code[i]? = some ins) (hj : j ∈ flowTargets r.code i ins)
    (hcase : IsCase r.code j) : r.EntersCases := by
  have hbranch : j ∈ branchTargets r.code i → r.EntersCases := fun h => ⟨i, j, mem_branchTargets.1 h, hcase⟩
  have hnext : ins.opcode ≠ .caseEntry → ins.opcode ≠ .switch → j ≠ i + 1 := by
    rintro hop hswitch rfl
    refine r.not_isCase_succ hi (fun ⟨ins', hins', hop'⟩ => ?_) hswitch hcase
    rw [hi, Option.some.injEq] at hins'
    exact hop (hins' ▸ hop')
  obtain ⟨op, a, b, c, line⟩ := ins
  cases op with
  | goto | switch => exact hbranch hj
  | test kind =>
    rcases List.mem_cons.1 hj with heq | hj
    · exact absurd heq (hnext nofun nofun)
    · exact hbranch hj
  | caseEntry | ret => cases hj
  | _ => exact absurd (List.mem_singleton.1 hj) (hnext nofun nofun)

end Routine

/-! ### Where compiled steps go -/

namespace Native

/-- A target in the range of a plan, or right behind it. -/
def Plan.Lands (plan : Plan) (t : Target) : Prop :=
  ∀ j, t = .block j → plan.range.first ≤ j ∧ j ≤ plan.range.last + 1

section

variable {r : Routine} {config : Config} {plan : Plan} {i : Nat} {ins : Instruction} {st : CodeStep}

/-- A branch that resolves stays in the range or goes right behind it. -/
theorem IsPlan.lands (h : IsPlan r config plan) {t : Nat} {x : Target} (hx : plan.target t = .ok x) :
    plan.Lands x := by
  unfold Plan.target at hx
  split at hx
  · cases hx
    exact nofun
  · split at hx
    · rename_i hleader
      cases hx
      rintro _ ⟨⟩
      obtain ⟨hmem, -⟩ := (h.leaders t).1 hleader
      exact ⟨hmem.1, Nat.le_succ_of_le hmem.2⟩
    · cases hx

/-- What is emitted behind the resolution of a branch. -/
theorem exists_target {α : Type} {S : Site} {t : Nat} {f : Target → LowerM α} {z : α} {p p' : Progress}
    (h : (S.target t >>= f) p = .ok (z, p')) : ∃ x, S.plan.target t = .ok x ∧ f x p = .ok (z, p') := by
  obtain ⟨x, _, hx, hrest⟩ := exists_of_lower_bind h
  obtain ⟨htarget, rfl⟩ := Site.target_eq_ok_iff.1 hx
  exact ⟨x, htarget, hrest⟩

/-- All ways of a case table do. -/
theorem lands_caseTable {S : Site} (h : IsPlan S.routine config S.plan) {entries : List Instruction}
    {table table' : List (Int64 × Target)} {p p' : Progress}
    (hcases : S.caseTable entries table p = .ok (table', p')) (htable : ∀ x ∈ table, S.plan.Lands x.2) :
    ∀ x ∈ table', S.plan.Lands x.2 := by
  induction entries generalizing table with
  | nil =>
    cases hcases
    exact fun x hx => htable x (List.mem_reverse.1 hx)
  | cons entry rest ih =>
    unfold Site.caseTable at hcases
    obtain ⟨v, -, hrest⟩ := emit_constant hcases
    cases hkey : v.int? with
    | none =>
      rw [hkey] at hrest
      exact ih hrest htable
    | some key =>
      rw [hkey] at hrest
      dsimp only at hrest
      by_cases hany : table.any (·.1 == key) = true
      · rw [if_pos hany] at hrest
        exact ih hrest htable
      · rw [if_neg hany] at hrest
        obtain ⟨x, hx, hrest⟩ := exists_target hrest
        refine ih hrest fun y hy => ?_
        rcases List.mem_cons.1 hy with rfl | hy
        · exact h.lands hx
        · exact htable y hy

/-- **The forms of a compiled step.** -/
inductive StepForm (r : Routine) (plan : Plan) (i : Nat) (ins : Instruction) : CodeStep → Prop
  | straight {ops : List Op} {p p' : Progress} (emitted : Site.operations ⟨r, plan, i⟩ ins p = .ok (ops, p')) :
    StepForm r plan i ins ⟨ops, .fall⟩
  | jump {t : Target} (lands : plan.Lands t) : StepForm r plan i ins ⟨[], .jump t⟩
  | test {x : Reg} {yes no : Target} (yes_lands : plan.Lands yes) (no_lands : plan.Lands no) :
    StepForm r plan i ins ⟨[], .branch (.word (.var x)) yes no⟩
  | testFloat {x : Reg} {yes no : Target} (yes_lands : plan.Lands yes) (no_lands : plan.Lands no) :
    StepForm r plan i ins ⟨[], .branch (.float x) yes no⟩
  | fused {e : Expr} {yes no : Target} (waits : awaited r plan i = some e) (yes_lands : plan.Lands yes)
      (no_lands : plan.Lands no) : StepForm r plan i ins ⟨[], .branch (.word e) yes no⟩
  | switch {x : Reg} {cases : List (Int64 × Target)} {other : Target} (lands : ∀ y ∈ cases, plan.Lands y.2)
      (other_lands : plan.Lands other) : StepForm r plan i ins ⟨[], .switch x cases other⟩
  | leave (opcode : ins.opcode = .ret) : StepForm r plan i ins ⟨[], .leave⟩

/-- Both ways of a branch do. -/
theorem exists_branch {S : Site} (h : IsPlan S.routine config S.plan) {cond : Cond} {t : Nat} {p p' : Progress}
    (hstep : (S.target t >>= fun taken => S.target (S.index + 1) >>= fun next =>
      pure (⟨[], .branch cond next taken⟩ : CodeStep)) p = .ok (st, p')) :
    ∃ yes no, S.plan.Lands yes ∧ S.plan.Lands no ∧ st = ⟨[], .branch cond yes no⟩ := by
  obtain ⟨taken, htaken, hrest⟩ := exists_target hstep
  obtain ⟨next, hnext, hrest⟩ := exists_target hrest
  cases hrest
  exact ⟨next, taken, h.lands hnext, h.lands htaken, rfl⟩

/-- **Lowering makes steps of these forms only.** -/
theorem Emits.form (h : Emits r plan i ins st) (hplan : IsPlan r config plan) : StepForm r plan i ins st := by
  obtain ⟨p, p', hp, hstep⟩ := h
  obtain ⟨op, a, b, c, line⟩ := ins
  cases op with
  | goto =>
    obtain ⟨x, hx, hrest⟩ := exists_target hstep
    cases hrest
    exact .jump (hplan.lands hx)
  | test kind =>
    cases kind with
    | bool =>
      obtain ⟨e, _, htake, hrest⟩ := exists_of_lower_bind hstep
      cases htake
      cases hpending : p.pending with
      | some e =>
        rw [hpending] at hrest
        obtain ⟨yes, no, hyes, hno, rfl⟩ := exists_branch (S := ⟨r, plan, i⟩) hplan hrest
        exact .fused (hp.symm.trans hpending) hyes hno
      | none =>
        rw [hpending] at hrest
        obtain ⟨yes, no, hyes, hno, rfl⟩ := exists_branch (S := ⟨r, plan, i⟩) hplan (emit_read hrest)
        exact .test hyes hno
    | int =>
      obtain ⟨e, _, htake, hrest⟩ := exists_of_lower_bind hstep
      cases htake
      obtain ⟨yes, no, hyes, hno, rfl⟩ := exists_branch (S := ⟨r, plan, i⟩) hplan (emit_read hrest)
      exact .test hyes hno
    | float =>
      obtain ⟨yes, no, hyes, hno, rfl⟩ := exists_branch (S := ⟨r, plan, i⟩) hplan (emit_read hstep)
      exact .testFloat hyes hno
    | any =>
      obtain ⟨ops, _, hops, -⟩ := exists_of_lower_bind hstep
      cases hops
  | switch =>
    have hrest := emit_read hstep
    dsimp only at hrest
    split at hrest
    · cases hrest
    · obtain ⟨table, _, htable, hrest⟩ := exists_of_lower_bind hrest
      obtain ⟨other, hother, hrest⟩ := exists_target hrest
      cases hrest
      exact .switch (lands_caseTable (S := ⟨r, plan, i⟩) hplan htable nofun) (hplan.lands hother)
  | ret =>
    cases hstep
    exact .leave rfl
  | _ =>
    obtain ⟨ops, _, hops, hpure⟩ := exists_of_lower_bind hstep
    cases hpure
    exact .straight hops

/-- A compiled step goes nowhere outside its segment but right behind it. -/
theorem StepForm.lands (h : StepForm r plan i ins st) (hi : i ∈ plan.range) :
    ∀ x ∈ st.next.targets i, plan.Lands x := by
  cases h with
  | straight =>
    refine List.forall_mem_singleton.2 ?_
    rintro _ ⟨⟩
    exact ⟨Nat.le_succ_of_le hi.1, Nat.succ_le_succ hi.2⟩
  | jump lands => exact List.forall_mem_singleton.2 lands
  | test yes no | testFloat yes no | fused _ yes no =>
    exact List.forall_mem_cons.2 ⟨yes, List.forall_mem_singleton.2 no⟩
  | switch lands other => exact List.forall_mem_cons.2 ⟨other, List.forall_mem_map.2 lands⟩
  | leave => exact List.forall_mem_singleton.2 nofun

/-- A compiled step leaves only a return to the interpreter. -/
theorem StepForm.opcode_of_leave (h : StepForm r plan i ins st) (hleave : st.next = .leave) :
    ins.opcode = .ret := by
  cases h with
  | leave opcode => exact opcode
  | _ => cases hleave

end

/-- Where control goes is one of the targets, unless it leaves. -/
theorem Next.resolve_eq_ok {next : Next} {i : Nat} {a b : Activation} {control : Control}
    (h : next.resolve i a = .ok control b) :
    (next = .leave ∧ control = .out (some i)) ∨ ∃ t ∈ next.targets i, control = t.control := by
  cases next with
  | fall =>
    cases h
    exact .inr ⟨_, List.mem_singleton_self _, rfl⟩
  | jump t =>
    cases h
    exact .inr ⟨t, List.mem_singleton_self _, rfl⟩
  | branch cond yes no =>
    obtain ⟨holds, c, -, hrest⟩ := exists_of_bind_eq_ok h
    cases holds with
    | true =>
      cases hrest
      exact .inr ⟨yes, List.mem_pair.2 (.inl rfl), rfl⟩
    | false =>
      cases hrest
      exact .inr ⟨no, List.mem_pair.2 (.inr rfl), rfl⟩
  | switch x cases other =>
    obtain ⟨w, c, -, hrest⟩ := exists_of_bind_eq_ok h
    cases hrest
    refine .inr ⟨_, ?_, rfl⟩
    cases hfind : cases.find? (·.1 == w.int) with
    | none => exact List.mem_cons_self
    | some y => exact List.mem_cons_of_mem _ (List.mem_map_of_mem (List.mem_of_find?_eq_some hfind))
  | leave =>
    cases h
    exact .inl ⟨rfl, rfl⟩

end Native

/-! ### Control in a run -/

/-- **Where control is** in a machine that executes an image of a routine. -/
inductive Placed (r : Routine) (c : Compiler) : Running → Prop
  | interpreting {i : Nat} {s : State} (case : IsCase r.code i → r.EntersCases) :
    Placed r c ⟨.interpreting i, s⟩
  | compiled {plan : Native.Plan} {segment : CompiledSegment} {i : Nat} {vars : Array Words} {s : State}
      (found : plan.range ∈ c.finder.find r.code r.types)
      (isPlan : Native.IsPlan r c.config plan) (lowered : Native.Lowered r plan segment.code)
      (length : segment.length = plan.range.length) (case : IsCase r.code plan.range.first → r.EntersCases)
      (first_le : plan.range.first ≤ i) (le_last : i ≤ plan.range.last + 1) :
    Placed r c ⟨.compiled plan.range.first segment i vars, s⟩

/-- A run starts at the first instruction. -/
theorem Placed.start (r : Routine) (c : Compiler) (s : State) : Placed r c ⟨.interpreting 0, s⟩ :=
  .interpreting fun h => absurd h r.not_isCase_zero

/-- Right behind a segment there is a case entry only if the segment begins with one: entries of a switch of
the segment are inside, and those of a switch before it reach over all of it. -/
theorem Native.IsPlan.isCase_first {r : Routine} {config : Native.Config} {plan : Native.Plan}
    (h : Native.IsPlan r config plan) (hcase : IsCase r.code (plan.range.last + 1)) :
    IsCase r.code plan.range.first := by
  obtain ⟨i, sw, hi, hop, hlt, hle⟩ := r.exists_ownsCase hcase
  have hnonempty := h.nonempty
  have hbefore : i < plan.range.first := by
    by_contra hge
    have := h.grouped i ⟨by omega, by omega⟩ sw hi hop
    omega
  exact r.isCase_of_ownsCase ⟨sw, hi, hop, hbefore, by omega⟩

/-- An invariant `I` of the state that instructions and compiled operations keep, failing only as `F` says. -/
structure Secures (r : Routine) (c : Compiler) (I : State → Prop) (F : Failure → Prop) : Prop where
  step : ∀ {i : Nat} {ins : Instruction}, r.code[i]? = some ins → ins.opcode ≠ .caseEntry →
    Within I F (step r i ins)
  enter : ∀ {plan : Native.Plan}, Native.IsPlan r c.config plan → ∀ x ∈ plan.entryRegisters,
    Within I F (Exec.register x.toNat)
  perform : ∀ {plan : Native.Plan} {i : Nat} {ins : Instruction} {st : Native.CodeStep},
    Native.IsPlan r c.config plan → r.code[i]? = some ins → Native.StepForm r plan i ins st →
      (∀ op ∈ st.ops, Within (fun a => I a.state) F (op.perform r.constants)) ∧
        Within (fun a => I a.state) F (st.next.resolve i)
  flush : ∀ {plan : Native.Plan}, Native.IsPlan r c.config plan → ∀ x ∈ plan.flushedRegisters, ∀ w,
    Within I F (Native.storeAt (.register x.1.toNat) x.2 w)

/-- How a run can end with an error, if instructions fail as `F` says. -/
def RunError.Expected (r : Routine) (F : Failure → Prop) : RunError → Prop
  | .failed _ _ => True
  | .missingSegment _ => False
  | .notExecutable op => op = .caseEntry ∧ r.EntersCases ∨ F (.notExecutable op)
  | .fault f => F (.fault f)

/-- What one step of a run keeps. -/
def Transition.Secure (r : Routine) (c : Compiler) (I : State → Prop) (F : Failure → Prop) :
    Transition Running Outcome → Prop
  | .next x => Placed r c x ∧ I x.state
  | .halt o => ∀ e, o.result = .error e → e.Expected r F

/-- A failure of an instruction is an expected error. -/
theorem RunError.expected_ofFailure {r : Routine} {F : Failure → Prop} {f : Failure} (hf : F f) (i : Nat) :
    (RunError.ofFailure i f).Expected r F := by
  cases f with
  | code e => trivial
  | notExecutable op => exact .inr hf
  | fault f => exact hf

namespace Native

/-- What is known of an action on the state is known of it in compiled code. -/
theorem triple_onState {α : Type} {P : State → Prop} {Q : α → State → Prop} {E : Failure → State → Prop} {m : Exec α}
    (h : Triple P m Q E) :
    Triple (fun a : Activation => P a.state) (onState m) (fun x a => Q x a.state) fun e a => E e a.state := by
  intro a ha
  have hend := h a.state ha
  rw [onState_eq]
  cases hm : m a.state with
  | ok x s =>
    rw [hm] at hend
    exact hend
  | error e s =>
    rw [hm] at hend
    exact hend

/-- So is how it can fail. -/
theorem within_onState {α : Type} {I : State → Prop} {F : Failure → Prop} {m : Exec α} (h : Within I F m) :
    Within (fun a : Activation => I a.state) F (onState m) := triple_onState h

end Native

namespace Secures

variable {r : Routine} {c : Compiler} {I : State → Prop} {F : Failure → Prop} {m : Image} {i : Nat}
  {ins : Instruction} {s : State}

/-- An instruction outside compiled code. -/
theorem secure_interpret (h : Secures r c I F) (hins : r.code[i]? = some ins)
    (hcase : IsCase r.code i → r.EntersCases) (hs : I s) :
    (Image.interpret r i ins s).Secure r c I F := by
  by_cases hop : ins.opcode = .caseEntry
  · have hstep : RegisterVM.step r i ins s = .error (.notExecutable .caseEntry) s := by
      obtain ⟨op, a, b, d, line⟩ := ins
      cases hop
      rfl
    rw [Image.interpret, hstep]
    rintro _ ⟨⟩
    exact .inl ⟨rfl, hcase ⟨ins, hins, hop⟩⟩
  · have hend := h.step hins hop s hs
    have hflow {f : Flow} {t : State} {j : Nat} (hstep : RegisterVM.step r i ins s = .ok f t)
        (hj : f.goesTo? i = some j) : IsCase r.code j → r.EntersCases :=
      Routine.entersCases_of_flow hins (Routine.mem_flowTargets_of_step hins hstep hj)
    unfold Image.interpret
    cases hstep : RegisterVM.step r i ins s with
    | error f t =>
      rw [hstep] at hend
      rintro _ ⟨⟩
      exact RunError.expected_ofFailure hend.1 i
    | ok f t =>
      rw [hstep] at hend
      cases f with
      | next => exact ⟨.interpreting (hflow hstep rfl), hend⟩
      | jump target => exact ⟨.interpreting (hflow hstep rfl), hend⟩
      | ret v => exact fun e he => nomatch he

section

variable {plan : Native.Plan} {segment : CompiledSegment} {vars : Array Words}

/-- The end of compiled code, where it asks for nothing or for a return of the segment. -/
theorem secure_close (h : Secures r c I F) (hplan : Native.IsPlan r c.config plan)
    (hlowered : Native.Lowered r plan segment.code) (hlength : segment.length = plan.range.length)
    (hcase : IsCase r.code plan.range.first → r.EntersCases) {a : Native.Activation} (ha : I a.state)
    (status : Int32) {exit : Option Nat}
    (hexit : ∀ k, exit = some k → ∃ ins, r.code[k]? = some ins ∧ ins.opcode = .ret) :
    (match segment.code.close a status exit with
      | (e, s) => Image.resume r plan.range.first segment e s).Secure r c I F := by
  have hback : Within (fun a : Native.Activation => I a.state) F segment.code.storeBack := by
    refine .forM fun ⟨x, tag⟩ hx => .bind (.bind .get fun _ => .pure _) fun w => Native.within_onState ?_
    exact h.flush hplan (x, tag) (hlowered.flush ▸ hx) w
  have hend := hback a ha
  unfold Native.Code.close
  cases hclose : segment.code.storeBack a with
  | error f b =>
    rw [hclose] at hend
    rintro _ ⟨⟩
    exact RunError.expected_ofFailure hend.1 _
  | ok _ b =>
    rw [hclose] at hend
    dsimp only [Image.resume]
    split
    · rintro _ ⟨⟩
      trivial
    · cases exit with
      | none =>
        have hbehind : plan.range.first + segment.length = plan.range.last + 1 := by
          have := hplan.nonempty
          rw [hlength, IndexRange.length]
          omega
        refine ⟨.interpreting fun hlast => hcase (hplan.isCase_first ?_), hend⟩
        rwa [hbehind] at hlast
      | some k =>
        obtain ⟨ins, hins, hop⟩ := hexit k rfl
        dsimp only
        rw [hins]
        refine h.secure_interpret hins ?_ hend
        rintro ⟨ins', hins', hop'⟩
        rw [hins, Option.some.injEq] at hins'
        rw [← hins', hop] at hop'
        cases hop'

/-- A step inside compiled code. -/
theorem secure_compiled (h : Secures r c I F) (hfound : plan.range ∈ c.finder.find r.code r.types)
    (hplan : Native.IsPlan r c.config plan)
    (hlowered : Native.Lowered r plan segment.code) (hlength : segment.length = plan.range.length)
    (hcase : IsCase r.code plan.range.first → r.EntersCases) (hfirst : plan.range.first ≤ i) (hs : I s) :
    (m.advance r ⟨.compiled plan.range.first segment i vars, s⟩).Secure r c I F := by
  have hclose {a : Native.Activation} (ha : I a.state) (status : Int32) {exit : Option Nat}
      (hexit : ∀ k, exit = some k → ∃ ins, r.code[k]? = some ins ∧ ins.opcode = .ret) :=
    h.secure_close hplan hlowered hlength hcase ha status hexit
  unfold Image.advance Native.Code.advance
  dsimp only
  by_cases hlast : segment.code.range.last < i
  · rw [if_pos hlast]
    exact hclose hs 0 (by rintro _ ⟨⟩)
  · rw [if_neg hlast]
    rw [hlowered.range, Nat.not_lt] at hlast
    have hmem : i ∈ plan.range := ⟨hfirst, hlast⟩
    have hins := Array.getElem?_eq_getElem (hlast.trans_lt hplan.bounded)
    obtain ⟨st, hst, hemits⟩ := hlowered.steps i hmem _ hins
    have hform := hemits.form hplan
    obtain ⟨hops, hresolve⟩ := h.perform hplan hins hform
    have hperform : segment.code.perform r.constants i ⟨vars, s⟩ =
        (Native.performAll r.constants st.ops >>= fun _ => st.next.resolve i) ⟨vars, s⟩ :=
      congrFun (Native.Code.perform_of_step? hst) _
    have hwithin := Within.bind (Within.forM hops) fun _ => hresolve
    cases hcontrol : segment.code.perform r.constants i ⟨vars, s⟩ with
    | error f a =>
      rw [hperform] at hcontrol
      have hfailed : F f ∧ I a.state := Triple.error hwithin hs hcontrol
      cases f with
      | code e => exact hclose hfailed.2 (e.pack i) (by rintro _ ⟨⟩)
      | notExecutable op =>
        rintro _ ⟨⟩
        exact .inr hfailed.1
      | fault f =>
        rintro _ ⟨⟩
        exact hfailed.1
    | ok control a =>
      rw [hperform] at hcontrol
      have hkept : I a.state := Triple.ok hwithin hs hcontrol
      obtain ⟨_, b, -, hresolved⟩ := exists_of_bind_eq_ok hcontrol
      rcases Native.Next.resolve_eq_ok hresolved with ⟨hnext, rfl⟩ | ⟨t, ht, rfl⟩
      · refine hclose hkept 0 ?_
        rintro _ ⟨⟩
        exact ⟨_, hins, hform.opcode_of_leave hnext⟩
      · cases t with
        | exit => exact hclose hkept 0 (by rintro _ ⟨⟩)
        | block j =>
          obtain ⟨hlow, hhigh⟩ := hform.lands hmem _ ht j rfl
          exact ⟨.compiled hfound hplan hlowered hlength hcase hlow hhigh, hkept⟩

end

/-- **One step of a run.** -/
theorem secure_advance (h : Secures r c I F) (hm : m.Executes r c) {x : Running} (hx : Placed r c x)
    (hs : I x.state) : (m.advance r x).Secure r c I F := by
  cases hx with
  | @interpreting i s case =>
    unfold Image.advance
    dsimp only
    cases himage : m.code[i]? with
    | none => exact fun e he => nomatch he
    | some ins =>
      dsimp only
      by_cases hmarker : ins.opcode = .callSegment
      · obtain ⟨segment, range, hsegment, hcompiles, rfl, hlength⟩ := hm.marked himage hmarker
        obtain ⟨plan, rfl, hplan, hlowered⟩ := hcompiles.exists_plan
        rw [if_pos hmarker, hsegment]
        dsimp only
        have henter : Within (fun a : Native.Activation => I a.state) F
            (segment.code.entry.forM fun x => do Native.setVar x (← Native.slot x).words : Native.NativeM Unit) := by
          refine .forM fun x hx => .bind (Native.within_onState (h.enter hplan x (hlowered.entry ▸ hx))) fun v => ?_
          exact .modify fun a ha => ha
        have hend := henter ⟨Array.replicate segment.code.width ⟨0, 0⟩, s⟩ hs
        unfold Native.Code.enter
        revert hend
        generalize (segment.code.entry.forM fun x => do Native.setVar x (← Native.slot x).words : Native.NativeM Unit)
          ⟨Array.replicate segment.code.width ⟨0, 0⟩, s⟩ = result
        cases result with
        | ok _ a =>
          intro hend
          have hfirst : segment.code.range.first = plan.range.first := congrArg IndexRange.first hlowered.range
          dsimp only
          rw [hfirst]
          exact ⟨.compiled hcompiles.found hplan hlowered hlength case le_rfl (Nat.le_succ_of_le hplan.nonempty), hend⟩
        | error f a =>
          rintro hend _ ⟨⟩
          exact RunError.expected_ofFailure hend.1 _
      · rw [if_neg hmarker]
        exact h.secure_interpret (hm.plain himage hmarker) case hs
  | compiled found isPlan lowered length case first_le le_last =>
    exact h.secure_compiled found isPlan lowered length case first_le hs

/-- **How a run ends.** -/
theorem expected (h : Secures r c I F) (hm : m.Executes r c) (hs : I s) {n : Nat} {o : Outcome}
    (ho : m.run r n s = some o) : ∀ e, o.result = .error e → e.Expected r F := by
  refine iterate_invariant (I := fun x => Placed r c x ∧ I x.state)
    (Q := fun o => ∀ e, o.result = .error e → e.Expected r F) ?_ ?_ ⟨.start r c s, hs⟩ ho
  · rintro x y ⟨hx, hs⟩ hy
    have hsecure := h.secure_advance hm hx hs
    rwa [hy] at hsecure
  · rintro x o ⟨hx, hs⟩ ho
    have hsecure := h.secure_advance hm hx hs
    rwa [ho] at hsecure

end Secures

/-- The machines a run comes to. -/
inductive Image.Visits (m : Image) (r : Routine) (start : State) : Running → Prop
  | start : Visits m r start ⟨.interpreting 0, start⟩
  | next {x y : Running} (before : Visits m r start x) (here : m.advance r x = .next y) : Visits m r start y

/-- **What holds all along a run.** -/
theorem Secures.visited {r : Routine} {c : Compiler} {I : State → Prop} {F : Failure → Prop}
    (h : Secures r c I F) {m : Image} (hm : m.Executes r c) {start : State} (hstart : I start) {x : Running}
    (hx : m.Visits r start x) : Placed r c x ∧ I x.state := by
  induction hx with
  | start => exact ⟨.start r c start, hstart⟩
  | next before here ih =>
    have hsecure := h.secure_advance hm ih.1 ih.2
    rwa [here] at hsecure

end RegisterVM
