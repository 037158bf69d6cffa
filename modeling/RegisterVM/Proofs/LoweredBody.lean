import RegisterVM.Proofs.Lowering

/-!
# The body of compiled code

Lowering that succeeds has emitted, for every instruction of its range, the step one expects: the checks
on operands and branch targets leave no trace but the operations themselves (`emit_read` and the like),
and a branch lands where the plan says (`Plan.landing`).

The condition of a fused comparison waits for the test right after it and for nothing else: before index
`i`, what is pending is exactly `awaited r plan i`.
-/

namespace RegisterVM
namespace Native

/-! ### What is emitted -/

/-- The condition of a comparison. -/
def condition (ins : Instruction) : Expr :=
  match ins.opcode with
  | .compareInt rel => .compareInt rel ins.ra ins.rb
  | .compareFloat rel => .compareFloat rel ins.ra ins.rb
  | .compareComplex rel => .compareComplex rel ins.ra ins.rb
  | .compareString rel => .compareString rel ins.ra ins.rb
  | _ => .const ⟨0, 0⟩

section Emit

variable {S : Site} {q x y : Reg} {kind source target : ScalarKind} {p p' : Progress} {ops : List Op}

/-- A write emits an assignment, and a store if the slot has to be current. -/
theorem emit_write {e : Expr} (h : S.write q kind e p = .ok (ops, p')) :
    ops = .assign q e :: S.plan.through q := (Site.write_eq_ok_iff.1 h).2.1

/-- What is emitted behind the check of an operand. -/
theorem emit_read {α : Type} {z : α} {f : Reg → LowerM α} (h : (S.read q kind >>= f) p = .ok (z, p')) :
    f q p = .ok (z, p') := by
  obtain ⟨_, _, hread, hrest⟩ := exists_of_lower_bind h
  obtain ⟨rfl, rfl, -⟩ := Site.read_eq_ok_iff.1 hread
  exact hrest

/-- What is emitted ends with picking up the register. -/
theorem emit_reload {f : List Op → List Op}
    (h : (S.reload q >>= fun rest => pure (f rest)) p = .ok (ops, p')) :
    ops = f (S.plan.reloadOps q) := by
  obtain ⟨rest, _, hrest, hpure⟩ := exists_of_lower_bind h
  rw [Site.reload_eq] at hrest
  cases hrest
  cases hpure
  rfl

/-- What is emitted behind the store of an operand. -/
theorem emit_sync {f : List Op → LowerM (List Op)} (h : (S.sync q >>= f) p = .ok (ops, p')) :
    f (S.plan.syncOps q) p = .ok (ops, p') := by
  obtain ⟨_, _, hsync, hrest⟩ := exists_of_lower_bind h
  obtain ⟨rfl, rfl, -⟩ := Site.sync_eq_ok_iff.1 hsync
  exact hrest

/-- A requirement emits nothing. -/
theorem emit_require {provided : Bool} {f : Unit → LowerM (List Op)}
    (h : (S.require provided >>= f) p = .ok (ops, p')) : f () p = .ok (ops, p') := by
  cases provided with
  | true => exact h
  | false => cases h

/-- Index registers are read as they are, all of the count. -/
theorem emit_indices {base : Reg} {count : Int32} {f : List Reg → LowerM (List Op)}
    (h : (S.indices base count >>= f) p = .ok (ops, p')) :
    f (indexRegisters base count) p = .ok (ops, p') := by
  have hread : ∀ (qs : List Reg) (is : List Reg) (p' : Progress),
      qs.mapM (fun q => S.read q .int) p = .ok (is, p') → is = qs ∧ p' = p := by
    intro qs
    induction qs with
    | nil =>
      rintro _ _ ⟨⟩
      exact ⟨rfl, rfl⟩
    | cons q qs ih =>
      intro is p' h
      rw [List.mapM_cons] at h
      obtain ⟨rest, p'', hrest, hpure⟩ := exists_of_lower_bind (emit_read h)
      obtain ⟨rfl, rfl⟩ := ih rest p'' hrest
      cases hpure
      exact ⟨rfl, rfl⟩
  obtain ⟨is, _, his, hrest⟩ := exists_of_lower_bind h
  obtain ⟨rfl, rfl⟩ := hread _ is _ his
  exact hrest

/-- The tag asked for is that of the planned register. -/
theorem emit_tagOf {f : ScalarTag → LowerM (List Op)} (h : (S.tagOf q >>= f) p = .ok (ops, p')) :
    ∃ y, S.plan.register? q = some y ∧ f y.tag p = .ok (ops, p') := by
  obtain ⟨tag, _, htag, hrest⟩ := exists_of_lower_bind h
  unfold Site.tagOf at htag
  cases hq : S.plan.register? q with
  | none =>
    rw [hq] at htag
    cases htag
  | some y =>
    rw [hq] at htag
    cases htag
    exact ⟨y, rfl, hrest⟩

/-- The constant asked for is that of the routine. -/
theorem emit_constant {α : Type} {z : α} {k : Int32} {f : Value → LowerM α}
    (h : (S.constant k >>= f) p = .ok (z, p')) :
    ∃ v, S.routine.constants[placeOf k]? = some v ∧ f v p = .ok (z, p') := by
  obtain ⟨v, _, hconstant, hrest⟩ := exists_of_lower_bind h
  unfold Site.constant at hconstant
  cases hv : S.routine.constants[placeOf k]? with
  | none =>
    rw [hv] at hconstant
    cases hconstant
  | some v =>
    rw [hv] at hconstant
    cases hconstant
    exact ⟨v, rfl, hrest⟩

/-- An immediate emits an assignment of its words. -/
theorem emit_data {ins : Instruction} (hop : ins.opcode = .data) (h : S.operations ins p = .ok (ops, p')) :
    ∃ kind, (Tag.ofCode? ins.a.toUInt32.toNat).bind Tag.immediateKind? = some kind ∧
      ops = .assign ins.rc (.const (Site.immediate ins kind)) :: S.plan.through ins.rc := by
  unfold Site.operations at h
  rw [hop] at h
  dsimp only at h
  cases hkind : (Tag.ofCode? ins.a.toUInt32.toNat).bind Tag.immediateKind? with
  | none =>
    rw [hkind] at h
    cases h
  | some kind =>
    rw [hkind] at h
    exact ⟨kind, rfl, emit_write h⟩

/-- A mathematical function emits a call of it. -/
theorem emit_math {ins : Instruction} (hop : ins.opcode = .math) (h : S.operations ins p = .ok (ops, p')) :
    ∃ f, MathFn.ofNumber? ins.a.toInt = some f ∧
      ops = .assign ins.rc (.math f ins.rb) :: S.plan.through ins.rc := by
  unfold Site.operations at h
  rw [hop] at h
  dsimp only at h
  cases hf : MathFn.ofNumber? ins.a.toInt with
  | none =>
    rw [hf] at h
    cases h
  | some f =>
    rw [hf] at h
    exact ⟨f, rfl, emit_write (emit_read h)⟩

/-- Storing into a list makes the slot of the source current first. -/
theorem emit_listSet {ins : Instruction} {element : ElementKind} (hop : ins.opcode = .listSet element)
    (h : S.operations ins p = .ok (ops, p')) :
    ops = S.plan.syncOps ins.ra ++ [.listSet ins.rc ins.rb ins.ra] := by
  unfold Site.operations at h
  rw [hop] at h
  obtain ⟨z, -, h⟩ := emit_tagOf h
  change (if z.tag.kind ≠ element.scalar then _ else _ : LowerM (List Op)) p = _ at h
  split at h
  · cases h
  · cases emit_read (emit_sync h)
    rfl

/-- A comparison emits nothing if it is fused. -/
theorem operations_of_comparison {ins : Instruction} (hop : ins.opcode.isComparison = true) :
    S.operations ins = (S.comparison ins >>= fun e =>
      if S.plan.fused.contains S.index = true then
        (modify fun p => { p with pending := some e }) >>= fun _ => pure []
      else S.write ins.rc .bool e) := by
  obtain ⟨op, x, y, c, line⟩ := ins
  cases op <;> first | rfl | cases hop

/-- The step of a comparison falls through. -/
theorem step_of_comparison {ins : Instruction} (hop : ins.opcode.isComparison = true) :
    S.step ins = (S.operations ins >>= fun ops => pure ⟨ops, .fall⟩) := by
  obtain ⟨op, x, y, c, line⟩ := ins
  cases op <;> first | rfl | cases hop

/-- The condition of a comparison depends on the instruction alone. -/
theorem emit_comparison {ins : Instruction} {e : Expr} (h : S.comparison ins p = .ok (e, p')) :
    e = condition ins ∧ p' = p := by
  obtain ⟨op, a, b, c, line⟩ := ins
  cases op with
  | compareInt rel =>
    cases emit_read (emit_read h)
    exact ⟨rfl, rfl⟩
  | compareFloat rel =>
    cases emit_read (emit_read h)
    exact ⟨rfl, rfl⟩
  | compareComplex rel =>
    cases emit_read (emit_read h)
    exact ⟨rfl, rfl⟩
  | compareString rel =>
    cases h
    exact ⟨rfl, rfl⟩
  | _ => cases h

/-- A branch goes where the plan lets it land. -/
theorem emit_target {α : Type} {z : α} {t : Nat} {f : Target → LowerM α}
    (h : (S.target t >>= f) p = .ok (z, p')) : f (S.plan.landing t) p = .ok (z, p') := by
  obtain ⟨x, _, hx, hrest⟩ := exists_of_lower_bind h
  obtain ⟨htarget, rfl⟩ := Site.target_eq_ok_iff.1 hx
  unfold Plan.target at htarget
  unfold Plan.landing
  by_cases hexit : t = S.plan.range.last + 1
  · rw [if_pos hexit] at htarget ⊢
    cases htarget
    exact hrest
  · rw [if_neg hexit] at htarget ⊢
    by_cases hleader : S.plan.leaders.contains t = true
    · rw [if_pos hleader] at htarget
      cases htarget
      exact hrest
    · rw [if_neg hleader] at htarget
      cases htarget

end Emit

/-! ### Dispatch tables -/

/-- The first entry of a switch for a key. -/
def firstCase (r : Routine) (key : Int64) (entries : List Instruction) : Option Instruction :=
  entries.find? fun e => (r.constants[placeOf e.a]?).bind Value.int? = some key

section

variable {S : Site} {p p' : Progress} {entries : List Instruction} {table table' : List (Int64 × Target)}

/-- Lowering one more entry of a switch. -/
theorem emit_caseTable {entry : Instruction}
    (h : S.caseTable (entry :: entries) table p = .ok (table', p')) :
    ∃ v, S.routine.constants[placeOf entry.a]? = some v ∧
      match v.int? with
      | none => S.caseTable entries table p = .ok (table', p')
      | some key => S.caseTable entries (if table.any (·.1 == key) then table
          else (key, S.plan.landing entry.target) :: table) p = .ok (table', p') := by
  unfold Site.caseTable at h
  obtain ⟨v, hv, hrest⟩ := emit_constant h
  refine ⟨v, hv, ?_⟩
  cases hkey : v.int? with
  | none =>
    rw [hkey] at hrest
    exact hrest
  | some key =>
    rw [hkey] at hrest
    dsimp only at hrest ⊢
    by_cases hany : table.any (·.1 == key) = true
    · rw [if_pos hany] at hrest ⊢
      exact hrest
    · rw [if_neg hany] at hrest ⊢
      exact emit_target hrest

/-- **The dispatch table sends a key where its first entry says.** -/
theorem find?_caseTable (h : S.caseTable entries table p = .ok (table', p')) (key : Int64) :
    (table'.find? (·.1 == key)).map (·.2) = ((table.reverse.find? (·.1 == key)).map (·.2)).or
      ((firstCase S.routine key entries).map fun e => S.plan.landing e.target) := by
  induction entries generalizing table with
  | nil =>
    cases h
    simp [firstCase]
  | cons entry rest ih =>
    obtain ⟨v, hv, hrest⟩ := emit_caseTable h
    unfold firstCase
    rw [List.find?_cons, hv]
    cases hkey : v.int? with
    | none =>
      rw [hkey] at hrest
      simpa [hkey, firstCase] using ih hrest
    | some found =>
      rw [hkey] at hrest
      rw [ih hrest]
      by_cases heq : found = key
      · subst heq
        simp only [Option.bind_some, hkey, decide_true]
        by_cases hany : table.any (·.1 == found) = true
        · rw [if_pos hany]
          have hfound : (table.reverse.find? (·.1 == found)).isSome = true := by
            rw [List.find?_isSome]
            simpa using hany
          obtain ⟨x, hx⟩ := Option.isSome_iff_exists.1 hfound
          rw [hx]
          rfl
        · rw [if_neg hany]
          have hnone : table.reverse.find? (·.1 == found) = none := by
            rw [List.find?_eq_none]
            exact fun x hx hkey => hany (List.any_eq_true.2 ⟨x, List.mem_reverse.1 hx, hkey⟩)
          simp [List.find?_append, hnone]
      · have hne : (found == key) = false := by simpa using heq
        simp only [Option.bind_some, hkey, Option.some.injEq, heq, decide_false]
        split
        · rfl
        · simp [List.find?_append, hne, firstCase]

/-- The interpreter finds the same entry. -/
theorem caseTarget?_eq (h : S.caseTable entries table p = .ok (table', p')) (key : Int64) (s : State) :
    Step.caseTarget? S.routine key entries s =
      .ok ((firstCase S.routine key entries).map Instruction.target) s := by
  induction entries generalizing table with
  | nil => rfl
  | cons entry rest ih =>
    obtain ⟨v, hv, hrest⟩ := emit_caseTable h
    have hconstant : Step.constant S.routine entry.a s = .ok v s := by
      unfold Step.constant
      rw [hv]
      rfl
    unfold Step.caseTarget? firstCase
    rw [List.find?_cons, hv]
    refine (bind_of_ok hconstant).trans ?_
    by_cases hkey : v.int? = some key
    · rw [if_pos hkey]
      simp only [Option.bind_some, hkey, decide_true]
      rfl
    · rw [if_neg hkey]
      simp only [Option.bind_some, hkey, decide_false]
      cases hint : v.int? with
      | none =>
        rw [hint] at hrest
        exact ih hrest
      | some found =>
        rw [hint] at hrest
        exact ih hrest

end

/-! ### What waits -/

/-- The condition that waits for instruction `i`: that of the comparison right before it, if it is fused. -/
def awaited (r : Routine) (plan : Plan) : Nat → Option Expr
  | 0 => none
  | d + 1 => if d ∈ plan.fused then (r.code[d]?).map condition else none

/-- Lowering that leaves what is pending as it is. -/
def KeepsPending {α : Type} (m : LowerM α) : Prop :=
  ∀ p a p', m p = .ok (a, p') → p'.pending = p.pending

namespace KeepsPending

variable {α β : Type} {S : Site}

/-- What keeps the pending condition does so in sequence. -/
theorem bind {m : LowerM α} {f : α → LowerM β} (hm : KeepsPending m) (hf : ∀ a, KeepsPending (f a)) :
    KeepsPending (m >>= f) := fun p b p'' h => by
  obtain ⟨a, p', ha, hb⟩ := exists_of_lower_bind h
  rw [hf a p' b p'' hb, hm p a p' ha]

/-- Returning leaves what is pending. -/
theorem pure (a : α) : KeepsPending (pure a) := by
  rintro p _ _ ⟨⟩
  rfl

/-- So does an error. -/
theorem throw (e : CodegenError) : KeepsPending (throw e : LowerM α) := fun p a p' h => by cases h

/-- So does blaming an operand. -/
theorem operandError (q : Reg) : KeepsPending (S.operandError q : LowerM α) := throw _

/-- So does reading a register. -/
theorem read (q : Reg) (kind : ScalarKind) : KeepsPending (S.read q kind) := fun p x p' h => by
  obtain ⟨-, rfl, -⟩ := Site.read_eq_ok_iff.1 h
  rfl

/-- Noting a definition leaves what is pending. -/
theorem noted (plan : Plan) (q : Reg) (p : Progress) : (plan.noted q p).pending = p.pending := by
  unfold Plan.noted
  split <;> rfl

/-- Writing a register leaves what is pending. -/
theorem write (q : Reg) (kind : ScalarKind) (e : Expr) : KeepsPending (S.write q kind e) :=
  fun p ops p' h => by
    obtain ⟨-, -, rfl⟩ := Site.write_eq_ok_iff.1 h
    exact noted _ q p

/-- So does making a slot current. -/
theorem sync (q : Reg) : KeepsPending (S.sync q) := fun p ops p' h => by
  obtain ⟨-, rfl, -⟩ := Site.sync_eq_ok_iff.1 h
  rfl

/-- So does picking a register up. -/
theorem reload (q : Reg) : KeepsPending (S.reload q) := fun p ops p' h => by
  rw [Site.reload_eq] at h
  cases h
  exact noted _ q p

/-- So does asking for a tag. -/
theorem tagOf (q : Reg) : KeepsPending (S.tagOf q) := by
  unfold Site.tagOf
  split
  · exact throw _
  · exact pure _

/-- So does looking a constant up. -/
theorem constant (x : Int32) : KeepsPending (S.constant x) := by
  unfold Site.constant
  split
  · exact pure _
  · exact throw _

/-- So does requiring something of the plan. -/
theorem require (provided : Bool) : KeepsPending (S.require provided) := by
  cases provided
  · exact throw _
  · exact pure _

/-- So does resolving a branch. -/
theorem target (t : Nat) : KeepsPending (S.target t) := by
  intro p x p' h
  obtain ⟨-, rfl⟩ := Site.target_eq_ok_iff.1 h
  rfl

/-- So does reading index registers. -/
theorem indices (base : Reg) (count : Int32) : KeepsPending (S.indices base count) := by
  unfold Site.indices
  induction indexRegisters base count with
  | nil => exact pure []
  | cons q qs ih =>
    rw [List.mapM_cons]
    exact .bind (read q .int) fun _ => .bind ih fun _ => pure _

/-- **Only a fused comparison leaves something to wait.** -/
theorem operations {ins : Instruction} (h : ins.opcode.isComparison = false) :
    KeepsPending (S.operations ins) := by
  obtain ⟨op, a, b, c, line⟩ := ins
  unfold Site.operations
  cases op with
  | compareInt rel => cases h
  | compareFloat rel => cases h
  | compareComplex rel => cases h
  | compareString rel => cases h
  | _ =>
    dsimp only
    repeat' first
      | with_reducible exact pure _
      | with_reducible exact read _ _
      | with_reducible exact write _ _ _
      | with_reducible exact sync _
      | with_reducible exact reload _
      | with_reducible exact tagOf _
      | with_reducible exact constant _
      | with_reducible exact require _
      | with_reducible exact indices _ _
      | with_reducible exact throw _
      | with_reducible exact operandError _
      | split
      | with_reducible refine .bind ?_ fun _ => ?_

/-- So does resolving a case table. -/
theorem caseTable (entries : List Instruction) (table : List (Int64 × Target)) :
    KeepsPending (S.caseTable entries table) := by
  induction entries generalizing table with
  | nil => exact pure _
  | cons entry rest ih =>
    unfold Site.caseTable
    refine .bind (constant entry.a) fun v => ?_
    cases v.int? with
    | none => exact ih table
    | some key =>
      dsimp only
      split
      · exact ih table
      · exact .bind (target entry.target) fun _ => ih _

/-- A step leaves what is pending alone, unless it is a comparison or a test that takes it. -/
theorem step {ins : Instruction} (h : ins.opcode.isComparison = false)
    (htest : ins.opcode ≠ .test .bool ∧ ins.opcode ≠ .test .int) : KeepsPending (S.step ins) := by
  have hoperations := operations (S := S) h
  obtain ⟨op, a, b, c, line⟩ := ins
  cases op with
  | goto => exact .bind (target _) fun _ => pure _
  | test kind =>
    cases kind with
    | bool => exact absurd rfl htest.1
    | int => exact absurd rfl htest.2
    | float => exact .bind (read _ _) fun _ => .bind (target _) fun _ => .bind (target _) fun _ => pure _
    | any => exact .bind hoperations fun _ => pure _
  | switch =>
    refine .bind (read _ _) fun _ => ?_
    dsimp only
    split
    · exact throw _
    · exact .bind (caseTable _ _) fun _ => .bind (target _) fun _ => pure _
  | ret => exact pure _
  | _ => exact .bind hoperations fun _ => pure _

end KeepsPending

section

variable {r : Routine} {config : Config} {plan : Plan} {i : Nat} {ins : Instruction} {p p' : Progress}
  {st : CodeStep}

/-- Nothing waits for an instruction that is not behind a fused comparison. -/
theorem awaited_eq_none (h : ∀ d ∈ plan.fused, d + 1 ≠ i) : awaited r plan i = none := by
  cases i with
  | zero => rfl
  | succ d => exact if_neg fun hd => h d hd rfl

/-- Nothing waits for the start of a block. -/
theorem awaited_of_leader (hplan : IsPlan r config plan) (hleader : plan.leaders.contains i = true) :
    awaited r plan i = none :=
  awaited_eq_none fun d hd heq => by
    obtain ⟨cmp, test, hfuses⟩ := hplan.exists_fuses hd
    rw [← heq, hfuses.notLeader] at hleader
    cases hleader

/-- Nothing waits for the first instruction. -/
theorem awaited_first (hplan : IsPlan r config plan) : awaited r plan plan.range.first = none :=
  awaited_of_leader hplan ((hplan.leaders _).2 ⟨⟨le_rfl, hplan.nonempty⟩, .inl rfl⟩)

/-- A branch never lands on the test of a fused comparison. -/
theorem awaited_of_target (hplan : IsPlan r config plan) {x : Target} (h : plan.target i = .ok x) :
    awaited r plan i = none := by
  unfold Plan.target at h
  split at h
  · rename_i hexit
    refine awaited_eq_none fun d hd heq => ?_
    obtain ⟨cmp, test, hfuses⟩ := hplan.exists_fuses hd
    have := hfuses.inside.2.2
    omega
  · split at h
    · rename_i hleader
      exact awaited_of_leader hplan hleader
    · cases h

/-- A test takes what is pending. -/
theorem pending_of_test {S : Site} (hop : ins.opcode = .test .bool ∨ ins.opcode = .test .int)
    (h : S.step ins p = .ok (st, p')) : p'.pending = none := by
  have hbranch (cond : Cond) (t : Nat) : KeepsPending (S.target t >>= fun taken =>
      S.target (S.index + 1) >>= fun next => pure (⟨[], .branch cond next taken⟩ : CodeStep)) :=
    .bind (.target _) fun _ => .bind (.target _) fun _ => .pure _
  obtain ⟨op, a, b, c, line⟩ := ins
  rcases hop with hop | hop
  · cases hop
    obtain ⟨e, _, htake, hrest⟩ := exists_of_lower_bind h
    cases htake
    cases hpending : p.pending with
    | some e =>
      rw [hpending] at hrest
      exact hbranch _ _ _ _ _ hrest
    | none =>
      rw [hpending] at hrest
      exact KeepsPending.bind (.read _ _) (fun _ => hbranch _ _) _ _ _ hrest
  · cases hop
    obtain ⟨e, _, htake, hrest⟩ := exists_of_lower_bind h
    cases htake
    exact KeepsPending.bind (.read _ _) (fun _ => hbranch _ _) _ _ _ hrest

/-- **What waits after an instruction is what the next one awaits.** -/
theorem pending_of_step (hplan : IsPlan r config plan) (hins : r.code[i]? = some ins)
    (hp : p.pending = awaited r plan i) (h : Site.step ⟨r, plan, i⟩ ins p = .ok (st, p')) :
    p'.pending = awaited r plan (i + 1) := by
  have hnone : ins.opcode ≠ .test .bool → p.pending = none := fun hop =>
    hp.trans (awaited_eq_none (succ_ne_of_fused hplan hins hop))
  by_cases hop : ins.opcode.isComparison = true
  · have htest : ins.opcode ≠ .test .bool := fun heq => by
      rw [heq] at hop
      cases hop
    rw [step_of_comparison hop, operations_of_comparison hop] at h
    obtain ⟨ops, _, hops, hpure⟩ := exists_of_lower_bind h
    cases hpure
    obtain ⟨e, _, he, hrest⟩ := exists_of_lower_bind hops
    obtain ⟨rfl, rfl⟩ := emit_comparison he
    change p'.pending = if i ∈ plan.fused then (r.code[i]?).map condition else none
    rw [hins]
    by_cases hfused : i ∈ plan.fused
    · rw [if_pos (List.contains_iff_mem.2 hfused)] at hrest
      rw [if_pos hfused]
      cases hrest
      rfl
    · rw [if_neg fun hmem => hfused (List.contains_iff_mem.1 hmem)] at hrest
      rw [if_neg hfused, KeepsPending.write _ _ _ _ _ _ hrest, hnone htest]
  · have hfused : i ∉ plan.fused := not_mem_fused hplan hins (by simpa using hop)
    have hnext : awaited r plan (i + 1) = none := if_neg hfused
    rw [hnext]
    by_cases htest : ins.opcode = .test .bool ∨ ins.opcode = .test .int
    · exact pending_of_test htest h
    · rw [not_or] at htest
      rw [KeepsPending.step (by simpa using hop) htest _ _ _ h, hnone htest.1]

/-- The step emitted for an instruction, with the right condition waiting. -/
def Emits (r : Routine) (plan : Plan) (i : Nat) (ins : Instruction) (st : CodeStep) : Prop :=
  ∃ p p', p.pending = awaited r plan i ∧ Site.step ⟨r, plan, i⟩ ins p = .ok (st, p')

/-- **One instruction is lowered to one step**, and then what the next one awaits is pending. -/
theorem emits_of_lowerNext (hplan : IsPlan r config plan) (hp : p.pending = awaited r plan i)
    {steps steps' : Array CodeStep} (h : lowerNext r plan steps i p = .ok (steps', p')) :
    ∃ ins st, r.code[i]? = some ins ∧ Emits r plan i ins st ∧ steps' = steps.push st ∧
      p'.pending = awaited r plan (i + 1) := by
  unfold lowerNext at h
  cases hins : r.code[i]? with
  | none =>
    rw [hins] at h
    split at h
    · obtain ⟨_, _, -, hrest⟩ := exists_of_lower_bind h
      cases hrest
    · cases h
  | some ins =>
    rw [hins] at h
    obtain ⟨q, hq, hrest⟩ : ∃ q : Progress, q.pending = awaited r plan i ∧
        (Site.step ⟨r, plan, i⟩ ins >>= fun st => pure (steps.push st)) q = .ok (steps', p') := by
      by_cases hi : plan.leaders.contains i = true
      · rw [if_pos hi] at h
        obtain ⟨_, _, hblock, hrest⟩ := exists_of_lower_bind h
        obtain ⟨-, -, rfl⟩ := Site.block_eq_ok_iff.1 hblock
        exact ⟨_, (awaited_of_leader hplan hi).symm, hrest⟩
      · rw [if_neg hi] at h
        exact ⟨p, hp, h⟩
    obtain ⟨st, _, hstep, hpure⟩ := exists_of_lower_bind hrest
    cases hpure
    exact ⟨ins, st, rfl, ⟨q, _, hq, hstep⟩, rfl, pending_of_step hplan hins hq hstep⟩

/-- The steps emitted for consecutive instructions. -/
theorem emits_of_foldlM (hplan : IsPlan r config plan) {n : Nat} (hp : p.pending = awaited r plan i)
    {steps steps' : Array CodeStep}
    (h : (List.range' i n).foldlM (lowerNext r plan) steps p = .ok (steps', p')) :
    (∀ k < steps.size, steps'[k]? = steps[k]?) ∧ ∀ k < n, ∃ ins st, r.code[i + k]? = some ins ∧
      Emits r plan (i + k) ins st ∧ steps'[steps.size + k]? = some st := by
  induction n generalizing i p steps with
  | zero =>
    cases h
    exact ⟨fun _ _ => rfl, fun k hk => absurd hk (Nat.not_lt_zero k)⟩
  | succ n ih =>
    rw [List.range'_succ, List.foldlM_cons] at h
    obtain ⟨next, _, hnext, hrest⟩ := exists_of_lower_bind h
    obtain ⟨ins, st, hins, hemits, rfl, hp'⟩ := emits_of_lowerNext hplan hp hnext
    obtain ⟨hkept, hlater⟩ := ih hp' hrest
    have hsize : (steps.push st).size = steps.size + 1 := Array.size_push _
    refine ⟨fun k hk => ?_, fun k hk => ?_⟩
    · rw [hkept k (by omega), Array.getElem?_push_lt hk, Array.getElem?_eq_getElem hk]
    · cases k with
      | zero => exact ⟨ins, st, hins, hemits, (hkept _ (by omega)).trans Array.getElem?_push_size⟩
      | succ k =>
        obtain ⟨ins', st', hins', hemits', hst'⟩ := hlater k (by omega)
        rw [hsize] at hst'
        refine ⟨ins', st', ?_, ?_, ?_⟩
        · rwa [show i + (k + 1) = i + 1 + k by omega]
        · rwa [show i + (k + 1) = i + 1 + k by omega]
        · rwa [show steps.size + (k + 1) = steps.size + 1 + k by omega]

/-- What compiled code has of the plan it was lowered from. -/
structure Lowered (r : Routine) (plan : Plan) (code : Code) : Prop where
  range : code.range = plan.range
  width : code.width = plan.width
  entry : code.entry = plan.entryRegisters
  flush : code.flush = plan.flushedRegisters
  steps : ∀ i ∈ plan.range, ∀ ins, r.code[i]? = some ins →
    ∃ st, code.step? i = some st ∧ Emits r plan i ins st

/-- **Every instruction has its step.** -/
theorem lowered_of_lower (hplan : IsPlan r config plan) {code : Code} (h : plan.lower r = .ok code) :
    Lowered r plan code := by
  unfold Plan.lower at h
  rw [if_neg hplan.leaders_ne_nil] at h
  obtain ⟨⟨steps, p'⟩, hsteps, hpure⟩ := exists_of_except_bind_eq_ok h
  cases hpure
  have hfirst : ({} : Progress).pending = awaited r plan plan.range.first :=
    (awaited_first hplan).symm
  obtain ⟨-, hbody⟩ := emits_of_foldlM hplan hfirst hsteps
  refine ⟨rfl, rfl, rfl, rfl, fun i hi ins hins => ?_⟩
  obtain ⟨hle, hlast⟩ := hi
  obtain ⟨ins', st, hins', hemits, hst⟩ := hbody (i - plan.range.first) (by unfold IndexRange.length; omega)
  rw [show plan.range.first + (i - plan.range.first) = i by omega] at hins' hemits
  rw [hins, Option.some.injEq] at hins'
  subst hins'
  refine ⟨st, ?_, hemits⟩
  unfold Code.step?
  rw [if_neg (by change ¬i < plan.range.first; omega)]
  simpa using hst

end

end Native

end RegisterVM
