import RegisterVM.Proofs.CompiledStep
import RegisterVM.Proofs.DataflowPaths

/-!
# Running a compiled segment

Inside a segment an activation holds every live register of the interpreter somewhere: without a
variable in its slot, on the stack in its variable, carried directly in its slot until the one definition
was passed and in its variable from then on (`Covers`). The register of a fused comparison is the
exception: between the comparison and its test it is nowhere, and the condition that waits has its value
(`Inside`).

Entering a segment establishes this, every step keeps it as long as control stays inside, and wherever
control leaves, the variables stored back make every live register's slot current.
-/

namespace RegisterVM
namespace Native

/-! ### Where live registers are -/

/-- Where a register with a variable is current before index `i`. -/
def Held (r : Routine) (plan : Plan) (i : Nat) (V K : Nat → Prop) (q : Nat) : Storage → Prop
  | .stack false _ => V q ∧ K q
  | .stack true _ => V q
  | .direct d w =>
    K q ∧ (i ∈ plan.range →
      Relation.ReflTransGen (Dataflow.Avoids r.code plan.range d) plan.range.first i) ∨
    V q ∧ (w = true → K q)

/-- The register of a fused comparison whose test is at index `i`. -/
def Skips (r : Routine) (plan : Plan) (i : Nat) (q : Reg) : Prop :=
  ∃ d ∈ plan.fused, d + 1 = i ∧ ∃ cmp, r.code[d]? = some cmp ∧ q = cmp.rc

/-- **Every register that is live before index `i` is current** where its plan keeps it. -/
def Covers (r : Routine) (plan : Plan) (i : Nat) (V K : Nat → Prop) : Prop :=
  ∀ q : Reg, r.LiveAt i q.toNat → ¬Skips r plan i q →
    (plan.register? q = none → K q.toNat) ∧
      ∀ x, plan.register? q = some x → Held r plan i V K q.toNat x.storage

section

variable {r : Routine} {config : Config} {plan : Plan} {i j : Nat} {ins : Instruction}
  {V K V' K' : Nat → Prop} {q : Reg}

/-- No register is skipped but by a test. -/
theorem not_skips_of_opcode (hplan : IsPlan r config plan) (hins : r.code[i]? = some ins)
    (hop : ins.opcode ≠ .test .bool) : ¬Skips r plan i q := by
  rintro ⟨d, hd, heq, -⟩
  exact succ_ne_of_fused hplan hins hop d hd heq

/-- The register of a fused comparison is dead behind the test. -/
theorem not_liveAt_of_skips (hplan : IsPlan r config plan) (h : Skips r plan i q)
    (hj : j ∈ successors r.code i) : ¬r.LiveAt j q.toNat := by
  obtain ⟨d, hd, rfl, cmp, hcmp, rfl⟩ := h
  obtain ⟨cmp', test, hfuses⟩ := hplan.exists_fuses hd
  have heq := hfuses.compareAt
  rw [hcmp, Option.some.injEq] at heq
  subst heq
  intro hlive
  have hdead := hfuses.dead j (eq_of_mem_successors_test hfuses.testAt hfuses.opcode hj)
  rw [Routine.liveAt_toNat.1 hlive] at hdead
  cases hdead

/-- **What one instruction does to what is covered.** Registers it does not write stay where they are; one
it writes must be given a place, unless it is the register of a fused comparison. -/
theorem Covers.next (hregs : r.types.size ≤ UInt16.size) (hplan : IsPlan r config plan)
    (h : Covers r plan i V K) (hi : i ∈ plan.range) (hins : r.code[i]? = some ins)
    (hj : j < r.code.size → j ∈ successors r.code i)
    (hkeep : ∀ n, n ∉ ins.writes → (V n → V' n) ∧ (K n → K' n))
    (hgiven : ∀ q : Reg, q.toNat ∈ ins.writes → ¬Skips r plan j q →
      V' q.toNat ∧ (plan.register? q = none ∨ plan.through q ≠ [] → K' q.toNat)) :
    Covers r plan j V' K' := by
  intro q hlive hskip
  have hlt : j < r.code.size := by
    by_contra hge
    exact Routine.not_liveAt_of_size_le (by omega) _ hlive
  by_cases hwritten : q.toNat ∈ ins.writes
  · obtain ⟨hV, hK⟩ := hgiven q hwritten hskip
    refine ⟨fun hnone => hK (.inl hnone), fun x hx => ?_⟩
    have hdef : q ∈ ins.defs := by
      rw [← Routine.map_defs hregs hins, List.mem_map] at hwritten
      obtain ⟨q', hq', heq⟩ := hwritten
      exact UInt16.toNat_inj.1 heq ▸ hq'
    obtain ⟨tag, storage⟩ := x
    cases storage with
    | stack defined flush =>
      cases defined with
      | false => exact absurd rfl (hplan.storage_ne_of_defs hi hins hdef hx flush)
      | true => exact hV
    | direct d w =>
      refine .inr ⟨hV, ?_⟩
      rintro rfl
      exact hK (.inr (by rw [Plan.through, hx]; exact List.cons_ne_nil _ _))
  · have hbefore : r.LiveAt i q.toNat := (Routine.liveAt_of_successors hregs hins (hj hlt) hlive).resolve_right hwritten
    have hskip' : ¬Skips r plan i q := fun hskip => not_liveAt_of_skips hplan hskip (hj hlt) hlive
    obtain ⟨hslot, hheld⟩ := h q hbefore hskip'
    obtain ⟨hkeepV, hkeepK⟩ := hkeep _ hwritten
    refine ⟨fun hnone => hkeepK (hslot hnone), fun x hx => ?_⟩
    have hheld := hheld x hx
    obtain ⟨tag, storage⟩ := x
    cases storage with
    | stack defined flush =>
      cases defined with
      | false => exact ⟨hkeepV hheld.1, hkeepK hheld.2⟩
      | true => exact hkeepV hheld
    | direct d w =>
      rcases hheld with ⟨hK, hway⟩ | ⟨hV, hK⟩
      · refine .inl ⟨hkeepK hK, fun hmem => (hway hi).tail ⟨?_, hj hlt, IndexRange.contains_iff.2 hmem⟩⟩
        rintro rfl
        obtain ⟨-, ins', hins', hdef⟩ := ((hplan.carriedFrom hx rfl).defined_iff i).2 rfl
        rw [hins, Option.some.injEq] at hins'
        subst hins'
        exact hwritten (Routine.map_defs hregs hins ▸ List.mem_map_of_mem hdef)
      · exact .inr ⟨hkeepV hV, fun hw => hkeepK (hK hw)⟩

/-- **What an instruction uses can be used.** -/
theorem Covers.usable (hplan : IsPlan r config plan)
    (h : Covers r plan i V K) (hi : i ∈ plan.range) (hins : r.code[i]? = some ins) (hq : q ∈ ins.uses)
    (hskip : ¬Skips r plan i q) : Usable plan V K q := by
  have hlive : r.LiveAt i q.toNat := Routine.liveAt_toNat.2 (Dataflow.isLiveIn_of_uses hins hq)
  obtain ⟨hslot, hheld⟩ := h q hlive hskip
  refine ⟨fun x hx => ?_, hslot⟩
  have hheld := hheld x hx
  obtain ⟨tag, storage⟩ := x
  cases storage with
  | stack defined flush =>
    cases defined with
    | false => exact ⟨hheld.1, fun _ => hheld.2⟩
    | true =>
      refine ⟨hheld, fun hops => ?_⟩
      rw [Plan.syncOps, hx] at hops
      cases hops
  | direct d w =>
    -- the slot can only be current before the definition, which comes before every use
    rcases hheld with ⟨-, hway⟩ | ⟨hV, hK⟩
    · exact absurd (hway hi) ((hplan.carriedFrom hx rfl).dominates i ⟨IndexRange.contains_iff.2 hi, ins, hins, hq⟩)
    · refine ⟨hV, fun hops => ?_⟩
      cases w with
      | true => exact hK rfl
      | false =>
        rw [Plan.syncOps, hx] at hops
        cases hops

end

/-! ### Entering and leaving -/

/-- **An interpreter before index `i` and an activation inside the segment.** The condition that waits for
a test has the truth of the register the test reads. -/
structure Inside (r : Routine) (plan : Plan) (i : Nat) (s : State) (a : Activation) : Prop where
  first_le : plan.range.first ≤ i
  le_last : i ≤ plan.range.last + 1
  notCase : i ∈ plan.range → ¬IsCase r.code i
  current : ∃ V K, Mirrors r plan V K s a ∧ Covers r plan i V K
  waiting : ∀ e ins, awaited r plan i = some e → r.code[i]? = some ins → ∃ v,
    s.frame.registers[placeOf ins.a]? = some v ∧ eval e a = .ok (.single (Words.ofBool v.words.bool)) a

section

variable {r : Routine} {config : Config} {plan : Plan} {code : Code} {i : Nat} {ins : Instruction}
  {s u : State} {a : Activation}

/-- The registers that are loaded on entry are those kept on the stack. -/
theorem mem_entryRegisters (hplan : IsPlan r config plan) {q : Reg} :
    q ∈ plan.entryRegisters ↔ ∃ tag defined flush, plan.register? q = some ⟨tag, .stack defined flush⟩ := by
  unfold Plan.entryRegisters
  rw [List.mem_filterMap]
  constructor
  · rintro ⟨⟨q', tag, storage⟩, hmem, heq⟩
    cases storage with
    | stack defined flush =>
      cases heq
      exact ⟨tag, defined, flush, hplan.mem_registers_iff.1 hmem⟩
    | direct d w => cases heq
  · rintro ⟨tag, defined, flush, hq⟩
    exact ⟨_, hplan.mem_registers_iff.2 hq, rfl⟩

/-- The registers that are flushed are those kept on the stack to be. -/
theorem mem_flushedRegisters (hplan : IsPlan r config plan) {q : Reg} {tag : ScalarTag} :
    (q, tag) ∈ plan.flushedRegisters ↔ ∃ defined, plan.register? q = some ⟨tag, .stack defined true⟩ := by
  unfold Plan.flushedRegisters
  rw [List.mem_filterMap]
  constructor
  · rintro ⟨⟨q', tag', storage⟩, hmem, heq⟩
    cases storage with
    | direct d w => cases heq
    | stack defined flush =>
      cases flush with
      | false => cases heq
      | true =>
        cases heq
        exact ⟨defined, hplan.mem_registers_iff.1 hmem⟩
  · rintro ⟨defined, hq⟩
    exact ⟨_, hplan.mem_registers_iff.2 hq, rfl⟩

/-- **Entering a segment.** -/
theorem exists_enter (hplan : IsPlan r config plan) (hlowered : Lowered r plan code) (hs : s.Typed r)
    (halike : s.Alike false (r.LiveAt plan.range.first) u) (hcase : ¬IsCase r.code plan.range.first) :
    ∃ a, code.enter u = .ok () a ∧ Inside r plan plan.range.first s a := by
  have hnonempty := hplan.nonempty
  have hstart := Mirrors.start hplan hs halike
  obtain ⟨a, ha, -, hmirrors⟩ := hstart.load plan.entryRegisters fun q hq => by
    obtain ⟨tag, defined, flush, hx⟩ := (mem_entryRegisters hplan).1 hq
    exact ⟨_, hx⟩
  refine ⟨a, ?_, le_rfl, by omega, fun _ => hcase, ⟨_, _, hmirrors, fun q hlive _ => ?_⟩, fun e ins he => ?_⟩
  · unfold Code.enter
    rw [hlowered.entry, hlowered.width]
    exact ha
  · refine ⟨fun _ => hlive, fun x hx => ?_⟩
    obtain ⟨tag, storage⟩ := x
    cases storage with
    | direct d w => exact .inl ⟨hlive, fun _ => .refl⟩
    | stack defined flush =>
      have hmem : q.toNat ∈ plan.entryRegisters.map UInt16.toNat :=
        List.mem_map_of_mem ((mem_entryRegisters hplan).2 ⟨tag, defined, flush, hx⟩)
      have hloaded : if q.toNat ∈ plan.entryRegisters.map UInt16.toNat
          then r.LiveAt plan.range.first q.toNat else False := by rwa [if_pos hmem]
      cases defined with
      | false => exact ⟨hloaded, hlive⟩
      | true => exact hloaded
  · rw [awaited_first hplan] at he
    cases he

/-- Where control leaves a segment: behind it, or at a return. -/
def LeavesAt (r : Routine) (plan : Plan) (i : Nat) : Prop :=
  i = plan.range.last + 1 ∨ i ∈ plan.range ∧ ∃ ins, r.code[i]? = some ins ∧ ins.opcode = .ret

/-- No register is skipped where control leaves. -/
theorem not_skips_of_leavesAt (hplan : IsPlan r config plan) (h : LeavesAt r plan i) (q : Reg) :
    ¬Skips r plan i q := by
  rcases h with rfl | ⟨-, ins, hins, hop⟩
  · rintro ⟨d, hd, heq, -⟩
    obtain ⟨cmp, test, hfuses⟩ := hplan.exists_fuses hd
    have := hfuses.inside.2.2
    omega
  · exact not_skips_of_opcode hplan hins (by rw [hop]; exact nofun)

/-- A register that is live where control leaves is live out of the range. -/
theorem isLiveOut_of_leavesAt (h : LeavesAt r plan i) {q : Reg} (hlive : r.LiveAt i q.toNat) :
    (Dataflow.ofCode r.code r.types.size).isLiveOut q plan.range = true := by
  have hlt : i < r.code.size := by
    by_contra hge
    exact Routine.not_liveAt_of_size_le (by omega) _ hlive
  refine List.any_eq_true.2 ⟨i, Dataflow.mem_exitPoints.2 ?_, Routine.liveAt_toNat.1 hlive⟩
  rcases h with rfl | hret
  · exact .inr ⟨rfl, hlt⟩
  · exact .inl hret

/-- **Leaving a segment.** With the variables stored back, every live register's slot is current. -/
theorem Inside.exists_storeBack (h : Inside r plan i s a) (hplan : IsPlan r config plan)
    (hlowered : Lowered r plan code) (hleaves : LeavesAt r plan i) :
    ∃ b, code.storeBack a = .ok () b ∧ s.Alike false (r.LiveAt i) b.state := by
  obtain ⟨V, K, hmirrors, hcovers⟩ := h.current
  obtain ⟨b, hb, hflushed⟩ := hmirrors.flush plan.flushedRegisters fun y hy => by
    obtain ⟨defined, hx⟩ := (mem_flushedRegisters hplan).1 hy
    exact ⟨_, hx, rfl⟩
  refine ⟨b, ?_, hflushed.alike.mono fun n hn => ?_⟩
  · unfold Code.storeBack
    rw [hlowered.flush]
    exact hb
  · obtain ⟨q, rfl⟩ : ∃ q : Reg, q.toNat = n := ⟨.ofNat n, UInt16.toNat_ofNat_of_lt' hn.1⟩
    have hmem : q.toNat ∈ plan.flushedRegisters.map (·.1.toNat) ↔
        ∃ tag defined, plan.register? q = some ⟨tag, .stack defined true⟩ := by
      rw [List.mem_map]
      constructor
      · rintro ⟨⟨q', tag⟩, hmem, heq⟩
        obtain rfl := UInt16.toNat_inj.1 heq
        exact ⟨tag, (mem_flushedRegisters hplan).1 hmem⟩
      · rintro ⟨tag, hq⟩
        exact ⟨(q, tag), (mem_flushedRegisters hplan).2 hq, rfl⟩
    obtain ⟨hslot, hheld⟩ := hcovers q hn (not_skips_of_leavesAt hplan hleaves q)
    have hout := isLiveOut_of_leavesAt hleaves hn
    cases hx : plan.register? q with
    | none =>
      rw [if_neg fun h => by obtain ⟨tag, defined, hq⟩ := hmem.1 h; rw [hx] at hq; cases hq]
      exact hslot hx
    | some x =>
      have hheld := hheld x hx
      obtain ⟨hdirect, hstack⟩ := hplan.liveOut hx
      obtain ⟨tag, storage⟩ := x
      cases storage with
      | direct d w =>
        rw [if_neg fun h => by obtain ⟨tag, defined, hq⟩ := hmem.1 h; rw [hx] at hq; cases hq]
        rcases hheld with ⟨hK, -⟩ | ⟨-, hK⟩
        · exact hK
        · exact hK ((hdirect d w rfl).trans hout)
      | stack defined flush =>
        cases defined with
        | false =>
          split
          · exact hheld.1
          · exact hheld.2
        | true =>
          rw [if_pos (hmem.2 ⟨tag, true, by rw [hx, (hstack flush rfl).trans hout]⟩)]
          exact hheld

/-- After a failure the variables can still be stored back; nothing outside the register file changes. -/
theorem Fails.exists_storeBack (h : Fails r s a) (hplan : IsPlan r config plan)
    (hlowered : Lowered r plan code) :
    ∃ b, code.storeBack a = .ok () b ∧ s.WorldAlike false b.state := by
  have hflush : ∀ (xs : List (Reg × ScalarTag)) (a : Activation), Fails r s a →
      (∀ y ∈ xs, y.1.toNat < r.types.size) →
      ∃ b, (xs.forM fun y => var y.1 >>= fun w => onState (storeAt (.register y.1.toNat) y.2 w)) a =
        .ok () b ∧ s.WorldAlike false b.state := by
    intro xs
    induction xs with
    | nil => exact fun a h _ => ⟨a, rfl, h.1⟩
    | cons y xs ih =>
      rintro a ⟨hworld, hsize⟩ hxs
      obtain ⟨q, tag⟩ := y
      have hv := Array.getElem?_eq_getElem (hsize ▸ hxs _ List.mem_cons_self)
      obtain ⟨a', hstore, hfails⟩ : ∃ a', (var q >>= fun w =>
          onState (storeAt (.register q.toNat) tag w)) a = .ok () a' ∧ Fails r s a' :=
        ⟨_, onState_storeAt hv tag (a.var q), { hworld with }, Array.size_modify.trans hsize⟩
      obtain ⟨b, hb, hworld'⟩ := ih a' hfails fun y hy => hxs y (List.mem_cons_of_mem _ hy)
      exact ⟨b, (bind_of_ok hstore).trans hb, hworld'⟩
  unfold Code.storeBack
  rw [hlowered.flush]
  refine hflush _ a h fun y hy => ?_
  obtain ⟨defined, hx⟩ := (mem_flushedRegisters hplan).1 hy
  obtain ⟨-, htag, -⟩ := hplan.register?_eq_some_iff.1 hx
  obtain ⟨t, ht, -⟩ := Option.bind_eq_some_iff.1 htag
  exact (Array.getElem?_eq_some_iff.1 ht).1

end

end Native

end RegisterVM
