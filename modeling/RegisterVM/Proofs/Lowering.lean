import RegisterVM.Native.Lower
import RegisterVM.Proofs.DeadRegisters
import RegisterVM.Proofs.SegmentPlan

/-!
# What lowering can fail for

Lowering asks of every operand that it is planned with the right kind, and of a register carried
directly that it was defined by an earlier instruction. The second always holds: lowering in index
order has passed the one definition before any use (`Ready`); only a fused comparison leaves its register
undefined, and no instruction but the test right after it can use that register
(`Fuses.used_only_by_test`): a use elsewhere would make the register live behind the test. So a planned
range is lowered unless an instruction does not suit the declared types of its operands
(`Plan.lowers`), and these are all the errors there are (`Plan.lower_fails_only_for_operands`).

In a sound range the classifier has asked of the declared types what lowering wants, so sound ranges are
lowered (`Plan.exists_lower`).
-/

namespace RegisterVM

/-- Every index register of an access is wanted as an integer. -/
theorem Instruction.mem_wantIndices {base count : Int32} {k : Nat} (hk : k < countOf count) :
    (base.toInt + 1 + k, .scalar .int) ∈ wantIndices base.toInt count.toInt :=
  List.mem_map.2 ⟨k, List.mem_range.2 hk, rfl⟩

/-- A scalar register is of the kind its tag says. -/
theorem ValueType.scalar?_of_scalarTag {t : ValueType} {tag : ScalarTag} (h : t.scalarTag? = some tag) :
    t.scalar? = some tag.kind := by
  cases t <;> cases h <;> rfl

namespace Native

/-! ### Actions of lowering -/

/-- From some progress, lowering succeeds with a result and a progress that satisfy `Q`, or it fails
with one of the errors `E`. -/
def Lowers {α : Type} (E : CodegenError → Prop) (m : LowerM α) (p : Progress)
    (Q : α → Progress → Prop) : Prop :=
  (∃ a p', m p = .ok (a, p') ∧ Q a p') ∨ ∃ e, m p = .error e ∧ E e

namespace Lowers

variable {α β : Type} {E : CodegenError → Prop} {m : LowerM α} {p : Progress}
  {Q : α → Progress → Prop} {Q' : β → Progress → Prop}

/-- Steps of lowering in sequence, where the errors of both are allowed. -/
theorem bind {f : α → LowerM β} (h : Lowers E m p Q) (hf : ∀ a p', Q a p' → Lowers E (f a) p' Q') :
    Lowers E (m >>= f) p Q' := by
  have hbind : (m >>= f) p = (m p >>= fun x => f x.1 x.2) := rfl
  rcases h with ⟨a, p', hm, ha⟩ | ⟨e, hm, he⟩
  · rw [hm] at hbind
    rcases hf a p' ha with ⟨b, p'', hfa, hb⟩ | ⟨e, hfa, he⟩
    · exact .inl ⟨b, p'', hbind.trans hfa, hb⟩
    · exact .inr ⟨e, hbind.trans hfa, he⟩
  · rw [hm] at hbind
    exact .inr ⟨e, hbind, he⟩

/-- Returning what meets the postcondition. -/
theorem pure {a : α} (h : Q a p) : Lowers E (pure a) p Q := .inl ⟨a, p, rfl, h⟩

/-- An error that is allowed. -/
theorem throw {e : CodegenError} (h : E e) : Lowers E (throw e : LowerM α) p Q := .inr ⟨e, rfl, h⟩

end Lowers

/-- A sequence that succeeds does so in both parts. -/
theorem exists_of_lower_bind {α β : Type} {m : LowerM α} {f : α → LowerM β} {p p'' : Progress} {b : β}
    (h : (m >>= f) p = .ok (b, p'')) : ∃ a p', m p = .ok (a, p') ∧ f a p' = .ok (b, p'') := by
  change (m p >>= fun x => f x.1 x.2) = _ at h
  obtain ⟨⟨a, p'⟩, hm, hf⟩ := exists_of_except_bind_eq_ok h
  exact ⟨a, p', hm, hf⟩

namespace Plan

/-- Register `q` can be read as a scalar of a kind: it is planned so, and if it is carried directly,
it has been defined. -/
def Readable (plan : Plan) (p : Progress) (q : Reg) (kind : ScalarKind) : Prop :=
  ∃ x, plan.register? q = some x ∧ x.kind = kind ∧
    ∀ d w, x.storage = .direct d w → p.defined.contains q = true

/-- Register `q` is planned as a scalar of a kind. -/
def Planned (plan : Plan) (q : Reg) (kind : ScalarKind) : Prop :=
  ∃ x, plan.register? q = some x ∧ x.kind = kind

/-- If register `q` is carried directly, it has been defined. -/
def Held (plan : Plan) (p : Progress) (q : Reg) : Prop :=
  ∀ x d w, plan.register? q = some x → x.storage = .direct d w → p.defined.contains q = true

/-- A register that is planned and, if it is carried directly, defined can be read. -/
theorem Planned.readable {plan : Plan} {p : Progress} {q : Reg} {kind : ScalarKind}
    (h : plan.Planned q kind) (hq : plan.Held p q) : plan.Readable p q kind := by
  obtain ⟨x, hx, hk⟩ := h
  exact ⟨x, hx, hk, fun d w hs => hq x d w hx hs⟩

/-- Every register that lives in a variable has one, loaded at entry. -/
theorem contains_entryRegisters {plan : Plan} {q : Reg} {x : RegPlan} (hx : plan.register? q = some x)
    {defined flush : Bool} (hs : x.storage = .stack defined flush) :
    plan.entryRegisters.contains q = true := by
  obtain ⟨⟨q', x'⟩, hfind, heq⟩ := Option.map_eq_some_iff.1 hx
  have hq := List.find?_some hfind
  rw [beq_iff_eq] at hq
  dsimp only at hq heq
  subst hq heq
  refine List.contains_iff_mem.2 (List.mem_filterMap.2 ⟨_, List.mem_of_find?_eq_some hfind, ?_⟩)
  dsimp only
  rw [hs]

/-- Progress after register `q` was given a value. -/
def noted (plan : Plan) (q : Reg) (p : Progress) : Progress :=
  match plan.register? q with
  | some ⟨_, .direct _ _⟩ => { p with defined := p.defined.insert q }
  | _ => p

/-- What a register needs besides the assignment of its variable. -/
def through (plan : Plan) (q : Reg) : List Op :=
  match plan.register? q with
  | some ⟨tag, .direct d true⟩ => [Site.storeBack q ⟨tag, .direct d true⟩]
  | _ => []

/-- The operations that make the slot of a register current. -/
def syncOps (plan : Plan) (q : Reg) : List Op :=
  match plan.register? q with
  | some ⟨tag, .direct d false⟩ => [Site.storeBack q ⟨tag, .direct d false⟩]
  | some ⟨tag, .stack true flush⟩ => [Site.storeBack q ⟨tag, .stack true flush⟩]
  | _ => []

/-- The operations that pick up a register from its slot. -/
def reloadOps (plan : Plan) (q : Reg) : List Op :=
  match plan.register? q with
  | none => []
  | some _ => [.reload q]

end Plan

namespace Site

variable {s : Site} {q : Reg} {kind : ScalarKind} {p p' : Progress} {ops : List Op}

/-- Reading succeeds just if the register can be read, and changes nothing. -/
theorem read_eq_ok_iff {x : Reg} :
    s.read q kind p = .ok (x, p') ↔ x = q ∧ p' = p ∧ s.plan.Readable p q kind := by
  unfold read Plan.Readable
  cases hq : s.plan.register? q with
  | none => exact ⟨nofun, fun ⟨_, _, _, hx, _⟩ => nomatch hx⟩
  | some y =>
    simp only [Option.some.injEq, exists_eq_left']
    by_cases hk : y.kind = kind
    · rw [if_neg (not_not.2 hk)]
      cases hs : y.storage with
      | stack defined flush =>
        dsimp only
        rw [if_pos (Plan.contains_entryRegisters hq hs)]
        refine ⟨fun h => ?_, ?_⟩
        · cases h
          exact ⟨rfl, rfl, hk, nofun⟩
        · rintro ⟨rfl, rfl, -⟩
          rfl
      | direct d w =>
        change (if p.defined.contains q = true then (pure q : LowerM Reg)
          else s.malformed .readBeforeDefinition) p = _ ↔ _
        split
        · rename_i hdef
          refine ⟨fun h => ?_, ?_⟩
          · cases h
            exact ⟨rfl, rfl, hk, fun _ _ _ => hdef⟩
          · rintro ⟨rfl, rfl, -⟩
            rfl
        · rename_i hdef
          exact ⟨nofun, fun ⟨_, _, _, h⟩ => absurd (h d w rfl) hdef⟩
    · rw [if_pos hk]
      exact ⟨nofun, fun ⟨_, _, h, _⟩ => absurd h hk⟩

/-- Writing succeeds just if the register is planned with the kind of the value. -/
theorem write_eq_ok_iff {e : Expr} : s.write q kind e p = .ok (ops, p') ↔
    (∃ x, s.plan.register? q = some x ∧ x.kind = kind) ∧ ops = .assign q e :: s.plan.through q ∧
      p' = s.plan.noted q p := by
  unfold write Plan.through Plan.noted
  cases hq : s.plan.register? q with
  | none => exact ⟨nofun, fun ⟨⟨_, hx, _⟩, _⟩ => nomatch hx⟩
  | some y =>
    simp only [Option.some.injEq, exists_eq_left']
    by_cases hk : y.kind = kind
    · rw [if_neg (not_not.2 hk)]
      obtain ⟨tag, storage⟩ := y
      cases storage with
      | stack defined flush =>
        refine ⟨fun h => ?_, ?_⟩
        · cases h
          exact ⟨hk, rfl, rfl⟩
        · rintro ⟨-, rfl, rfl⟩
          rfl
      | direct d w =>
        cases w <;>
        · refine ⟨fun h => ?_, ?_⟩
          · cases h
            exact ⟨hk, rfl, rfl⟩
          · rintro ⟨-, rfl, rfl⟩
            rfl
    · rw [if_pos hk]
      exact ⟨nofun, fun ⟨h, _⟩ => absurd h hk⟩

/-- **An operand that is not planned as wanted is reported.** -/
theorem read_of_not_planned (h : ¬s.plan.Planned q kind) :
    s.read q kind p = .error (.operandType s.index q) := by
  unfold read
  cases hq : s.plan.register? q with
  | none => rfl
  | some y =>
    dsimp only
    rw [if_pos fun hk => h ⟨y, hq, hk⟩]
    rfl

/-- A register that is not planned so is blamed. -/
theorem write_of_not_planned {e : Expr} (h : ¬s.plan.Planned q kind) :
    s.write q kind e p = .error (.operandType s.index q) := by
  unfold write
  cases hq : s.plan.register? q with
  | none => rfl
  | some y =>
    dsimp only
    rw [if_pos fun hk => h ⟨y, hq, hk⟩]
    rfl

/-- A register read under the kind it is planned with. -/
theorem read_storeBack_iff {x : RegPlan} (hx : s.plan.register? q = some x) :
    (s.read q x.kind >>= fun y => pure [storeBack y x]) p = .ok (ops, p') ↔
      ops = [storeBack q x] ∧ p' = p ∧ ∃ kind, s.plan.Readable p q kind := by
  constructor
  · intro h
    obtain ⟨y, u, hread, hpure⟩ := exists_of_lower_bind h
    obtain ⟨rfl, rfl, hreadable⟩ := read_eq_ok_iff.1 hread
    cases hpure
    exact ⟨rfl, rfl, _, hreadable⟩
  · rintro ⟨rfl, rfl, kind, hreadable⟩
    have hkind : x.kind = kind := by
      obtain ⟨y, hy, hk, -⟩ := hreadable
      rw [hx, Option.some.injEq] at hy
      rw [hy, hk]
    change (s.read q x.kind p' >>= fun z => _) = _
    rw [read_eq_ok_iff.2 ⟨rfl, rfl, hkind ▸ hreadable⟩]
    rfl

/-- Making a slot current succeeds unless it stores a register that cannot be read. -/
theorem sync_eq_ok_iff : s.sync q p = .ok (ops, p') ↔ ops = s.plan.syncOps q ∧ p' = p ∧
    (s.plan.syncOps q ≠ [] → ∃ kind, s.plan.Readable p q kind) := by
  have hnone : (pure [] : LowerM (List Op)) p = .ok (ops, p') ↔ ops = [] ∧ p' = p := by
    refine ⟨fun h => ?_, ?_⟩
    · cases h
      exact ⟨rfl, rfl⟩
    · rintro ⟨rfl, rfl⟩
      rfl
  have hskip : s.plan.syncOps q = [] → ((pure [] : LowerM (List Op)) p = .ok (ops, p') ↔
      ops = s.plan.syncOps q ∧ p' = p ∧
        (s.plan.syncOps q ≠ [] → ∃ kind, s.plan.Readable p q kind)) := fun h => by
    simp [hnone, h]
  unfold sync
  cases hq : s.plan.register? q with
  | none => exact hskip (by rw [Plan.syncOps, hq])
  | some x =>
    obtain ⟨tag, storage⟩ := x
    have hread : (s.read q (RegPlan.kind ⟨tag, storage⟩) >>= fun y => pure [storeBack y ⟨tag, storage⟩]) p =
        .ok (ops, p') ↔ _ := read_storeBack_iff hq
    cases storage with
    | direct d w =>
      cases w with
      | true => exact hskip (by rw [Plan.syncOps, hq])
      | false => simpa [Plan.syncOps, hq] using hread
    | stack defined flush =>
      cases defined with
      | false => exact hskip (by rw [Plan.syncOps, hq])
      | true => simpa [Plan.syncOps, hq] using hread

/-- An index is a block just if it is a leader. -/
theorem block_eq_ok_iff {k : Nat} {x : Target} :
    s.block k p = .ok (x, p') ↔ s.plan.leaders.contains k = true ∧ x = .block k ∧ p' = p := by
  unfold block
  by_cases h : s.plan.leaders.contains k = true
  · rw [if_pos h]
    refine ⟨fun hx => ?_, ?_⟩
    · cases hx
      exact ⟨h, rfl, rfl⟩
    · rintro ⟨-, rfl, rfl⟩
      rfl
  · rw [if_neg h]
    refine ⟨fun hx => ?_, fun hx => absurd hx.1 h⟩
    cases hx

/-- A branch is resolved as the plan says. -/
theorem target_eq_ok_iff {t : Nat} {x : Target} :
    s.target t p = .ok (x, p') ↔ s.plan.target t = .ok x ∧ p' = p := by
  unfold target
  cases htarget : s.plan.target t with
  | error e =>
    refine ⟨fun hx => ?_, fun hx => ?_⟩
    · cases hx
    · cases hx.1
  | ok y =>
    cases y with
    | exit =>
      refine ⟨fun hx => ?_, ?_⟩
      · cases hx
        exact ⟨rfl, rfl⟩
      · rintro ⟨⟨⟩, rfl⟩
        rfl
    | block k =>
      dsimp only
      rw [block_eq_ok_iff]
      refine ⟨?_, ?_⟩
      · rintro ⟨-, rfl, rfl⟩
        exact ⟨rfl, rfl⟩
      · rintro ⟨⟨⟩, rfl⟩
        exact ⟨Plan.leader_of_target htarget, rfl, rfl⟩

/-- Picking a register up always succeeds. -/
theorem reload_eq : s.reload q p = .ok (s.plan.reloadOps q, s.plan.noted q p) := by
  unfold reload Plan.reloadOps Plan.noted
  cases hq : s.plan.register? q with
  | none => rfl
  | some y =>
    obtain ⟨tag, storage⟩ := y
    cases storage <;> rfl

end Site

/-! ### Fused comparisons -/

/-- A comparison has one successor. -/
theorem eq_succ_of_mem_successors {code : Array Instruction} {i j : Nat} {ins : Instruction}
    (hi : code[i]? = some ins) (hop : ins.opcode.isComparison = true) (h : j ∈ successors code i) :
    j = i + 1 := by
  rw [successors, hi] at h
  have hflow := (List.mem_filter.1 (mem_ascending.1 h)).1
  obtain ⟨op, a, b, c, line⟩ := ins
  cases op <;> first | exact List.mem_singleton.1 hflow | cases hop

/-- A test has two successors. -/
theorem eq_of_mem_successors_test {code : Array Instruction} {i j : Nat} {ins : Instruction}
    (hi : code[i]? = some ins) {kind : TestKind} (hop : ins.opcode = .test kind)
    (h : j ∈ successors code i) : j = i + 1 ∨ j = ins.target := by
  rw [successors, hi] at h
  have hflow := (List.mem_filter.1 (mem_ascending.1 h)).1
  simpa [flowTargets, hop, branchTargets, hi, Opcode.isJump] using hflow

namespace Fuses

variable {r : Routine} {plan : Plan} {d : Nat} {cmp test : Instruction}

/-- A comparison defines one register. -/
theorem eq_rc_of_mem_defs (h : Fuses r plan d cmp test) {q : Reg} (hq : q ∈ cmp.defs) : q = cmp.rc := by
  obtain ⟨op, a, b, c, line⟩ := cmp
  have hop := h.comparison
  cases op <;> first | exact List.mem_singleton.1 hq | cases hop

/-- **Nothing but the test uses the result of a fused comparison**, if it is carried directly: a use
elsewhere would make the register live behind the test. -/
theorem used_only_by_test (h : Fuses r plan d cmp test) {q : Reg}
    (hcarried : Dataflow.CarriedFrom r.code plan.range q d) {j : Nat}
    (hj : Dataflow.UsedAt r.code plan.range q j) : j = d + 1 := by
  obtain ⟨-, ins, hins, hdef⟩ := (hcarried.defined_iff d).2 rfl
  rw [h.compareAt, Option.some.injEq] at hins
  subst hins
  obtain rfl := h.eq_rc_of_mem_defs hdef
  obtain ⟨v, hv, hway⟩ := hcarried.reaches j hj
  obtain rfl := eq_succ_of_mem_successors h.compareAt h.comparison hv
  rcases Relation.ReflTransGen.cases_head hway with heq | ⟨y, hstep, hway⟩
  · exact heq.symm
  · obtain ⟨-, use, huse, hq⟩ := hj
    have hlive : (Dataflow.ofCode r.code r.types.size).isLiveIn cmp.rc y = true :=
      Dataflow.isLiveIn_of_way huse hq hway
    rw [h.dead y (eq_of_mem_successors_test h.testAt h.opcode hstep.1)] at hlive
    cases hlive

end Fuses

/-! ### What is ready before an instruction -/

/-- What lowering has to have noted before index `i`: the registers carried directly whose definitions
come earlier, those of fused comparisons excepted, and the condition of a comparison right before that
is fused. -/
structure Ready (plan : Plan) (i : Nat) (p : Progress) : Prop where
  defined : ∀ q x d w, plan.register? q = some x → x.storage = .direct d w → d < i →
    d ∉ plan.fused → p.defined.contains q = true
  pending : ∀ d ∈ plan.fused, d + 1 = i → p.pending.isSome = true

/-- What lowering instruction `i` adds to the progress. -/
structure Advances (plan : Plan) (i : Nat) (ins : Instruction) (p p' : Progress) : Prop where
  keeps : ∀ q, p.defined.contains q = true → p'.defined.contains q = true
  defines : i ∉ plan.fused → ∀ q ∈ ins.defs, ∀ x d w, plan.register? q = some x →
    x.storage = .direct d w → p'.defined.contains q = true
  pends : i ∈ plan.fused → p'.pending.isSome = true

section

variable {r : Routine} {config : Config} {plan : Plan} {i : Nat} {ins : Instruction}
  {p p' : Progress}

/-- An instruction that is lowered leaves lowering ready for the next one. -/
theorem Ready.next (hplan : IsPlan r config plan) (h : Ready plan i p) (hins : r.code[i]? = some ins)
    (hadv : Advances plan i ins p p') : Ready plan (i + 1) p' := by
  refine ⟨fun q x d w hx hstorage hlt hfused => ?_, fun d hd heq => ?_⟩
  · rcases Nat.lt_succ_iff_lt_or_eq.1 hlt with hlt | rfl
    · exact hadv.keeps q (h.defined q x d w hx hstorage hlt hfused)
    · obtain ⟨-, ins', hins', hdef⟩ := ((hplan.carriedFrom hx hstorage).defined_iff d).2 rfl
      rw [hins, Option.some.injEq] at hins'
      subst hins'
      exact hadv.defines hfused q hdef x d w hx hstorage
  · obtain rfl : d = i := by omega
    exact hadv.pends hd

/-- **A register an instruction uses has been defined if it is carried directly**, unless the
instruction is the test behind a fused comparison. -/
theorem Ready.held (hplan : IsPlan r config plan) (h : Ready plan i p) (hi : i ∈ plan.range)
    (hins : r.code[i]? = some ins) (hfused : ∀ d ∈ plan.fused, d + 1 ≠ i) {q : Reg}
    (hq : q ∈ ins.uses) : plan.Held p q := by
  intro x d w hx hstorage
  have hcarried := hplan.carriedFrom hx hstorage
  have hused : Dataflow.UsedAt r.code plan.range q i := ⟨IndexRange.contains_iff.2 hi, ins, hins, hq⟩
  refine h.defined q x d w hx hstorage (hcarried.before i hused) fun hd => ?_
  obtain ⟨cmp, test, hfuses⟩ := hplan.exists_fuses hd
  exact hfused d hd (hfuses.used_only_by_test hcarried hused).symm

end

/-! ### Declared types -/

/-- An eligible instruction wants something of its operands, and the declared types admit it. -/
theorem exists_wants {k : Classifier} {types : Array ValueType} {ins : Instruction}
    (h : k.isEligible types ins = true) : ∃ ws, ins.wants = some ws ∧
      ∀ x want, (x, want) ∈ ws → (typeAt? types x).any want.admits = true := by
  rw [Classifier.isEligible, Bool.and_eq_true] at h
  cases hws : ins.wants with
  | none =>
    rw [hws] at h
    cases h.2
  | some ws =>
    rw [hws] at h
    refine ⟨ws, rfl, fun x want hmem => ?_⟩
    exact List.all_eq_true.1 (Bool.and_eq_true_iff.1 h.2).2 (x, want) hmem

/-- The declared type of a wanted register, under its number. -/
theorem exists_type_of_admits {r : Routine} (hregs : r.types.size ≤ UInt16.size) {x : Int32} {want : Want}
    (h : (typeAt? r.types x.toInt).any want.admits = true) :
    ∃ t, r.types[(Reg.ofOperand x).toNat]? = some t ∧ want.admits t = true := by
  obtain ⟨t, ht, hadmits⟩ := (Option.any_eq_true _ _).1 h
  unfold typeAt? at ht
  split at ht
  · cases ht
  · rename_i hneg
    have hlt : x.toInt.toNat < r.types.size := (Array.getElem?_eq_some_iff.1 ht).1
    refine ⟨t, ?_, hadmits⟩
    rwa [Routine.toNat_ofOperand hregs ⟨by omega, by change x.toInt < (r.types.size : Int); omega⟩,
      placeOf_of_nonneg (by omega)]

/-- The span of index registers is short, as all registers are inside the routine. -/
theorem countOf_lt {r : Routine} (hregs : r.types.size ≤ UInt16.size) {base count : Int32}
    (hbase : r.bounds.IsRegister base.toInt) (hend : r.bounds.IsRegister (base.toInt + count.toInt)) :
    countOf count < UInt16.size := by
  have hlt : base.toInt + count.toInt < r.types.size := hend.2
  have hnonneg := hbase.1
  have hsize : UInt16.size = 65536 := rfl
  unfold countOf
  omega

/-- Index registers are those an instruction uses, if sixteen bits have their count. -/
theorem indexRegisters_eq {base : Reg} {count : Int32} (h : countOf count < UInt16.size) :
    indexRegisters base count = registersAfter base count := by
  unfold indexRegisters registersAfter
  rw [Nat.mod_eq_of_lt h]
  refine List.map_congr_left fun k _ => ?_
  rw [UInt16.add_assoc, UInt16.ofNat_add, UInt16.add_comm 1]
  rfl

/-- The count has sixteen bits if the registers an instruction uses are all it reads. -/
theorem countOf_lt_of_map {q : Reg} {base count : Int32}
    (h : (registersAfter q count).map UInt16.toNat = indexPlaces base count) : countOf count < UInt16.size := by
  have hlength := congrArg List.length h
  unfold registersAfter indexPlaces at hlength
  rw [List.length_map, List.length_map, List.length_map, List.length_range, List.length_range] at hlength
  exact hlength ▸ Nat.mod_lt _ (by decide)

/-- The declared type of an index register. -/
theorem exists_type_of_index {r : Routine} (hregs : r.types.size ≤ UInt16.size) {base count : Int32}
    (hbase : r.bounds.IsRegister base.toInt) (hend : r.bounds.IsRegister (base.toInt + count.toInt))
    {want : Want} {q : Reg} (hq : q ∈ registersAfter (.ofOperand base) count)
    (h : ∀ k < countOf count, (typeAt? r.types (base.toInt + 1 + k)).any want.admits = true) :
    ∃ t, r.types[q.toNat]? = some t ∧ want.admits t = true := by
  have hlt : base.toInt < r.types.size := hbase.2
  have hlt' : base.toInt + count.toInt < r.types.size := hend.2
  have hnonneg := hbase.1
  obtain ⟨k, hk, rfl⟩ := List.mem_map.1 hq
  have hk : k < countOf count := (List.mem_range.1 hk).trans_le (Nat.mod_le _ _)
  obtain ⟨t, ht, hadmits⟩ := (Option.any_eq_true _ _).1 (h k hk)
  refine ⟨t, ?_, hadmits⟩
  rw [typeAt?, if_neg (by omega)] at ht
  rw [toNat_registerAfter hnonneg (by omega) (by omega) hk, ← ht]
  congr 1
  omega

/-- The declared types of the operands are those the instruction wants, and the discriminant of a switch
is declared as an integer. -/
structure Suits (types : Array ValueType) (ins : Instruction) : Prop where
  wanted : ∃ ws, ins.wants = some ws ∧
    ∀ x want, (x, want) ∈ ws → (typeAt? types x).any want.admits = true
  integral : ins.opcode = .switch →
    types[placeOf ins.a]? = some .int ∨ types[placeOf ins.a]? = some .enum

/-- **The instructions of a sound range suit their operands.** -/
theorem suits_of_sound {k : Classifier} {r : Routine} {range : IndexRange}
    (h : SoundRange k r.code r.types range) {i : Nat} {ins : Instruction} (hi : i ∈ range)
    (hins : r.code[i]? = some ins) : Suits r.types ins := by
  refine ⟨?_, h.integral i hi ins hins⟩
  by_cases hcase : ins.opcode = .caseEntry
  · refine ⟨[], ?_, by simp⟩
    rw [Instruction.wants, hcase]
  · exact exists_wants (h.eligible i hi ins hins hcase)

/-- Among the errors `E` are those that say that instruction `i` does not suit its operands. -/
structure Blames (E : CodegenError → Prop) (i : Nat) (ins : Instruction) : Prop where
  operand : ∀ q, q ∈ ins.uses ∨ q ∈ ins.defs → E (.operandType i q)
  function : ins.opcode = .math → MathFn.ofNumber? ins.a.toInt = none → E (.unsupported .math)

/-- A type wanted of an operand, unless an immediate operand rules the instruction out. -/
def WantsOf (ins : Instruction) (x : Int) (want : Want) : Prop :=
  ∀ ws, ins.wants = some ws → (x, want) ∈ ws

/-- What an instruction asks of an operand, read off its list. -/
theorem wantsOf {ins : Instruction} {ws : List (Int × Want)} (h : ins.wants = some ws) {x : Int}
    {want : Want} (hmem : (x, want) ∈ ws) : WantsOf ins x want := by
  intro ws' hws'
  rw [h] at hws'
  cases hws'
  exact hmem

/-- The same where the list is there only if the operands are in order. -/
theorem wantsOf_ite {ins : Instruction} {c : Prop} [Decidable c] {ws : List (Int × Want)}
    (h : ins.wants = if c then none else some ws) {x : Int} {want : Want} (hmem : (x, want) ∈ ws) :
    WantsOf ins x want := by
  intro ws' hws'
  rw [h] at hws'
  obtain ⟨-, ⟨⟩⟩ := Option.ite_none_left_eq_some.1 hws'
  exact hmem

namespace Plan

/-- Register `q` is planned as a scalar of a kind, or the error that says otherwise is among `E`. -/
def PlannedOr (plan : Plan) (E : CodegenError → Prop) (i : Nat) (q : Reg) (kind : ScalarKind) : Prop :=
  plan.Planned q kind ∨ E (.operandType i q)

/-- Register `q` can be read as a scalar of a kind, or it is not planned so and the error that says so
is among `E`. -/
def ReadableOr (plan : Plan) (E : CodegenError → Prop) (i : Nat) (p : Progress) (q : Reg)
    (kind : ScalarKind) : Prop :=
  plan.Held p q ∧ plan.PlannedOr E i q kind

end Plan

/-! ### Instructions that do not transfer control -/

/-- An instruction that defines nothing makes no progress. -/
theorem advances_of_no_defs {plan : Plan} {i : Nat} {ins : Instruction} {p p' : Progress}
    (hdefs : ins.defs = []) (hfused : i ∉ plan.fused) (h : p'.defined = p.defined) :
    Advances plan i ins p p' :=
  ⟨fun _ hq => h ▸ hq, fun _ q hq => (by rw [hdefs] at hq; cases hq), fun h => absurd h hfused⟩

/-- An instruction that defines one register notes that it has. -/
theorem advances_noted {plan : Plan} {i : Nat} {ins : Instruction} (p : Progress)
    {q : Reg} (hdefs : ins.defs = [q]) (hfused : i ∉ plan.fused) :
    Advances plan i ins p (plan.noted q p) := by
  refine ⟨fun q' hq' => ?_, fun _ q' hq' x d w hx hstorage => ?_, fun h => absurd h hfused⟩
  · unfold Plan.noted
    split
    · exact RegSet.contains_insert.2 (.inr hq')
    · exact hq'
  · rw [hdefs, List.mem_singleton] at hq'
    subst hq'
    obtain ⟨tag, storage⟩ := x
    cases hstorage
    rw [Plan.noted, hx]
    exact RegSet.contains_insert.2 (.inl rfl)

namespace Lowers

variable {E : CodegenError → Prop} {r : Routine} {plan : Plan} {i : Nat} {ins : Instruction}
  {p : Progress} {q x y : Reg} {kind : ScalarKind}

/-- Reading a register that can be read, or for which an error is allowed. -/
theorem read (h : plan.ReadableOr E i p q kind) :
    Lowers E (Site.read ⟨r, plan, i⟩ q kind) p fun x p' => x = q ∧ p' = p := by
  obtain ⟨hheld, hq⟩ := h
  by_cases hplanned : plan.Planned q kind
  · exact .inl ⟨q, p, Site.read_eq_ok_iff.2 ⟨rfl, rfl, hplanned.readable hheld⟩, rfl, rfl⟩
  · exact .inr ⟨_, Site.read_of_not_planned hplanned, hq.resolve_left hplanned⟩

/-- Writing the one register an instruction defines. -/
theorem write (hdefs : ins.defs = [q]) (hfused : i ∉ plan.fused) (h : plan.PlannedOr E i q kind)
    (e : Expr) :
    Lowers E (Site.write ⟨r, plan, i⟩ q kind e) p fun _ p' => Advances plan i ins p p' := by
  by_cases hplanned : plan.Planned q kind
  · exact .inl ⟨_, _, Site.write_eq_ok_iff.2 ⟨hplanned, rfl, rfl⟩, advances_noted p hdefs hfused⟩
  · exact .inr ⟨_, Site.write_of_not_planned hplanned, h.resolve_left hplanned⟩

/-- Making the slot of a register current. -/
theorem sync (h : plan.Held p q) : Lowers E (Site.sync ⟨r, plan, i⟩ q) p fun _ p' => p' = p := by
  refine .inl ⟨_, _, Site.sync_eq_ok_iff.2 ⟨rfl, rfl, fun hne => ?_⟩, rfl⟩
  cases hq : plan.register? q with
  | none => exact absurd (by rw [Plan.syncOps, hq]) hne
  | some x => exact ⟨x.kind, Plan.Planned.readable ⟨x, hq, rfl⟩ h⟩

/-- Picking up the one register an instruction defines. -/
theorem reload (hdefs : ins.defs = [q]) (hfused : i ∉ plan.fused) :
    Lowers E (Site.reload ⟨r, plan, i⟩ q) p fun _ p' => Advances plan i ins p p' :=
  .inl ⟨_, _, Site.reload_eq, advances_noted p hdefs hfused⟩

/-- What is provided for can be required. -/
theorem require {provided : Bool} (h : provided = true) :
    Lowers E (Site.require ⟨r, plan, i⟩ provided) p fun _ p' => p' = p := by
  subst h
  exact .inl ⟨(), p, rfl, rfl⟩

/-- A constant in bounds can be looked up. -/
theorem constant {x : Int32} (h : r.bounds.IsConstant x.toInt) :
    Lowers E (Site.constant ⟨r, plan, i⟩ x) p fun _ p' => p' = p := by
  have hlt : placeOf x < r.constants.size := by
    have hlt : x.toInt < r.constants.size := h.2
    rw [placeOf_of_nonneg h.1]
    have := h.1
    omega
  unfold Site.constant
  rw [Array.getElem?_eq_getElem hlt]
  exact .pure rfl

/-- A scalar computed from one register. -/
theorem unary {source target : ScalarKind} {f : Reg → Expr} (hx : plan.ReadableOr E i p x source)
    (hdefs : ins.defs = [q]) (hfused : i ∉ plan.fused) (hq : plan.PlannedOr E i q target) :
    Lowers E (Site.read ⟨r, plan, i⟩ x source >>= fun x => Site.write ⟨r, plan, i⟩ q target (f x)) p
      fun _ p' => Advances plan i ins p p' := by
  refine .bind (.read hx) ?_
  rintro _ _ ⟨rfl, rfl⟩
  exact .write hdefs hfused hq _

/-- A scalar computed from two registers. -/
theorem binary {source target : ScalarKind} {f : Reg → Reg → Expr}
    (hx : plan.ReadableOr E i p x source) (hy : plan.ReadableOr E i p y source)
    (hdefs : ins.defs = [q]) (hfused : i ∉ plan.fused) (hq : plan.PlannedOr E i q target) :
    Lowers E (Site.read ⟨r, plan, i⟩ x source >>= fun x => Site.read ⟨r, plan, i⟩ y source >>= fun y =>
      Site.write ⟨r, plan, i⟩ q target (f x y)) p fun _ p' => Advances plan i ins p p' := by
  refine .bind (.read hx) ?_
  rintro _ _ ⟨rfl, rfl⟩
  exact .unary hy hdefs hfused hq

/-- Reading two registers for one expression. -/
theorem readTwo {f : Reg → Reg → Expr} (hx : plan.ReadableOr E i p x kind)
    (hy : plan.ReadableOr E i p y kind) :
    Lowers E (Site.read ⟨r, plan, i⟩ x kind >>= fun x => Site.read ⟨r, plan, i⟩ y kind >>= fun y =>
      Pure.pure (f x y)) p fun _ p' => p' = p := by
  refine .bind (.read hx) ?_
  rintro _ _ ⟨rfl, rfl⟩
  refine .bind (.read hy) ?_
  rintro _ _ ⟨rfl, rfl⟩
  exact .pure rfl

/-- Reading the index registers of an element, which are those the instruction uses. -/
theorem indices {base : Reg} {count : Int32} (hcount : countOf count < UInt16.size)
    (h : ∀ q ∈ registersAfter base count, plan.ReadableOr E i p q .int) :
    Lowers E (Site.indices ⟨r, plan, i⟩ base count) p
      fun is p' => is = registersAfter base count ∧ p' = p := by
  unfold Site.indices
  rw [indexRegisters_eq hcount]
  generalize registersAfter base count = qs at h ⊢
  induction qs with
  | nil => exact .pure ⟨rfl, rfl⟩
  | cons q qs ih =>
    rw [List.mapM_cons]
    refine .bind (.read (h q List.mem_cons_self)) ?_
    rintro _ _ ⟨rfl, rfl⟩
    refine .bind (ih fun q hq => h q (List.mem_cons_of_mem _ hq)) ?_
    rintro _ _ ⟨rfl, rfl⟩
    exact .pure ⟨rfl, rfl⟩

/-- A comparison, which waits for the test behind it if it is fused. -/
theorem compare {m : LowerM Expr} (hm : Lowers E m p fun _ p' => p' = p) (hdefs : ins.defs = [q])
    (hq : plan.PlannedOr E i q .bool) :
    Lowers E (m >>= fun e =>
      if plan.fused.contains i = true then
        (modify fun p => { p with pending := some e }) >>= fun _ => Pure.pure []
      else Site.write ⟨r, plan, i⟩ q .bool e) p fun _ p' => Advances plan i ins p p' := by
  refine .bind hm ?_
  rintro e p rfl
  split
  · rename_i hfused
    refine .inl ⟨[], { p with pending := some e }, rfl, fun _ hq => hq, fun hnot => ?_, fun _ => rfl⟩
    exact absurd (List.contains_iff_mem.1 hfused) hnot
  · rename_i hfused
    exact .write hdefs (fun hmem => hfused (List.contains_iff_mem.2 hmem)) hq e

/-- The tag of a planned register. -/
theorem tagOf (h : plan.PlannedOr E i q kind) :
    Lowers E (Site.tagOf ⟨r, plan, i⟩ q) p
      fun tag p' => (∃ x, plan.register? q = some x ∧ tag = x.tag) ∧ p' = p := by
  unfold Site.tagOf
  cases hq : plan.register? q with
  | none =>
    refine .throw (h.resolve_left ?_)
    rintro ⟨x, hx, -⟩
    rw [hq] at hx
    cases hx
  | some x => exact .pure ⟨⟨x, rfl, rfl⟩, rfl⟩

/-- A scalar stored under the tag of its register. -/
theorem storing {place : Place} (hx : plan.ReadableOr E i p x kind) (hdefs : ins.defs = [])
    (hfused : i ∉ plan.fused) :
    Lowers E (Site.read ⟨r, plan, i⟩ x kind >>= fun y => Site.tagOf ⟨r, plan, i⟩ x >>= fun tag =>
      Pure.pure [Op.store place y tag]) p fun _ p' => Advances plan i ins p p' := by
  refine .bind (.read hx) ?_
  rintro _ _ ⟨rfl, rfl⟩
  refine .bind (.tagOf hx.2) ?_
  rintro _ _ ⟨-, rfl⟩
  exact .pure (advances_of_no_defs hdefs hfused rfl)

/-- An operation behind which a register is picked up. -/
theorem reloading (op : Op) (hdefs : ins.defs = [q]) (hfused : i ∉ plan.fused) :
    Lowers E (Site.reload ⟨r, plan, i⟩ q >>= fun ops => Pure.pure (op :: ops)) p
      fun _ p' => Advances plan i ins p p' :=
  .bind (.reload hdefs hfused) fun _ _ h => .pure h

end Lowers

section

variable {E : CodegenError → Prop} {r : Routine} {config : Config} {plan : Plan} {i : Nat}
  {ins : Instruction} {p : Progress}

/-- Only comparisons are fused. -/
theorem not_mem_fused (hplan : IsPlan r config plan) (hins : r.code[i]? = some ins)
    (hop : ins.opcode.isComparison = false) : i ∉ plan.fused := fun hmem => by
  obtain ⟨cmp, test, hfuses⟩ := hplan.exists_fuses hmem
  have hcmp := hfuses.compareAt
  rw [hins, Option.some.injEq] at hcmp
  rw [hcmp, hfuses.comparison] at hop
  cases hop

/-- Only a test of a truth value is behind a fused comparison. -/
theorem succ_ne_of_fused (hplan : IsPlan r config plan) (hins : r.code[i]? = some ins)
    (hop : ins.opcode ≠ .test .bool) : ∀ d ∈ plan.fused, d + 1 ≠ i := by
  rintro d hd rfl
  obtain ⟨cmp, test, hfuses⟩ := hplan.exists_fuses hd
  have htest := hfuses.testAt
  rw [hins, Option.some.injEq] at htest
  exact hop (htest ▸ hfuses.opcode)

/-- **An operand of an instruction is planned as wanted**, or it is to blame. -/
theorem plannedOr (hregs : r.types.size ≤ UInt16.size) (hplan : IsPlan r config plan)
    (hi : i ∈ plan.range) (hins : r.code[i]? = some ins) (hE : Suits r.types ins ∨ Blames E i ins)
    {x : Int32} {kind : ScalarKind} (hx : WantsOf ins x.toInt (.scalar kind))
    (hq : Reg.ofOperand x ∈ ins.uses ∨ Reg.ofOperand x ∈ ins.defs) :
    plan.PlannedOr E i (.ofOperand x) kind := by
  rcases hE with ⟨⟨ws, hws, hall⟩, -⟩ | hblames
  · obtain ⟨t, ht, hadmits⟩ := exists_type_of_admits hregs (hall _ _ (hx ws hws))
    exact .inl (hplan.exists_register hins hi hq ht (of_decide_eq_true hadmits))
  · exact .inr (hblames.operand _ hq)

/-- The same for the index registers of an element access. -/
theorem plannedOr_index (hregs : r.types.size ≤ UInt16.size) (hplan : IsPlan r config plan)
    (hi : i ∈ plan.range) (hins : r.code[i]? = some ins) (hE : Suits r.types ins ∨ Blames E i ins)
    {base count : Int32} (hbase : r.bounds.IsRegister base.toInt)
    (hend : r.bounds.IsRegister (base.toInt + count.toInt))
    (hwant : ∀ k < countOf count, WantsOf ins (base.toInt + 1 + k) (.scalar .int)) {q : Reg}
    (hq : q ∈ registersAfter (.ofOperand base) count) (hu : q ∈ ins.uses) :
    plan.PlannedOr E i q .int := by
  rcases hE with ⟨⟨ws, hws, hall⟩, -⟩ | hblames
  · obtain ⟨t, ht, hadmits⟩ := exists_type_of_index hregs hbase hend hq fun k hk =>
      hall _ _ (hwant k hk ws hws)
    exact .inl (hplan.exists_register hins hi (.inl hu) ht (of_decide_eq_true hadmits))
  · exact .inr (hblames.operand _ (.inl hu))

/-- **Every instruction of a planned range that does not transfer control is lowered**, unless it does
not suit its operands. -/
theorem lowers_operations (hregs : r.types.size ≤ UInt16.size) (hplan : IsPlan r config plan)
    (hi : i ∈ plan.range) (hins : r.code[i]? = some ins) (hE : Suits r.types ins ∨ Blames E i ins)
    (hready : Ready plan i p) (hbranch : ins.opcode.isBranch = false) (hret : ins.opcode ≠ .ret) :
    Lowers E (Site.operations ⟨r, plan, i⟩ ins) p fun _ p' => Advances plan i ins p p' := by
  have hop := hplan.compilable i hi ins hins
  have hfused : ins.opcode.isComparison = false → i ∉ plan.fused := not_mem_fused hplan hins
  have hnext : ∀ d ∈ plan.fused, d + 1 ≠ i :=
    succ_ne_of_fused hplan hins fun h => by rw [h] at hbranch; cases hbranch
  have hheld {q : Reg} (hq : q ∈ ins.uses) : plan.Held p q := hready.held hplan hi hins hnext hq
  have hread {x : Int32} {kind : ScalarKind} (hx : WantsOf ins x.toInt (.scalar kind))
      (hu : Reg.ofOperand x ∈ ins.uses) : plan.ReadableOr E i p (.ofOperand x) kind :=
    ⟨hheld hu, plannedOr hregs hplan hi hins hE hx (.inl hu)⟩
  have hwrite {x : Int32} {kind : ScalarKind} (hx : WantsOf ins x.toInt (.scalar kind))
      (hd : Reg.ofOperand x ∈ ins.defs) : plan.PlannedOr E i (.ofOperand x) kind :=
    plannedOr hregs hplan hi hins hE hx (.inr hd)
  have hbounds := r.inBounds hins
  obtain ⟨op, a, b, c, line⟩ := ins
  cases op with
  | nop | caseEntry => exact .pure (advances_of_no_defs rfl (hfused rfl) rfl)
  | data =>
    cases hkind : (Tag.ofCode? a.toUInt32.toNat).bind Tag.immediateKind? with
    | some kind =>
      simp only [Site.operations, hkind]
      have hwants : Instruction.wants ⟨.data, a, b, c, line⟩ = some [(c.toInt, .scalar kind)] := by
        simp only [Instruction.wants, hkind, Option.map_some]
      exact .write rfl (hfused rfl) (hwrite (wantsOf hwants (.head _)) (.head _)) _
    | none =>
      simp only [Site.operations, hkind]
      rcases hE with ⟨⟨ws, hws, -⟩, -⟩ | hblames
      · simp only [Instruction.wants, hkind, Option.map_none] at hws
        cases hws
      · exact .throw (hblames.operand _ (.inr (.head _)))
  | getConst =>
    refine .bind (.require (hplan.needs_constants hi hins (.inl rfl))) ?_
    rintro _ _ rfl
    exact .reloading _ rfl (hfused rfl)
  | getConstString =>
    refine .bind (.require (hplan.needs_constants hi hins (.inr rfl))) ?_
    rintro _ _ rfl
    exact .reloading _ rfl (hfused rfl)
  | getConstScalar k =>
    refine .bind (.constant (hbounds.2 rfl)) ?_
    rintro v _ rfl
    exact .write rfl (hfused rfl) (hwrite (wantsOf rfl (.head _)) (.head _)) _
  | move =>
    refine .bind (.sync (hheld (.head _))) ?_
    rintro stored _ rfl
    exact .bind (.reload rfl (hfused rfl)) fun _ _ h => .pure h
  | moveString | concat | tupleGetAny => exact .reloading _ rfl (hfused rfl)
  | moveScalar k | convert v | unary op =>
    exact .unary (hread (wantsOf rfl (.tail _ (.head _))) (.head _)) rfl (hfused rfl)
      (hwrite (wantsOf rfl (.head _)) (.head _))
  | intArith op | intBits op | logic op | floatArith op | complexArith op =>
    exact .binary (hread (wantsOf rfl (.tail _ (.head _))) (.head _))
      (hread (wantsOf rfl (.tail _ (.tail _ (.head _)))) (.tail _ (.head _))) rfl (hfused rfl)
      (hwrite (wantsOf rfl (.head _)) (.head _))
  | math =>
    cases hf : MathFn.ofNumber? a.toInt with
    | some f =>
      simp only [Site.operations, hf]
      have hwants : Instruction.wants ⟨.math, a, b, c, line⟩ =
          some (Instruction.wantScalars .float [c.toInt, b.toInt]) := by
        simp only [Instruction.wants, hf, Option.map_some]
      exact .unary (hread (wantsOf hwants (.tail _ (.head _))) (.head _)) rfl (hfused rfl)
        (hwrite (wantsOf hwants (.head _)) (.head _))
    | none =>
      simp only [Site.operations, hf]
      rcases hE with ⟨⟨ws, hws, -⟩, -⟩ | hblames
      · simp only [Instruction.wants, hf, Option.map_none] at hws
        cases hws
      · exact .throw (hblames.function rfl hf)
  | charAt | arrayGet k =>
    exact .unary (hread (wantsOf rfl (.tail _ (.tail _ (.head _)))) (.tail _ (.head _))) rfl
      (hfused rfl) (hwrite (wantsOf rfl (.head _)) (.head _))
  | size of =>
    cases of <;> exact .write rfl (hfused rfl) (hwrite (wantsOf rfl (.head _)) (.head _)) _
  | compareInt rel | compareFloat rel | compareComplex rel =>
    refine .compare ?_ rfl (hwrite (wantsOf rfl (.head _)) (.head _))
    exact .readTwo (hread (wantsOf rfl (.tail _ (.head _))) (.head _))
      (hread (wantsOf rfl (.tail _ (.tail _ (.head _)))) (.tail _ (.head _)))
  | compareString rel => exact .compare (.pure rfl) rfl (hwrite (wantsOf rfl (.head _)) (.head _))
  | arith op =>
    refine .bind (.sync (hheld (.head _))) ?_
    rintro first _ rfl
    refine .bind (.sync (hheld (.tail _ (.head _)))) ?_
    rintro second _ rfl
    exact .bind (.reload rfl (hfused rfl)) fun _ _ h => .pure h
  | assignAll | tupleSetAny =>
    refine .bind (.sync (hheld (.head _))) ?_
    rintro stored _ rfl
    exact .pure (advances_of_no_defs rfl (hfused rfl) rfl)
  | setChar =>
    refine .bind (.read (hread (wantsOf rfl (.tail _ (.tail _ (.head _)))) (.tail _ (.head _)))) ?_
    rintro _ _ ⟨rfl, rfl⟩
    refine .bind (.read (hread (wantsOf rfl (.tail _ (.head _))) (.head _))) ?_
    rintro _ _ ⟨rfl, rfl⟩
    exact .reloading _ rfl (hfused rfl)
  | arraySet k =>
    refine .bind (.read (hread (wantsOf rfl (.tail _ (.tail _ (.head _)))) (.head _))) ?_
    rintro _ _ ⟨rfl, rfl⟩
    refine .bind (.read (hread (wantsOf rfl (.tail _ (.head _))) (.tail _ (.head _)))) ?_
    rintro _ _ ⟨rfl, rfl⟩
    exact .pure (advances_of_no_defs rfl (hfused rfl) rfl)
  | arrayGetMulti k =>
    obtain ⟨ha, hend, -⟩ := hbounds
    refine .bind (.indices (countOf_lt hregs ha hend) fun q hq => ⟨hheld (.tail _ hq), ?_⟩) ?_
    · exact plannedOr_index hregs hplan hi hins hE ha hend
        (fun k hk => wantsOf_ite rfl (.tail _ (.tail _ (Instruction.mem_wantIndices hk)))) hq (.tail _ hq)
    · rintro is _ ⟨rfl, rfl⟩
      exact .write rfl (hfused rfl) (hwrite (wantsOf_ite rfl (.head _)) (.head _)) _
  | arraySetMulti k =>
    obtain ⟨-, hc, hend⟩ := hbounds
    refine .bind (.read (hread (wantsOf_ite rfl (.tail _ (.head _))) (.head _))) ?_
    rintro _ _ ⟨rfl, rfl⟩
    refine .bind (.indices (countOf_lt hregs hc hend) fun q hq => ⟨hheld (.tail _ (.tail _ hq)), ?_⟩) ?_
    · exact plannedOr_index hregs hplan hi hins hE hc hend
        (fun k hk => wantsOf_ite rfl (.tail _ (.tail _ (Instruction.mem_wantIndices hk)))) hq
        (.tail _ (.tail _ hq))
    · rintro is _ ⟨rfl, rfl⟩
      exact .pure (advances_of_no_defs rfl (hfused rfl) rfl)
  | listGet k =>
    refine .bind (.read (hread (wantsOf rfl (.tail _ (.tail _ (.head _)))) (.tail _ (.head _)))) ?_
    rintro _ _ ⟨rfl, rfl⟩
    exact .reloading _ rfl (hfused rfl)
  | listSet k =>
    have ha := hread (wantsOf rfl (.tail _ (.tail _ (.head _)))) (.head _)
    refine .bind (.tagOf ha.2) ?_
    rintro _ _ ⟨⟨x, hx, rfl⟩, rfl⟩
    by_cases hkind : x.kind = k.scalar
    · change Lowers E (if x.kind ≠ k.scalar then _ else _) _ _
      rw [if_neg (not_not.2 hkind)]
      refine .bind (.sync ha.1) ?_
      rintro stored _ rfl
      refine .bind (.read (hread (wantsOf rfl (.tail _ (.head _))) (.tail _ (.head _)))) ?_
      rintro _ _ ⟨rfl, rfl⟩
      exact .pure (advances_of_no_defs rfl (hfused rfl) rfl)
    · change Lowers E (if x.kind ≠ k.scalar then _ else _) _ _
      rw [if_pos hkind]
      refine .throw (ha.2.resolve_left ?_)
      rintro ⟨y, hy, hk⟩
      obtain rfl : x = y := Option.some.inj (hx.symm.trans hy)
      exact hkind hk
  | tupleGet k | getField k => exact .write rfl (hfused rfl) (hwrite (wantsOf_ite rfl (.head _)) (.head _)) _
  | tupleSet k | setField k => exact .storing (hread (wantsOf_ite rfl (.tail _ (.head _))) (.head _)) rfl (hfused rfl)
  | getVar storage k =>
    refine .bind (.require (hplan.needs_storage hi hins ⟨k, .inl rfl⟩)) ?_
    rintro _ _ rfl
    refine .write rfl (hfused rfl) (hwrite ?_ (.head _)) _
    cases storage <;> exact wantsOf_ite rfl (.head _)
  | setVar storage k =>
    refine .bind (.require (hplan.needs_storage hi hins ⟨k, .inr rfl⟩)) ?_
    rintro _ _ rfl
    refine .storing (hread ?_ (.head _)) rfl (hfused rfl)
    cases storage <;> exact wantsOf_ite rfl (.head _)
  | goto => cases hbranch
  | test kind => cases hbranch
  | switch => cases hbranch
  | ret => exact absurd rfl hret
  | print => cases hop
  | callSegment => cases hop

/-! ### Transfers of control -/

/-- A leader has a block. -/
theorem Lowers.block {t : Nat} (h : plan.leaders.contains t = true) :
    Lowers E (Site.block ⟨r, plan, i⟩ t) p fun _ p' => p' = p :=
  .inl ⟨_, p, Site.block_eq_ok_iff.2 ⟨h, rfl, rfl⟩, rfl⟩

/-- A branch the plan resolves is resolved. -/
theorem Lowers.target {t : Nat} {x : Target} (h : plan.target t = .ok x) :
    Lowers E (Site.target ⟨r, plan, i⟩ t) p fun y p' => y = x ∧ p' = p :=
  .inl ⟨x, p, Site.target_eq_ok_iff.2 ⟨h, rfl⟩, rfl, rfl⟩

/-- Both ways of a conditional branch are resolved. -/
theorem Lowers.branch {cond : Cond} {t : Nat} {x y : Target} (hx : plan.target t = .ok x)
    (hy : plan.target (i + 1) = .ok y) {Q : Progress → Prop} (hQ : Q p) :
    Lowers E (Site.target ⟨r, plan, i⟩ t >>= fun taken => Site.target ⟨r, plan, i⟩ (i + 1) >>= fun next =>
      Pure.pure (⟨[], .branch cond next taken⟩ : CodeStep)) p fun _ p' => Q p' := by
  refine .bind (.target hx) ?_
  rintro _ _ ⟨rfl, rfl⟩
  refine .bind (.target hy) ?_
  rintro _ _ ⟨rfl, rfl⟩
  exact .pure hQ

/-- What waits is taken, and nothing waits any more. -/
theorem Lowers.takePending :
    Lowers E Site.takePending p fun e p' => e = p.pending ∧ p' = { p with pending := none } :=
  .inl ⟨_, _, rfl, rfl, rfl⟩

/-- A case table is resolved if all of its entries are. -/
theorem Lowers.caseTable {entries : List Instruction}
    (h : ∀ entry ∈ entries, r.bounds.IsConstant entry.a.toInt ∧ ∃ x, plan.target entry.target = .ok x)
    (table : List (Int64 × Target)) :
    Lowers E (Site.caseTable ⟨r, plan, i⟩ entries table) p fun _ p' => p' = p := by
  induction entries generalizing table with
  | nil => exact .pure rfl
  | cons entry rest ih =>
    obtain ⟨hconst, x, hx⟩ := h entry List.mem_cons_self
    have ih := ih fun entry hmem => h entry (List.mem_cons_of_mem _ hmem)
    unfold Site.caseTable
    refine .bind (.constant hconst) ?_
    rintro v p rfl
    cases v.int? with
    | none => exact ih table
    | some key =>
      dsimp only
      split
      · exact ih table
      · refine .bind (.target hx) ?_
        rintro _ _ ⟨rfl, rfl⟩
        exact ih _

/-- **Every instruction of a planned range is lowered**, unless it does not suit its operands. -/
theorem lowers_step (hregs : r.types.size ≤ UInt16.size) (hplan : IsPlan r config plan)
    (hi : i ∈ plan.range) (hins : r.code[i]? = some ins) (hE : Suits r.types ins ∨ Blames E i ins)
    (hready : Ready plan i p) :
    Lowers E (Site.step ⟨r, plan, i⟩ ins) p fun _ p' => Advances plan i ins p p' := by
  have hop := hplan.compilable i hi ins hins
  have hfused : ins.opcode.isComparison = false → i ∉ plan.fused := not_mem_fused hplan hins
  have hnext : ins.opcode ≠ .test .bool → ∀ d ∈ plan.fused, d + 1 ≠ i := succ_ne_of_fused hplan hins
  have htarget (hjump : ins.opcode.isJump = true) := hplan.target_of_branchEdge hi (.of_jump hins hjump)
  have hafter (hjump : ins.opcode.isJump = true) := hplan.target_after_jump hi hins hjump
  have hoperations := lowers_operations hregs hplan hi hins hE hready
  have hread {kind : ScalarKind} (hw : WantsOf ins ins.a.toInt (.scalar kind)) (hu : ins.ra ∈ ins.uses)
      (hnext : ∀ d ∈ plan.fused, d + 1 ≠ i) : plan.ReadableOr E i p ins.ra kind :=
    ⟨hready.held hplan hi hins hnext hu, plannedOr hregs hplan hi hins hE hw (.inl hu)⟩
  obtain ⟨op, a, b, c, line⟩ := ins
  cases op with
  | goto =>
    refine .bind (.target (htarget rfl)) ?_
    rintro _ _ ⟨rfl, rfl⟩
    exact .pure (advances_of_no_defs rfl (hfused rfl) rfl)
  | test kind =>
    cases kind with
    | any => cases hop
    | bool =>
      refine .bind .takePending ?_
      rintro _ _ ⟨rfl, rfl⟩
      cases hpending : p.pending with
      | some e => exact .branch (htarget rfl) (hafter rfl) (advances_of_no_defs rfl (hfused rfl) rfl)
      | none =>
        have hnone : ∀ d ∈ plan.fused, d + 1 ≠ i := fun d hd heq => by
          have hsome := hready.pending d hd heq
          rw [hpending] at hsome
          cases hsome
        refine .bind (.read (hread (wantsOf rfl (.head _)) (.head _) hnone)) ?_
        rintro _ _ ⟨rfl, rfl⟩
        exact .branch (htarget rfl) (hafter rfl) (advances_of_no_defs rfl (hfused rfl) rfl)
    | int =>
      refine .bind .takePending ?_
      rintro _ _ ⟨rfl, rfl⟩
      have hreadable : plan.ReadableOr E i { p with pending := none } (.ofOperand a) .int :=
        hread (wantsOf rfl (.head _)) (.head _) (hnext (by rintro ⟨⟩))
      refine .bind (.read hreadable) ?_
      rintro _ _ ⟨rfl, rfl⟩
      exact .branch (htarget rfl) (hafter rfl) (advances_of_no_defs rfl (hfused rfl) rfl)
    | float =>
      refine .bind (.read (hread (wantsOf rfl (.head _)) (.head _) (hnext (by rintro ⟨⟩)))) ?_
      rintro _ _ ⟨rfl, rfl⟩
      exact .branch (htarget rfl) (hafter rfl) (advances_of_no_defs rfl (hfused rfl) rfl)
  | switch =>
    obtain ⟨hreg, -, -, -⟩ := r.inBounds_of_switch hins rfl
    have hplanned : plan.PlannedOr E i (.ofOperand a) .int := by
      rcases hE with ⟨-, hintegral⟩ | hblames
      · have htype : ∃ t, r.types[(Reg.ofOperand a).toNat]? = some t ∧ t.scalar? = some .int := by
          rw [Routine.toNat_ofOperand hregs hreg]
          rcases hintegral rfl with ht | ht
          · exact ⟨_, ht, rfl⟩
          · exact ⟨_, ht, rfl⟩
        obtain ⟨t, ht, hkind⟩ := htype
        exact .inl (hplan.exists_register hins hi (.inl (.head _)) ht hkind)
      · exact .inr (hblames.operand _ (.inl (.head _)))
    refine .bind (.read ⟨hready.held hplan hi hins (hnext (by rintro ⟨⟩)) (.head _), hplanned⟩) ?_
    rintro _ _ ⟨rfl, rfl⟩
    have hsize := r.lt_size_of_switch hins rfl
    dsimp only
    rw [if_neg (by omega)]
    refine .bind (.caseTable (fun entry hentry => ?_) []) ?_
    · obtain ⟨j, hij, hj, hcode⟩ := mem_caseEntries.1 hentry
      have hcase := r.caseEntry_of_switch hins rfl hij hj hcode
      have hb := r.inBounds hcode
      simp only [Instruction.InBounds, hcase, Opcode.layout] at hb
      have howns : OwnsCase r.code i j := ⟨_, hins, rfl, hij, hj⟩
      exact ⟨hb.1, _, hplan.target_of_branchEdge hi
        ⟨_, hins, .inr ⟨rfl, .inr ⟨j, entry, howns, hcode, rfl⟩⟩⟩⟩
    · rintro table _ rfl
      have hdefault := hplan.target_of_branchEdge hi ⟨_, hins, .inr ⟨rfl, .inl rfl⟩⟩
      refine .bind (.target hdefault) ?_
      rintro _ _ ⟨rfl, rfl⟩
      exact .pure (advances_of_no_defs rfl (hfused rfl) rfl)
  | ret => exact .pure (advances_of_no_defs rfl (hfused rfl) rfl)
  | _ => exact .bind (hoperations rfl (by rintro ⟨⟩)) fun _ _ h => .pure h

/-- At the start of a block nothing waits: a test behind a fused comparison is no leader. -/
theorem Ready.clear (hplan : IsPlan r config plan) (h : Ready plan i p)
    (hleader : plan.leaders.contains i = true) : Ready plan i { p with pending := none } := by
  refine ⟨h.defined, fun d hd heq => ?_⟩
  obtain ⟨cmp, test, hfuses⟩ := hplan.exists_fuses hd
  rw [heq.symm, hfuses.notLeader] at hleader
  cases hleader

/-- One more instruction. -/
theorem lowers_lowerNext (hregs : r.types.size ≤ UInt16.size) (hplan : IsPlan r config plan)
    (hi : i ∈ plan.range) (hins : r.code[i]? = some ins) (hE : Suits r.types ins ∨ Blames E i ins)
    (hready : Ready plan i p) (steps : Array CodeStep) :
    Lowers E (lowerNext r plan steps i) p fun _ p' => Ready plan (i + 1) p' := by
  have hstep : ∀ p, Ready plan i p →
      Lowers E (Site.step ⟨r, plan, i⟩ ins >>= fun step => pure (steps.push step)) p
        fun _ p' => Ready plan (i + 1) p' := fun p hready =>
    .bind (lowers_step hregs hplan hi hins hE hready) fun _ _ h => .pure (hready.next hplan hins h)
  unfold lowerNext
  rw [hins]
  by_cases hleader : plan.leaders.contains i = true
  · rw [if_pos hleader]
    have hclear : ∀ p, Lowers E (modify fun p => { p with pending := none } : LowerM Unit) p
        fun _ p' => p' = { p with pending := none } := fun p => .inl ⟨(), _, rfl, rfl⟩
    refine .bind (.block hleader) ?_
    rintro _ _ rfl
    refine .bind (hclear _) ?_
    rintro _ _ rfl
    exact hstep _ (hready.clear hplan hleader)
  · rw [if_neg hleader]
    exact hstep p hready

/-- **A planned range is lowered**, unless an instruction does not suit its operands. -/
theorem Plan.lowers (hregs : r.types.size ≤ UInt16.size) (hplan : IsPlan r config plan)
    (hE : ∀ i ∈ plan.range, ∀ ins, r.code[i]? = some ins → Suits r.types ins ∨ Blames E i ins) :
    (∃ code, plan.lower r = .ok code) ∨ ∃ e, plan.lower r = .error e ∧ E e := by
  have hfold : ∀ n i, plan.range.first ≤ i → i + n = plan.range.last + 1 → ∀ steps p, Ready plan i p →
      Lowers E ((List.range' i n).foldlM (lowerNext r plan) steps) p fun _ _ => True := by
    intro n
    induction n with
    | zero => exact fun i _ _ steps p _ => .pure trivial
    | succ n ih =>
      intro i hfirst hlast steps p hready
      have hi : i ∈ plan.range := ⟨hfirst, by omega⟩
      have hins := Array.getElem?_eq_getElem (hi.2.trans_lt hplan.bounded)
      rw [List.range'_succ, List.foldlM_cons]
      exact .bind (lowers_lowerNext hregs hplan hi hins (hE i hi _ hins) hready steps)
        fun _ _ hready' => ih (i + 1) (by omega) (by omega) _ _ hready'
  have hready : Ready plan plan.range.first {} := by
    refine ⟨fun q x d w hx hstorage hlt _ => ?_, fun d hd heq => ?_⟩
    · obtain ⟨hmem, -⟩ := ((hplan.carriedFrom hx hstorage).defined_iff d).2 rfl
      have := (IndexRange.contains_iff.1 hmem).1
      omega
    · obtain ⟨cmp, test, hfuses⟩ := hplan.exists_fuses hd
      have := hfuses.inside.1.1
      omega
  have hnonempty := hplan.nonempty
  have hsteps := hfold plan.range.length plan.range.first le_rfl
    (by unfold IndexRange.length; omega) #[] {} hready
  unfold Plan.lower
  rw [if_neg hplan.leaders_ne_nil]
  rcases hsteps with ⟨steps, p', hsteps, -⟩ | ⟨e, hsteps, he⟩
  · refine .inl ⟨⟨plan.range, plan.width, plan.entryRegisters, steps, plan.flushedRegisters⟩, ?_⟩
    change ((List.range' plan.range.first plan.range.length).foldlM (lowerNext r plan) #[] {} >>= fun x => _) = _
    rw [hsteps]
    rfl
  · refine .inr ⟨e, ?_, he⟩
    change ((List.range' plan.range.first plan.range.length).foldlM (lowerNext r plan) #[] {} >>= fun x => _) = _
    rw [hsteps]
    rfl

/-- **Sound ranges are lowered.** -/
theorem Plan.exists_lower {k : Classifier} (hregs : r.types.size ≤ UInt16.size) (hplan : IsPlan r config plan)
    (hsound : SoundRange k r.code r.types plan.range) : ∃ code, plan.lower r = .ok code := by
  refine (Plan.lowers (E := fun _ => False) hregs hplan fun i hi ins hins => ?_).resolve_right ?_
  · exact .inl (suits_of_sound hsound hi hins)
  · rintro ⟨-, -, ⟨⟩⟩

/-- **Lowering has no internal failures.** A range that can be planned is lowered, unless an instruction
names an operand that is not planned as it wants, or a mathematical function that there is not. -/
theorem Plan.lower_fails_only_for_operands {range : IndexRange} (hregs : r.types.size ≤ UInt16.size)
    (hbuild : Plan.build r.code r.types (.ofCode r.code r.types.size) range config = .ok plan) :
    (∃ code, plan.lower r = .ok code) ∨
      (∃ i ∈ range, ∃ ins q, r.code[i]? = some ins ∧ (q ∈ ins.uses ∨ q ∈ ins.defs) ∧
        plan.lower r = .error (.operandType i q)) ∨
      ∃ i ∈ range, ∃ ins, r.code[i]? = some ins ∧ ins.opcode = .math ∧
        MathFn.ofNumber? ins.a.toInt = none ∧ plan.lower r = .error (.unsupported .math) := by
  obtain ⟨rfl, hplan⟩ := Plan.isPlan_of_build hbuild
  let blamed (e : CodegenError) : Prop := ∃ i ∈ plan.range, ∃ ins, r.code[i]? = some ins ∧
    ((∃ q, (q ∈ ins.uses ∨ q ∈ ins.defs) ∧ e = .operandType i q) ∨
      ins.opcode = .math ∧ MathFn.ofNumber? ins.a.toInt = none ∧ e = .unsupported .math)
  have hblames : ∀ i ∈ plan.range, ∀ ins, r.code[i]? = some ins → Blames blamed i ins := by
    intro i hi ins hins
    refine ⟨fun q hq => ?_, fun hop hnone => ?_⟩
    · exact ⟨i, hi, ins, hins, .inl ⟨q, hq, rfl⟩⟩
    · exact ⟨i, hi, ins, hins, .inr ⟨hop, hnone, rfl⟩⟩
  rcases Plan.lowers hregs hplan fun i hi ins hins => .inr (hblames i hi ins hins) with
    hok | ⟨e, herror, i, hi, ins, hins, ⟨q, hq, rfl⟩ | ⟨hop, hnone, rfl⟩⟩
  · exact .inl hok
  · exact .inr (.inl ⟨i, hi, ins, q, hins, hq, herror⟩)
  · exact .inr (.inr ⟨i, hi, ins, hins, hop, hnone, herror⟩)

end

end Native

/-- A switch whose only case calls a mathematical function that there is not. -/
def Routine.miscalls : Routine where
  name := "miscalls"
  code := #[⟨.switch, 0, 3, 1, 0⟩, ⟨.caseEntry, 0, 2, 0, 0⟩, ⟨.math, 99, 1, 1, 0⟩,
    ⟨.intArith .add, 0, 1, 0, 0⟩, ⟨.ret, 0, 1, 0, 0⟩]
  types := #[.int, .float]
  constants := #[.ofInt 0]
  checked := by decide

/-- The range begins inside the case table, so no segment finder gives it. -/
theorem Native.Plan.lower_miscalls :
    let r := Routine.miscalls
    let range : IndexRange := ⟨1, 4⟩
    r.types.size ≤ UInt16.size ∧
      ∃ plan, Plan.build r.code r.types (.ofCode r.code r.types.size) range {} = .ok plan ∧
        ((∃ code, plan.lower r = .ok code) ∨
          (∃ i ∈ range, ∃ ins q, r.code[i]? = some ins ∧ (q ∈ ins.uses ∨ q ∈ ins.defs) ∧
            plan.lower r = .error (.operandType i q)) ∨
          ∃ i ∈ range, ∃ ins, r.code[i]? = some ins ∧ ins.opcode = .math ∧
            MathFn.ofNumber? ins.a.toInt = none ∧ plan.lower r = .error (.unsupported .math)) := by
  intro r range
  have hregs : r.types.size ≤ UInt16.size := by decide
  obtain ⟨plan, hbuild⟩ : ∃ plan, Plan.build r.code r.types (.ofCode r.code r.types.size) range {} = .ok plan :=
    ⟨_, rfl⟩
  exact ⟨hregs, plan, hbuild, Plan.lower_fails_only_for_operands hregs hbuild⟩

end RegisterVM
