import RegisterVM.Proofs.DataflowPaths
import RegisterVM.Proofs.Lowering

/-!
# A plan loses no live register

Compiled code keeps scalars in variables of its own, and the code behind the range reads the register
file. So a value that the range computes and that is read later has to get back into its slot on every
path. A plan provides for that (`Plan.keeps_live_values`): the register is carried from the very
definition that is last on the path and stored there, or it is a variable that is stored at the exits.

A fused comparison stores nothing at all. Its value cannot be the one that leaves the range: the test
right after it is no exit, and behind the test nothing reads the register (`not_mem_fused_of_leavesFrom`).
-/

namespace RegisterVM

namespace Dataflow

variable {code : Array Instruction} {i j k : Nat} {path : List Nat}

/-- A path, from one of the instructions on it. -/
theorem Path.of_append {front : List Nat} (h : Path code i (front ++ j :: path) k) :
    Path code j (j :: path) k := by
  induction front generalizing i with
  | nil =>
    cases h with
    | cons hstep hrest => exact .cons hstep hrest
  | cons _ _ ih =>
    cases h with
    | cons _ hrest => exact ih hrest

/-- Control enters a range at its start, stays inside and leaves at `p`, where register `q` has the value
that instruction `d` gave it last. -/
structure LeavesFrom (code : Array Instruction) (range : IndexRange) (q : Reg) (d p : Nat) : Prop where
  exit : ExitPoint code range p
  defines : DefinesAt code d q
  path : ∃ front back, Path code range.first (front ++ d :: back) p ∧
    (∀ i ∈ front ++ d :: back, i ∈ range) ∧ Clear code q back

/-- The definition that reaches an exit lies in the range. -/
theorem LeavesFrom.mem {range : IndexRange} {q : Reg} {d p : Nat} (h : LeavesFrom code range q d p) :
    d ∈ range := by
  obtain ⟨front, back, -, hinside, -⟩ := h.path
  exact hinside d (List.mem_append_right _ List.mem_cons_self)

end Dataflow

namespace Native

open Dataflow (LeavesFrom ReadsAhead)

section

variable {r : Routine} {config : Config} {plan : Plan} {q : Reg} {d p : Nat}

/-- **The value of a fused comparison does not leave the range** for where it is read again. -/
theorem not_mem_fused_of_leavesFrom (hplan : IsPlan r config plan) (h : LeavesFrom r.code plan.range q d p)
    (hahead : ReadsAhead r.code p q) : d ∉ plan.fused := by
  intro hd
  obtain ⟨cmp, test, hfuses⟩ := hplan.exists_fuses hd
  obtain ⟨ins, hins, hq⟩ := h.defines
  rw [hfuses.compareAt, Option.some.injEq] at hins
  subst hins
  obtain rfl := hfuses.eq_rc_of_mem_defs hq
  obtain ⟨front, back, hpath, -, hclear⟩ := h.path
  -- from the comparison the path can only go to the test, and from there to where the register is dead
  cases hpath.of_append with
  | cons hstep hrest =>
    obtain rfl := eq_succ_of_mem_successors hfuses.compareAt hfuses.comparison hstep
    cases hrest with
    | nil =>
      rcases h.exit with ⟨-, ins, hins, hop⟩ | ⟨hlast, -⟩
      · rw [hfuses.testAt, Option.some.injEq] at hins
        rw [← hins, hfuses.opcode] at hop
        cases hop
      · have := hfuses.inside.2.2
        omega
    | cons hstep hrest =>
      rw [Dataflow.clear_cons] at hclear
      have hlive : (Dataflow.ofCode r.code r.types.size).isLiveIn cmp.rc _ = true :=
        Dataflow.isLiveIn_iff_readsAhead.2 (hahead.of_path hrest hclear.2)
      rw [hfuses.dead _ (eq_of_mem_successors_test hfuses.testAt hfuses.opcode hstep)] at hlive
      cases hlive

/-- **A value that leaves the range and is read again gets back into its slot**: at its definition or
where control leaves. -/
theorem storage_of_leavesFrom (hplan : IsPlan r config plan) (h : LeavesFrom r.code plan.range q d p)
    (hahead : ReadsAhead r.code p q) {t : ValueType} (ht : r.types[q.toNat]? = some t) {kind : ScalarKind}
    (hkind : t.scalar? = some kind) :
    ∃ x, plan.register? q = some x ∧ (x.storage = .direct d true ∨ x.storage = .stack true true) := by
  obtain ⟨ins, hins, hq⟩ := h.defines
  obtain ⟨x, hx, -⟩ := hplan.exists_register hins h.mem (.inr hq) ht hkind
  have hout : (Dataflow.ofCode r.code r.types.size).isLiveOut q plan.range = true :=
    Dataflow.isLiveOut_iff_exists.2 ⟨p, h.exit, hahead⟩
  obtain ⟨hdirect, hstack⟩ := hplan.liveOut hx
  refine ⟨x, hx, ?_⟩
  cases hstorage : x.storage with
  | direct d' w =>
    have hsame : d = d' := ((hplan.carriedFrom hx hstorage).defined_iff d).1
      ⟨IndexRange.contains_iff.2 h.mem, ins, hins, hq⟩
    rw [hsame, hdirect d' w hstorage, hout]
    exact .inl rfl
  | stack defined flush =>
    cases defined with
    | false => exact absurd hstorage (hplan.storage_ne_of_defs h.mem hins hq hx flush)
    | true =>
      rw [hstack flush hstorage, hout]
      exact .inr rfl

end

/-- **A plan loses no live register.** A scalar that leaves the range with the value of its last
definition, and that is read again, is stored at that definition or at the exits, and the definition is no
fused comparison. What a fused comparison would have written is read by no path behind its test. -/
theorem Plan.keeps_live_values {r : Routine} {config : Config} {range : IndexRange} {plan : Plan}
    (hbuild : Plan.build r.code r.types (.ofCode r.code r.types.size) range config = .ok plan) :
    (∀ q d p t kind, LeavesFrom r.code range q d p → ReadsAhead r.code p q →
      r.types[q.toNat]? = some t → t.scalar? = some kind →
        (∃ x, plan.register? q = some x ∧
          (x.storage = .direct d true ∨ x.storage = .stack true true)) ∧ d ∉ plan.fused) ∧
      ∀ i ∈ plan.fused, ∃ cmp test, r.code[i]? = some cmp ∧ cmp.opcode.isComparison = true ∧
        r.code[i + 1]? = some test ∧ test.opcode = .test .bool ∧
          ∀ j, j = i + 2 ∨ j = test.target → ¬ReadsAhead r.code j cmp.rc := by
  obtain ⟨rfl, hplan⟩ := Plan.isPlan_of_build hbuild
  refine ⟨fun q d p t kind hleaves hahead ht hkind => ⟨?_, ?_⟩, fun i hi => ?_⟩
  · exact storage_of_leavesFrom hplan hleaves hahead ht hkind
  · exact not_mem_fused_of_leavesFrom hplan hleaves hahead
  · obtain ⟨cmp, test, hfuses⟩ := hplan.exists_fuses hi
    refine ⟨cmp, test, hfuses.compareAt, hfuses.comparison, hfuses.testAt, hfuses.opcode, ?_⟩
    intro j hj hahead
    have hlive := hfuses.dead j hj
    rw [Dataflow.isLiveIn_iff_readsAhead.2 hahead] at hlive
    cases hlive

end Native

/-- Adds register 1 to register 0, unless a comparison of the two tells it not to. -/
def Routine.bump : Routine where
  name := "bump"
  code := #[⟨.compareInt .lt, 0, 1, 2, 0⟩, ⟨.test .bool, 2, 3, 0, 0⟩, ⟨.intArith .add, 0, 1, 0, 0⟩,
    ⟨.ret, 0, 1, 0, 0⟩]
  types := #[.int, .int, .bool]
  constants := #[]
  checked := by decide

/-- The sum leaves at the return, which reads it. The comparison is fused with the test behind it. -/
theorem Native.Plan.keeps_live_values_bump :
    let r := Routine.bump
    ∃ plan, Plan.build r.code r.types (.ofCode r.code r.types.size) ⟨0, 3⟩ {} = .ok plan ∧
      Dataflow.LeavesFrom r.code ⟨0, 3⟩ 0 2 3 ∧ Dataflow.ReadsAhead r.code 3 0 ∧
      ((∃ x, plan.register? 0 = some x ∧
        (x.storage = .direct 2 true ∨ x.storage = .stack true true)) ∧ 2 ∉ plan.fused) ∧
      0 ∈ plan.fused ∧ ¬Dataflow.ReadsAhead r.code 2 2 := by
  intro r
  obtain ⟨plan, hbuild, hfused⟩ : ∃ plan,
      Plan.build r.code r.types (.ofCode r.code r.types.size) ⟨0, 3⟩ {} = .ok plan ∧ 0 ∈ plan.fused :=
    ⟨_, rfl, by decide +kernel⟩
  have hleaves : Dataflow.LeavesFrom r.code ⟨0, 3⟩ 0 2 3 := by
    have hpath : Dataflow.Path r.code 0 [0, 1, 2] 3 :=
      .cons (k := 1) (by decide) (.cons (k := 2) (by decide) (.cons (k := 3) (by decide) (.nil 3)))
    have hinside : ∀ i ∈ [0, 1, 2], i ≤ 3 := by decide
    exact ⟨.inl ⟨⟨by decide, by decide⟩, _, rfl, rfl⟩, ⟨_, rfl, .head _⟩, [0, 1], [], hpath,
      fun i hi => ⟨Nat.zero_le i, hinside i hi⟩, Dataflow.clear_nil⟩
  have hahead : Dataflow.ReadsAhead r.code 3 0 := .of_usesAt ⟨_, rfl, .head _⟩
  obtain ⟨hkept, hdead⟩ := Plan.keeps_live_values hbuild
  refine ⟨plan, hbuild, hleaves, hahead, hkept 0 2 3 .int .int hleaves hahead rfl rfl, hfused, ?_⟩
  obtain ⟨cmp, test, hcmp, -, -, -, hnone⟩ := hdead 0 hfused
  cases hcmp
  exact hnone 2 (.inl rfl)

end RegisterVM
