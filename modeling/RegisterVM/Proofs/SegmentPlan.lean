import RegisterVM.Native.Plan
import RegisterVM.Proofs.Reachability
import RegisterVM.Proofs.RegisterSets
import RegisterVM.Proofs.SoundRange

/-!
# Plans of sound ranges

A sound range whose opcodes all have a compiled form can be planned (`Plan.exists_build`): branches
stay inside or go right behind, and no branch goes to a case entry.

What a plan holds, of a sound range or not, in terms of the code (`IsPlan`):

* a register the range touches is planned exactly if its declared type is scalar, with the tag of that
  type (`IsPlan.exists_register`, `IsPlan.register?_eq_some_iff`);
* every branch target inside the range, and what follows a test, is a leader
  (`IsPlan.target_of_branchEdge`, `IsPlan.target_after_jump`);
* the storage an instruction reaches is provided for (`IsPlan.needs_constants`,
  `IsPlan.needs_storage`).
-/

namespace RegisterVM

/-! ### Lists of checks -/

/-- A computation for each member of a list succeeds just if each of them does. -/
theorem mapM_eq_ok_iff {ε α β : Type} {f : α → Except ε β} {xs : List α} {ys : List β} :
    xs.mapM f = .ok ys ↔ List.Forall₂ (fun x y => f x = .ok y) xs ys := by
  induction xs generalizing ys with
  | nil => simp [pure, Except.pure, eq_comm]
  | cons x xs ih =>
    rw [List.mapM_cons]
    cases hx : f x with
    | error e => simp [bind, Except.bind, hx, List.forall₂_cons_left_iff]
    | ok y =>
      cases hxs : xs.mapM f with
      | error e =>
        have hnone : ∀ ys, ¬List.Forall₂ (fun x y => f x = .ok y) xs ys := fun ys h => by
          rw [ih.2 h] at hxs
          cases hxs
        simp [bind, Except.bind, hx, List.forall₂_cons_left_iff, hnone]
      | ok zs =>
        have hzs : ∀ ys, List.Forall₂ (fun x y => f x = .ok y) xs ys ↔ zs = ys := fun ys => by
          rw [← ih, hxs, Except.ok.injEq]
        simp [bind, Except.bind, hx, List.forall₂_cons_left_iff, hzs, pure, Except.pure, eq_comm]

/-- A sequence that succeeds does so in both parts. -/
theorem exists_of_except_bind_eq_ok {ε α β : Type} {m : Except ε α} {f : α → Except ε β} {b : β}
    (h : (m >>= f) = .ok b) : ∃ a, m = .ok a ∧ f a = .ok b := by
  cases m with
  | error e => cases h
  | ok a => exact ⟨a, rfl, h⟩

/-- Every member of a list has its result. -/
theorem exists_mem_of_mapM {ε α β : Type} {f : α → Except ε β} {xs : List α} {ys : List β}
    (h : xs.mapM f = .ok ys) {x : α} (hx : x ∈ xs) : ∃ y ∈ ys, f x = .ok y := by
  have hall := mapM_eq_ok_iff.1 h
  clear h
  induction hall with
  | nil => cases hx
  | @cons x' y xs ys hy _ ih =>
    rcases List.mem_cons.1 hx with rfl | hx
    · exact ⟨y, List.mem_cons_self, hy⟩
    · obtain ⟨y, hmem, hy⟩ := ih hx
      exact ⟨y, List.mem_cons_of_mem _ hmem, hy⟩

/-- Every result comes from a member of the list. -/
theorem exists_of_mem_mapM {ε α β : Type} {f : α → Except ε β} {xs : List α} {ys : List β}
    (h : xs.mapM f = .ok ys) {y : β} (hy : y ∈ ys) : ∃ x ∈ xs, f x = .ok y := by
  have hall := mapM_eq_ok_iff.1 h
  clear h
  induction hall with
  | nil => cases hy
  | @cons x y' xs ys hx _ ih =>
    rcases List.mem_cons.1 hy with rfl | hy
    · exact ⟨x, List.mem_cons_self, hx⟩
    · obtain ⟨x, hmem, hx⟩ := ih hy
      exact ⟨x, List.mem_cons_of_mem _ hmem, hx⟩

/-- Checks that all pass make a list of results. -/
theorem exists_mapM_eq_ok {ε α β : Type} {f : α → Except ε β} {xs : List α}
    (h : ∀ x ∈ xs, ∃ y, f x = .ok y) : ∃ ys, xs.mapM f = .ok ys := by
  induction xs with
  | nil => exact ⟨[], rfl⟩
  | cons x xs ih =>
    obtain ⟨y, hy⟩ := h x List.mem_cons_self
    obtain ⟨ys, hys⟩ := ih fun x hx => h x (List.mem_cons_of_mem _ hx)
    exact ⟨y :: ys, mapM_eq_ok_iff.2 (.cons hy (mapM_eq_ok_iff.1 hys))⟩

namespace Native
namespace Plan

variable {r : Routine} {range : IndexRange} {config : Config}

/-! ### Planned registers -/

/-- The set with the registers of instruction `i`. -/
def addRoles (g : FlowGraph) (s : RegSet) (i : Nat) : RegSet :=
  (g.usesAt i).foldl RegSet.insert ((g.defsAt i).foldl RegSet.insert s)

/-- The registers of one instruction are added. -/
theorem contains_addRoles {g : FlowGraph} {s : RegSet} {i : Nat} {q : Reg} :
    (addRoles g s i).contains q = true ↔ (q ∈ g.usesAt i ∨ q ∈ g.defsAt i) ∨ s.contains q = true := by
  rw [addRoles, RegSet.contains_foldl_insert, RegSet.contains_foldl_insert, or_assoc]

/-- The registers of several instructions are added. -/
theorem contains_foldl_addRoles {g : FlowGraph} {is : List Nat} {s : RegSet} {q : Reg} :
    (is.foldl (addRoles g) s).contains q = true ↔
      (∃ i ∈ is, q ∈ g.usesAt i ∨ q ∈ g.defsAt i) ∨ s.contains q = true := by
  induction is generalizing s with
  | nil => simp
  | cons i is ih =>
    rw [List.foldl_cons, ih, contains_addRoles, List.exists_mem_cons_iff]
    exact or_left_comm.trans or_assoc.symm

/-- A set that fits still does with the registers of instructions added. -/
theorem fits_foldl_addRoles (g : FlowGraph) {s : RegSet} (hs : s.Fits) (is : List Nat) :
    (is.foldl (addRoles g) s).Fits := by
  induction is generalizing s with
  | nil => exact hs
  | cons i is ih => exact ih (RegSet.Fits.foldl_insert (hs.foldl_insert _) _)

/-- The registers an instruction of a code uses or defines. -/
theorem mem_roles_ofCode {code : Array Instruction} {i : Nat} {q : Reg} :
    q ∈ (FlowGraph.ofCode code).usesAt i ∨ q ∈ (FlowGraph.ofCode code).defsAt i ↔
      ∃ ins, code[i]? = some ins ∧ (q ∈ ins.uses ∨ q ∈ ins.defs) := by
  cases hi : code[i]? with
  | none => simp [FlowGraph.usesAt, FlowGraph.defsAt, FlowGraph.ofCode, Array.getD_eq_getD_getElem?, hi]
  | some ins => simp [FlowGraph.usesAt_ofCode hi, FlowGraph.defsAt_ofCode hi]

/-- **The registers a range touches are those its instructions use or define.** -/
theorem mem_touched_iff {code : Array Instruction} {registers : Nat} {q : Reg} :
    q ∈ touched (.ofCode code registers) range ↔
      ∃ i ∈ range, ∃ ins, code[i]? = some ins ∧ (q ∈ ins.uses ∨ q ∈ ins.defs) := by
  have hfits := fits_foldl_addRoles (.ofCode code) RegSet.fits_empty range.indices
  refine hfits.mem_toList.trans (contains_foldl_addRoles.trans ?_)
  simp only [RegSet.contains_empty, mem_roles_ofCode, IndexRange.mem_indices, Bool.false_eq_true, or_false]
  exact Iff.rfl

/-- A register that an instruction of the range uses or defines is touched. -/
theorem mem_touched {code : Array Instruction} {registers i : Nat} {ins : Instruction} {q : Reg}
    (hi : code[i]? = some ins) (hmem : i ∈ range) (hq : q ∈ ins.uses ∨ q ∈ ins.defs) :
    q ∈ touched (.ofCode code registers) range := mem_touched_iff.2 ⟨i, hmem, ins, hi, hq⟩

/-- The decision for a register depends on its type and the range alone. -/
theorem find?_planRegisters {types : Array ValueType} {facts : Dataflow} {q : Reg} {p : RegPlan} :
    ((planRegisters types facts range config).find? (·.1 == q)).map (·.2) = some p ↔
      q ∈ touched facts range ∧ (types[q.toNat]?).bind ValueType.scalarTag? = some p.tag ∧
        p.storage = storage facts range config q := by
  unfold planRegisters
  induction touched facts range with
  | nil => simp
  | cons x xs ih =>
    rw [List.mem_cons]
    by_cases hx : x = q
    · subst hx
      cases htag : (types[x.toNat]?).bind ValueType.scalarTag? with
      | none =>
        rw [List.filterMap_cons_none (by rw [htag]; rfl), ih, htag]
        simp
      | some tag =>
        rw [List.filterMap_cons_some (by rw [htag]; rfl), List.find?_cons_of_pos (by simp)]
        obtain ⟨tag', storage'⟩ := p
        simp [eq_comm]
    · have hne : ¬q = x := fun h => hx h.symm
      rw [or_iff_right hne, ← ih]
      cases htag : (types[x.toNat]?).bind ValueType.scalarTag? with
      | none => rw [List.filterMap_cons_none (by rw [htag]; rfl)]
      | some tag =>
        rw [List.filterMap_cons_some (by rw [htag]; rfl), List.find?_cons_of_neg (by simp [hx])]

/-! ### Leaders -/

/-- A branch into the range or right behind it is admitted, unless it goes to a case entry. -/
theorem exists_branchTo {code : Array Instruction} {t : Nat} (hfirst : range.first ≤ t)
    (hlast : t ≤ range.last + 1) (hcase : ¬IsCase code t) :
    ∃ ts, branchTo code range t = .ok ts := by
  unfold branchTo
  rw [if_neg (by simp [IndexRange.admits_iff.2 ⟨hfirst, hlast⟩])]
  split
  · rw [if_neg]
    · exact ⟨_, rfl⟩
    · intro h
      obtain ⟨ins, hins, hop⟩ := (Option.any_eq_true _ _).1 h
      exact hcase ⟨ins, hins, of_decide_eq_true hop⟩
  · exact ⟨_, rfl⟩

/-- A branch that is admitted goes into the range or right behind it. -/
theorem admits_of_branchTo {code : Array Instruction} {t : Nat} {ts : List Nat}
    (h : branchTo code range t = .ok ts) : range.first ≤ t ∧ t ≤ range.last + 1 := by
  unfold branchTo at h
  split at h
  · cases h
  · rename_i hadmits
    exact IndexRange.admits_iff.1 (by simpa using hadmits)

/-- A branch into the range makes its target a leader. -/
theorem mem_of_branchTo {code : Array Instruction} {t : Nat} {ts : List Nat}
    (h : branchTo code range t = .ok ts) (hlast : t ≤ range.last) : t ∈ ts := by
  unfold branchTo at h
  split at h
  · cases h
  · split at h
    · cases h
    · cases h
      exact List.mem_singleton_self _

/-- The leaders of a jump: its target and what comes behind it. -/
theorem leadersAt_of_jump {code : Array Instruction} {i : Nat} {ins : Instruction}
    (hjump : ins.opcode.isJump = true) (hop : ins.opcode.isCompilable = true) :
    leadersAt code range i ins =
      (branchTo code range ins.target >>= fun ts => pure (ts ++ [i + 1])) := by
  obtain ⟨op, a, b, c, line⟩ := ins
  cases op with
  | goto => rfl
  | test kind =>
    cases kind with
    | bool => rfl
    | int => rfl
    | float => rfl
    | any => cases hop
  | _ => cases hjump

/-- The leaders of a switch: its targets and what comes behind its table. -/
theorem leadersAt_of_switch {code : Array Instruction} {i : Nat} {ins : Instruction}
    (hop : ins.opcode = .switch) (hgroup : i + ins.caseCount ≤ range.last) :
    leadersAt code range i ins = ((branchTargets code i).mapM (branchTo code range) >>= fun ts =>
      pure (ts.flatten ++ [i + ins.caseCount + 1])) := by
  unfold leadersAt
  rw [hop]
  dsimp only
  rw [if_neg (by omega)]

/-- **Every instruction of a sound range passes the checks for leaders.** -/
theorem exists_leadersAt {k : Classifier} (h : SoundRange k r.code r.types range) {i : Nat}
    {ins : Instruction} (hi : i ∈ range) (hins : r.code[i]? = some ins)
    (hop : ins.opcode.isCompilable = true) : ∃ ts, leadersAt r.code range i ins = .ok ts := by
  have hbranch : ∀ t, BranchEdge r.code i t → ∃ ts, branchTo r.code range t = .ok ts := fun t ht => by
    obtain ⟨hfirst, hlast, hcase⟩ := h.branches i hi t ht
    exact exists_branchTo hfirst hlast hcase
  by_cases hjump : ins.opcode.isJump = true
  · obtain ⟨ts, hts⟩ := hbranch _ (.of_jump hins hjump)
    rw [leadersAt_of_jump hjump hop, hts]
    exact ⟨_, rfl⟩
  · by_cases hsw : ins.opcode = .switch
    · obtain ⟨ts, hts⟩ := exists_mapM_eq_ok fun t ht => hbranch t (mem_branchTargets.1 ht)
      rw [leadersAt_of_switch hsw (h.groupLast_le hi hins hsw), hts]
      exact ⟨_, rfl⟩
    · obtain ⟨op, a, b, c, line⟩ := ins
      cases op with
      | goto => exact absurd rfl hjump
      | test kind => exact absurd rfl hjump
      | switch => exact absurd rfl hsw
      | _ => exact ⟨_, rfl⟩

/-- A branch of an instruction that passed the checks passed its own, and its target is a leader if it
is inside the range. -/
theorem exists_branchTo_of_leadersAt {code : Array Instruction} {i t : Nat} {ins : Instruction}
    (hins : code[i]? = some ins) (hop : ins.opcode.isCompilable = true) (hedge : BranchEdge code i t)
    {ts : List Nat} (h : leadersAt code range i ins = .ok ts) :
    ∃ us, branchTo code range t = .ok us ∧ us ⊆ ts := by
  have hmem := mem_branchTargets.2 hedge
  by_cases hjump : ins.opcode.isJump = true
  · obtain rfl : t = ins.target := by simpa [branchTargets, hins, hjump] using hmem
    rw [leadersAt_of_jump hjump hop] at h
    obtain ⟨us, hus, h⟩ := exists_of_except_bind_eq_ok h
    cases h
    exact ⟨us, hus, List.subset_append_left _ _⟩
  · have hsw : ins.opcode = .switch := by
      by_contra hsw
      simp [branchTargets, hins, hjump, hsw] at hmem
    unfold leadersAt at h
    rw [hsw] at h
    dsimp only at h
    split at h
    · cases h
    · obtain ⟨us, hus, h⟩ := exists_of_except_bind_eq_ok h
      cases h
      obtain ⟨u, hu, ht⟩ := exists_mem_of_mapM hus hmem
      exact ⟨u, ht, fun x hx => List.mem_append_left _ (List.mem_flatten.2 ⟨u, hu, hx⟩)⟩

/-- What follows a jump or test is a leader. -/
theorem succ_mem_leadersAt {code : Array Instruction} {i : Nat} {ins : Instruction}
    (hop : ins.opcode.isCompilable = true) (hjump : ins.opcode.isJump = true) {ts : List Nat}
    (h : leadersAt code range i ins = .ok ts) : i + 1 ∈ ts := by
  rw [leadersAt_of_jump hjump hop] at h
  obtain ⟨us, hus, h⟩ := exists_of_except_bind_eq_ok h
  cases h
  exact List.mem_append_right _ (List.mem_singleton_self _)

end Plan

/-! ### What is provided for -/

/-- Constants that are provided for stay so. -/
theorem Needs.constants_note {n : Needs} {op : Opcode} (h : n.constants = true) :
    (n.note op).constants = true := by
  cases op with
  | getConst => rfl
  | getConstString => rfl
  | getVar storage kind => cases storage <;> exact h
  | setVar storage kind => cases storage <;> exact h
  | _ => exact h

/-- A storage class that is provided for stays so. -/
theorem Needs.hasStorage_note {n : Needs} {op : Opcode} {storage : StorageClass}
    (h : n.hasStorage storage = true) : (n.note op).hasStorage storage = true := by
  cases op with
  | getVar other kind => cases other <;> cases storage <;> first | rfl | exact h
  | setVar other kind => cases other <;> cases storage <;> first | rfl | exact h
  | getConst => cases storage <;> exact h
  | getConstString => cases storage <;> exact h
  | _ => exact h

/-- What one opcode provides for is there in the end. -/
theorem Needs.foldl_note_of_mem {ops : List Opcode} {needs : Needs} {f : Needs → Bool}
    (hkeep : ∀ n op, f n = true → f (n.note op) = true)
    (h : f needs = true ∨ ∃ op ∈ ops, ∀ n, f (Needs.note n op) = true) :
    f (ops.foldl Needs.note needs) = true := by
  induction ops generalizing needs with
  | nil => exact h.resolve_right (by simp)
  | cons op ops ih =>
    refine ih ?_
    rcases h with h | ⟨op', hmem, hop'⟩
    · exact .inl (hkeep _ _ h)
    · rcases List.mem_cons.1 hmem with rfl | hmem
      · exact .inl (hop' _)
      · exact .inr ⟨op', hmem, hop'⟩

/-- The plan of a segment, said of the code. -/
structure IsPlan (r : Routine) (config : Config) (plan : Plan) : Prop where
  nonempty : plan.range.first ≤ plan.range.last
  bounded : plan.range.last < r.code.size
  compilable : ∀ i ∈ plan.range, ∀ ins, r.code[i]? = some ins → ins.opcode.isCompilable = true
  grouped : ∀ i ∈ plan.range, ∀ sw, r.code[i]? = some sw → sw.opcode = .switch →
    i + sw.caseCount ≤ plan.range.last
  branches : ∀ i ∈ plan.range, ∀ ins, r.code[i]? = some ins →
    ∃ ts, Plan.leadersAt r.code plan.range i ins = .ok ts
  leaders : ∀ t, plan.leaders.contains t = true ↔ t ∈ plan.range ∧ (t = plan.range.first ∨
    ∃ i ∈ plan.range, ∃ ins ts, r.code[i]? = some ins ∧
      Plan.leadersAt r.code plan.range i ins = .ok ts ∧ t ∈ ts)
  registers : plan.registers =
    Plan.planRegisters r.types (.ofCode r.code r.types.size) plan.range config
  fused : plan.fused =
    if config.fuse then plan.range.indices.filter
      (Plan.fusesWithTest r.code (.ofCode r.code r.types.size) plan.range plan.leaders)
    else []
  needs : plan.needs = (plan.range.indices.filterMap fun i =>
    (r.code[i]?).map Instruction.opcode).foldl Needs.note {}

namespace Plan

variable {r : Routine} {config : Config} {range : IndexRange}

/-- There is nothing that cannot be compiled just if all opcodes of the range can. -/
theorem uncompilable?_eq_none_iff {code : Array Instruction} :
    uncompilable? code range = none ↔
      ∀ i ∈ range, ∀ ins, code[i]? = some ins → ins.opcode.isCompilable = true := by
  rw [uncompilable?, List.findSome?_eq_none_iff]
  refine forall_congr' fun i => imp_congr IndexRange.mem_indices ?_
  cases code[i]? <;> simp

/-- The leaders the instruction at an index makes. -/
def leadersOf (code : Array Instruction) (range : IndexRange) (i : Nat) :
    Except CodegenError (List Nat) :=
  match code[i]? with
  | some ins => leadersAt code range i ins
  | none => .ok []

/-- The leaders of a range are the first index and those of its instructions. -/
theorem findLeaders_eq (code : Array Instruction) (range : IndexRange) :
    findLeaders code range = (range.indices.mapM (leadersOf code range) >>= fun found =>
      pure (.ofList range (range.first :: found.flatten))) := rfl

/-- **An index is a leader** if the range starts there or an instruction of the range makes it one. -/
theorem contains_findLeaders {code : Array Instruction} {leaders : Marks}
    (hbounded : range.last < code.size) (h : findLeaders code range = .ok leaders) (t : Nat) :
    leaders.contains t = true ↔ t ∈ range ∧ (t = range.first ∨
      ∃ i ∈ range, ∃ ins ts, code[i]? = some ins ∧ leadersAt code range i ins = .ok ts ∧ t ∈ ts) := by
  rw [findLeaders_eq] at h
  obtain ⟨found, hfound, h⟩ := exists_of_except_bind_eq_ok h
  cases h
  rw [Marks.contains_ofList, List.mem_cons]
  refine and_congr IndexRange.contains_iff (or_congr_right ?_)
  have hins : ∀ i ∈ range, ∃ ins, code[i]? = some ins := fun i hi =>
    ⟨_, Array.getElem?_eq_getElem (hi.2.trans_lt hbounded)⟩
  rw [List.mem_flatten]
  constructor
  · rintro ⟨ts, hts, ht⟩
    obtain ⟨i, hi, hleaders⟩ := exists_of_mem_mapM hfound hts
    have hi : i ∈ range := IndexRange.mem_indices.1 hi
    obtain ⟨ins, hins⟩ := hins i hi
    rw [leadersOf, hins] at hleaders
    exact ⟨i, hi, ins, ts, hins, hleaders, ht⟩
  · rintro ⟨i, hi, ins, ts, hins, hleaders, ht⟩
    obtain ⟨us, hus, heq⟩ := exists_mem_of_mapM hfound (IndexRange.mem_indices.2 hi)
    rw [leadersOf, hins] at heq
    dsimp only at heq
    rw [hleaders, Except.ok.injEq] at heq
    exact ⟨us, hus, heq ▸ ht⟩

/-- Every instruction of a range with a plan passed the checks for leaders. -/
theorem exists_leadersAt_of_findLeaders {code : Array Instruction} {leaders : Marks}
    (h : findLeaders code range = .ok leaders) {i : Nat} (hi : i ∈ range) {ins : Instruction}
    (hins : code[i]? = some ins) : ∃ ts, leadersAt code range i ins = .ok ts := by
  rw [findLeaders_eq] at h
  obtain ⟨found, hfound, -⟩ := exists_of_except_bind_eq_ok h
  obtain ⟨ts, -, hleaders⟩ := exists_mem_of_mapM hfound (IndexRange.mem_indices.2 hi)
  rw [leadersOf, hins] at hleaders
  exact ⟨ts, hleaders⟩

/-- A switch with a plan has all its entries in the range. -/
theorem grouped_findLeaders {code : Array Instruction} {leaders : Marks}
    (h : findLeaders code range = .ok leaders) {i : Nat} (hi : i ∈ range) {sw : Instruction}
    (hsw : code[i]? = some sw) (hop : sw.opcode = .switch) : i + sw.caseCount ≤ range.last := by
  obtain ⟨ts, hleaders⟩ := exists_leadersAt_of_findLeaders h hi hsw
  unfold leadersAt at hleaders
  rw [hop] at hleaders
  dsimp only at hleaders
  split at hleaders
  · cases hleaders
  · omega

/-- **What is built is a plan** for the range that was asked for. -/
theorem isPlan_of_build {plan : Plan}
    (h : build r.code r.types (.ofCode r.code r.types.size) range config = .ok plan) :
    plan.range = range ∧ IsPlan r config plan := by
  unfold build at h
  by_cases hrange : (range.isEmpty || decide (r.code.size ≤ range.last)) = true
  · rw [if_pos hrange] at h
    cases h
  · rw [if_neg hrange] at h
    obtain ⟨hnonempty, hbounded⟩ : range.first ≤ range.last ∧ range.last < r.code.size := by
      simpa [IndexRange.isEmpty] using hrange
    cases hops : uncompilable? r.code range with
    | some op =>
      rw [hops] at h
      cases h
    | none =>
      rw [hops] at h
      obtain ⟨leaders, hleaders, h⟩ := exists_of_except_bind_eq_ok h
      cases h
      exact ⟨rfl, hnonempty, hbounded, uncompilable?_eq_none_iff.1 hops,
        fun i hi sw hsw hop => grouped_findLeaders hleaders hi hsw hop,
        fun i hi ins hins => exists_leadersAt_of_findLeaders hleaders hi hins,
        contains_findLeaders hbounded hleaders, rfl, rfl, rfl⟩

/-- **Sound ranges can be planned.** -/
theorem exists_build {k : Classifier} (h : SoundRange k r.code r.types range)
    (hops : ∀ i ∈ range, ∀ ins, r.code[i]? = some ins → ins.opcode.isCompilable = true)
    (config : Config) :
    ∃ plan, build r.code r.types (.ofCode r.code r.types.size) range config = .ok plan := by
  obtain ⟨leaders, hleaders⟩ : ∃ leaders, findLeaders r.code range = .ok leaders := by
    have hall : ∀ i ∈ range.indices, ∃ ts, leadersOf r.code range i = .ok ts := fun i hi => by
      have hmem : i ∈ range := IndexRange.mem_indices.1 hi
      have hins := Array.getElem?_eq_getElem (hmem.2.trans_lt h.bounded)
      rw [leadersOf, hins]
      exact exists_leadersAt h hmem hins (hops i hmem _ hins)
    obtain ⟨found, hfound⟩ := exists_mapM_eq_ok hall
    exact ⟨_, by rw [findLeaders_eq, hfound]; rfl⟩
  unfold build
  have hrange : ¬(range.isEmpty || decide (r.code.size ≤ range.last)) = true := by
    simpa [IndexRange.isEmpty] using ⟨h.nonempty, h.bounded⟩
  rw [if_neg hrange, uncompilable?_eq_none_iff.2 hops, hleaders]
  exact ⟨_, rfl⟩

end Plan

/-- A branch that resolves to a block goes to a leader. -/
theorem Plan.leader_of_target {plan : Plan} {t k : Nat} (h : plan.target t = .ok (.block k)) :
    plan.leaders.contains k = true := by
  unfold Plan.target at h
  split at h
  · cases h
  · split at h
    · cases h
      assumption
    · cases h

/-- Where a branch to `t` lands. -/
def Plan.landing (p : Plan) (t : Nat) : Target := if t = p.range.last + 1 then .exit else .block t

/-- The comparison at `d` and the test right after it, which alone sees the result. -/
structure Fuses (r : Routine) (plan : Plan) (d : Nat) (cmp test : Instruction) : Prop where
  compareAt : r.code[d]? = some cmp
  testAt : r.code[d + 1]? = some test
  comparison : cmp.opcode.isComparison = true
  inside : d ∈ plan.range ∧ d + 1 ∈ plan.range
  notLeader : plan.leaders.contains (d + 1) = false
  opcode : test.opcode = .test .bool
  operand : test.a = cmp.c
  dead : ∀ t, t = d + 2 ∨ t = test.target →
    (Dataflow.ofCode r.code r.types.size).isLiveIn cmp.rc t = false

namespace IsPlan

variable {r : Routine} {config : Config} {plan : Plan} (h : IsPlan r config plan)
include h

/-- A register is planned if the range touches it and it is declared as a scalar; where it is kept is up to the
analysis. -/
theorem register?_eq_some_iff {q : Reg} {p : RegPlan} : plan.register? q = some p ↔
    q ∈ Plan.touched (.ofCode r.code r.types.size) plan.range ∧
      (r.types[q.toNat]?).bind ValueType.scalarTag? = some p.tag ∧
      p.storage = Plan.storage (.ofCode r.code r.types.size) plan.range config q := by
  rw [Plan.register?, h.registers]
  exact Plan.find?_planRegisters

/-- **A scalar register the range touches is planned.** -/
theorem exists_register {i : Nat} {ins : Instruction} (hi : r.code[i]? = some ins)
    (hmem : i ∈ plan.range) {q : Reg} (hq : q ∈ ins.uses ∨ q ∈ ins.defs) {t : ValueType}
    (ht : r.types[q.toNat]? = some t) {kind : ScalarKind} (hkind : t.scalar? = some kind) :
    ∃ p, plan.register? q = some p ∧ p.kind = kind := by
  obtain ⟨tag, htag, rfl⟩ : ∃ tag, t.scalarTag? = some tag ∧ tag.kind = kind := by
    cases t <;> simp_all [ValueType.scalar?, ValueType.scalarTag?, ScalarTag.kind]
  refine ⟨⟨tag, _⟩, h.register?_eq_some_iff.2 ⟨Plan.mem_touched hi hmem hq, ?_, rfl⟩, rfl⟩
  rw [ht]
  exact htag

/-- A register that is carried directly has one definition, which every use sees. -/
theorem carriedFrom {q : Reg} {p : RegPlan} (hp : plan.register? q = some p) {d : Nat} {w : Bool}
    (hstorage : p.storage = .direct d w) : Dataflow.CarriedFrom r.code plan.range q d := by
  obtain ⟨-, -, hp⟩ := h.register?_eq_some_iff.1 hp
  rw [hstorage, Plan.storage] at hp
  dsimp only at hp
  split at hp
  · rename_i hdef
    cases hp
    split at hdef
    · exact Dataflow.carriedFrom_of_directDef hdef
    · cases hdef
  · cases hp

/-- A register the range defines is stored as such. -/
theorem storage_ne_of_defs {i : Nat} {ins : Instruction} (hi : i ∈ plan.range)
    (hins : r.code[i]? = some ins) {q : Reg} (hq : q ∈ ins.defs) {x : RegPlan} (hx : plan.register? q = some x)
    (flush : Bool) : x.storage ≠ .stack false flush := fun hstorage => by
  obtain ⟨-, -, hx⟩ := h.register?_eq_some_iff.1 hx
  have hdefined : Plan.isDefined (.ofCode r.code r.types.size) plan.range q = true :=
    List.any_eq_true.2 ⟨i, IndexRange.mem_indices.2 hi, (Dataflow.defines_iff hins).2 hq⟩
  rw [hstorage, Plan.storage] at hx
  dsimp only at hx
  split at hx
  · cases hx
  · rw [hdefined] at hx
    cases hx

/-- A register is written through or flushed exactly if it is live where control leaves. -/
theorem liveOut {q : Reg} {x : RegPlan} (hx : plan.register? q = some x) :
    (∀ d w, x.storage = .direct d w →
      w = (Dataflow.ofCode r.code r.types.size).isLiveOut q plan.range) ∧
    ∀ f, x.storage = .stack true f → f = (Dataflow.ofCode r.code r.types.size).isLiveOut q plan.range := by
  obtain ⟨-, -, hx⟩ := h.register?_eq_some_iff.1 hx
  rw [hx, Plan.storage]
  dsimp only
  split
  · refine ⟨?_, nofun⟩
    rintro d w ⟨⟩
    rfl
  · refine ⟨nofun, fun f hf => ?_⟩
    rw [Storage.stack.injEq] at hf
    obtain ⟨hdefined, rfl⟩ := hf
    rw [hdefined, Bool.true_and]

/-- A register is listed with a decision just if that is what looking it up gives. -/
theorem mem_registers_iff {q : Reg} {x : RegPlan} :
    (q, x) ∈ plan.registers ↔ plan.register? q = some x := by
  constructor
  · intro hmem
    rw [h.registers] at hmem
    obtain ⟨q', hq', hmap⟩ := List.mem_filterMap.1 hmem
    obtain ⟨tag, htag, heq⟩ := Option.map_eq_some_iff.1 hmap
    cases heq
    exact h.register?_eq_some_iff.2 ⟨hq', htag, rfl⟩
  · intro hx
    obtain ⟨⟨q', x'⟩, hfind, heq⟩ := Option.map_eq_some_iff.1 hx
    have hq := List.find?_some hfind
    have hmem := List.mem_of_find?_eq_some hfind
    rw [beq_iff_eq] at hq
    dsimp only at hq heq
    rwa [hq, heq] at hmem

/-- A fused comparison has its test behind it. -/
theorem exists_fuses {d : Nat} (hd : d ∈ plan.fused) : ∃ cmp test, Fuses r plan d cmp test := by
  rw [h.fused] at hd
  split at hd
  · obtain ⟨hmem, hfuses⟩ := List.mem_filter.1 hd
    unfold Plan.fusesWithTest at hfuses
    split at hfuses
    · rename_i cmp test hcmp htest
      simp only [Bool.and_eq_true, decide_eq_true_eq, Bool.not_eq_true'] at hfuses
      obtain ⟨⟨⟨⟨⟨⟨hcomp, hlast⟩, hleader⟩, hop⟩, hoperand⟩, hnext⟩, htarget⟩ := hfuses
      have hd := IndexRange.mem_indices.1 hmem
      have hdead : ∀ t, (decide (t < r.code.size) && (Dataflow.ofCode r.code r.types.size).isLiveIn cmp.rc t)
          = false → (Dataflow.ofCode r.code r.types.size).isLiveIn cmp.rc t = false := by
        intro t ht
        by_cases hlt : t < r.code.size
        · simpa [hlt] using ht
        · exact Dataflow.isLiveIn_of_size_le (by omega)
      refine ⟨cmp, test, hcmp, htest, hcomp, ⟨hd, ⟨Nat.le_succ_of_le hd.1, hlast⟩⟩, hleader, hop,
        hoperand, ?_⟩
      rintro t (rfl | rfl)
      · exact hdead _ hnext
      · exact hdead _ htarget
    · cases hfuses
  · cases hd

/-- A branch to a leader resolves. -/
theorem target_eq_of_leader {t : Nat} (ht : plan.leaders.contains t = true) :
    plan.target t = .ok (plan.landing t) := by
  have hmem := ((h.leaders t).1 ht).1
  have hne : t ≠ plan.range.last + 1 := fun heq => by
    have := hmem.2
    omega
  rw [Plan.target, Plan.landing, if_neg hne, if_neg hne, if_pos ht]

/-- A planned range has blocks: one starts where it starts. -/
theorem leaders_ne_nil : ¬plan.leaders.toList.isEmpty = true := by
  rw [List.isEmpty_iff]
  have hfirst : plan.leaders.contains plan.range.first = true :=
    (h.leaders _).2 ⟨⟨le_rfl, h.nonempty⟩, .inl rfl⟩
  exact List.ne_nil_of_mem (Marks.mem_toList.2 hfirst)

omit h in
/-- So does a branch right behind the range. -/
theorem target_exit : plan.target (plan.range.last + 1) = .ok (plan.landing (plan.range.last + 1)) := by
  rw [Plan.target, Plan.landing, if_pos rfl, if_pos rfl]

/-- **The targets of branches in a planned range resolve.** -/
theorem target_of_branchEdge {i t : Nat} (hi : i ∈ plan.range) (hedge : BranchEdge r.code i t) :
    plan.target t = .ok (plan.landing t) := by
  have hins := Array.getElem?_eq_getElem hedge.lt_size
  obtain ⟨ts, hts⟩ := h.branches i hi _ hins
  obtain ⟨us, hus, hsub⟩ := Plan.exists_branchTo_of_leadersAt hins (h.compilable i hi _ hins) hedge hts
  obtain ⟨hfirst, hlast⟩ := Plan.admits_of_branchTo hus
  rcases Nat.lt_or_ge plan.range.last t with hlt | hle
  · obtain rfl : t = plan.range.last + 1 := by omega
    exact target_exit
  · exact h.target_eq_of_leader ((h.leaders t).2 ⟨⟨hfirst, hle⟩,
      .inr ⟨i, hi, _, ts, hins, hts, hsub (Plan.mem_of_branchTo hus hle)⟩⟩)

/-- What follows a jump or test resolves as well. -/
theorem target_after_jump {i : Nat} {ins : Instruction} (hi : i ∈ plan.range)
    (hins : r.code[i]? = some ins) (hjump : ins.opcode.isJump = true) :
    plan.target (i + 1) = .ok (plan.landing (i + 1)) := by
  have hmem := hi
  obtain ⟨hfirst, hlast⟩ := hi
  rcases Nat.eq_or_lt_of_le hlast with heq | hlt
  · rw [heq]
    exact target_exit
  · obtain ⟨ts, hts⟩ := h.branches i hmem _ hins
    refine h.target_eq_of_leader
      ((h.leaders _).2 ⟨⟨by omega, hlt⟩, .inr ⟨i, hmem, ins, ts, hins, hts, ?_⟩⟩)
    exact Plan.succ_mem_leadersAt (h.compilable i hmem _ hins) hjump hts

omit h in
/-- The opcodes of a range are those of its instructions. -/
theorem opcode_mem {i : Nat} {ins : Instruction} (hi : i ∈ plan.range) (hins : r.code[i]? = some ins) :
    ins.opcode ∈ plan.range.indices.filterMap fun i => (r.code[i]?).map Instruction.opcode :=
  List.mem_filterMap.2 ⟨i, IndexRange.mem_indices.2 hi, by rw [hins]; rfl⟩

/-- The plan provides for constants if an instruction loads one. -/
theorem needs_constants {i : Nat} {ins : Instruction} (hi : i ∈ plan.range)
    (hins : r.code[i]? = some ins) (hop : ins.opcode = .getConst ∨ ins.opcode = .getConstString) :
    plan.needs.constants = true := by
  rw [h.needs]
  refine Needs.foldl_note_of_mem (fun n op => Needs.constants_note) (.inr ⟨_, opcode_mem hi hins, ?_⟩)
  rcases hop with hop | hop <;> intro n <;> rw [hop] <;> rfl

/-- The plan provides for a storage class if an instruction reaches it. -/
theorem needs_storage {i : Nat} {ins : Instruction} (hi : i ∈ plan.range)
    (hins : r.code[i]? = some ins) {storage : StorageClass}
    (hop : ∃ kind, ins.opcode = .getVar storage kind ∨ ins.opcode = .setVar storage kind) :
    plan.needs.hasStorage storage = true := by
  rw [h.needs]
  refine Needs.foldl_note_of_mem (f := (Needs.hasStorage · storage))
    (fun n op => Needs.hasStorage_note) (.inr ⟨_, opcode_mem hi hins, ?_⟩)
  obtain ⟨kind, hop | hop⟩ := hop <;> intro n <;> rw [hop] <;> cases storage <;> rfl

end IsPlan

end Native

end RegisterVM
