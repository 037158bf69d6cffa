import RegisterVM.Proofs.CheckedCode
import RegisterVM.Proofs.SegmentRounds

/-!
# Sound ranges

What makes a range of instructions fit to be compiled as one piece, said without the finder: every
instruction can be compiled, branches stay inside or go right behind, a switch and its entries stand
together, and control enters only at the start (`SoundRange`).

Two facts tie this to the rounds of the finder, both for checked code:

* a sound range inside a run lies inside one piece of the run after a round (`exists_mem_round`), for
  whatever makes an offender of the run, or an entry into it, would make one of the range;
* a run with nothing left to do is sound (`soundRange_of_isQuiet`).
-/

namespace RegisterVM

/-- The case entry at `j` belongs to the switch at `i`. -/
def OwnsCase (code : Array Instruction) (i j : Nat) : Prop :=
  ∃ sw, code[i]? = some sw ∧ sw.opcode = .switch ∧ i < j ∧ j ≤ i + sw.caseCount

/-- A jump or switch at `i` can go to `t`: the target of a jump, the default or the target of an
entry of a switch. -/
def BranchEdge (code : Array Instruction) (i t : Nat) : Prop :=
  ∃ ins, code[i]? = some ins ∧
    ((ins.opcode.isJump = true ∧ t = ins.target) ∨
      (ins.opcode = .switch ∧
        (t = ins.target ∨ ∃ j entry, OwnsCase code i j ∧ code[j]? = some entry ∧ t = entry.target)))

def IsCase (code : Array Instruction) (i : Nat) : Prop :=
  ∃ ins, code[i]? = some ins ∧ ins.opcode = .caseEntry

/-- A range of instructions that can be compiled as one piece. -/
structure SoundRange (k : Classifier) (code : Array Instruction) (types : Array ValueType)
    (r : IndexRange) : Prop where
  nonempty : r.first ≤ r.last
  bounded : r.last < code.size
  eligible : ∀ i ∈ r, ∀ ins, code[i]? = some ins → ins.opcode ≠ .caseEntry →
    k.isEligible types ins = true
  owned : ∀ j ∈ r, IsCase code j → ∃ i ∈ r, OwnsCase code i j
  branches : ∀ i ∈ r, ∀ t, BranchEdge code i t →
    r.first ≤ t ∧ t ≤ r.last + 1 ∧ ¬IsCase code t
  group : ∀ i ∈ r, ∀ j, OwnsCase code i j → j ∈ r
  integral : ∀ i ∈ r, ∀ sw, code[i]? = some sw → sw.opcode = .switch →
    types[placeOf sw.a]? = some .int ∨ types[placeOf sw.a]? = some .enum
  entered : ∀ i, i ∉ r → ∀ t, BranchEdge code i t → ¬(r.first < t ∧ t ≤ r.last)

/-- A sound range that no other sound range contains. -/
def MaximalSound (k : Classifier) (code : Array Instruction) (types : Array ValueType)
    (r : IndexRange) : Prop :=
  SoundRange k code types r ∧ ∀ s, SoundRange k code types s → r ⊆ s → s = r

/-! ### Edges -/

/-- The entries of a switch are the instructions behind it, as many as it counts. -/
theorem mem_caseEntries {code : Array Instruction} {i count : Nat} {entry : Instruction} :
    entry ∈ caseEntries code i count ↔
      ∃ j, i < j ∧ j ≤ i + count ∧ code[j]? = some entry := by
  unfold caseEntries
  rw [List.mem_iff_getElem?]
  constructor
  · rintro ⟨m, hm⟩
    rw [Array.getElem?_toList, Array.getElem?_extract] at hm
    split at hm
    · exact ⟨i + 1 + m, by omega, by omega, hm⟩
    · cases hm
  · rintro ⟨j, hij, hj, hentry⟩
    have hlt : j < code.size := (Array.getElem?_eq_some_iff.1 hentry).1
    refine ⟨j - (i + 1), ?_⟩
    rw [Array.getElem?_toList, Array.getElem?_extract, if_pos (by omega),
      show i + 1 + (j - (i + 1)) = j by omega]
    exact hentry

/-- The targets listed for an instruction are the places it can branch to. -/
theorem mem_branchTargets {code : Array Instruction} {i t : Nat} :
    t ∈ branchTargets code i ↔ BranchEdge code i t := by
  unfold branchTargets BranchEdge
  cases hi : code[i]? with
  | none => simp
  | some ins =>
    simp only [Option.some.injEq, exists_eq_left']
    by_cases hjump : ins.opcode.isJump = true
    · have hsw : ins.opcode ≠ .switch := by
        intro h
        rw [h] at hjump
        exact absurd hjump (by decide)
      simp [hjump, hsw]
    · by_cases hsw : ins.opcode = .switch
      · have hnot : ¬(ins.opcode.isJump = true ∧ t = ins.target) := fun h => hjump h.1
        rw [if_neg hjump, if_pos hsw, List.mem_cons, List.mem_map, or_iff_right hnot,
          and_iff_right hsw]
        refine or_congr_right ⟨?_, ?_⟩
        · rintro ⟨entry, hentry, rfl⟩
          obtain ⟨j, hij, hj, hcode⟩ := mem_caseEntries.1 hentry
          exact ⟨j, entry, ⟨ins, hi, hsw, hij, hj⟩, hcode, rfl⟩
        · rintro ⟨j, entry, ⟨sw, hsw', -, hij, hj⟩, hcode, rfl⟩
          rw [hi, Option.some.injEq] at hsw'
          subst hsw'
          exact ⟨entry, mem_caseEntries.2 ⟨j, hij, hj, hcode⟩, rfl⟩
      · simp [hjump, hsw]

namespace BranchEdge

variable {code : Array Instruction} {i t : Nat}

/-- A branch starts at an instruction of the code. -/
theorem lt_size (h : BranchEdge code i t) : i < code.size := by
  obtain ⟨ins, hi, -⟩ := h
  exact (Array.getElem?_eq_some_iff.1 hi).1

/-- A jump branches to its target. -/
theorem of_jump {ins : Instruction} (hi : code[i]? = some ins) (hj : ins.opcode.isJump = true) :
    BranchEdge code i ins.target :=
  ⟨ins, hi, .inl ⟨hj, rfl⟩⟩

end BranchEdge

namespace Segment

/-- A target is allowed if it is in the run or right behind it, and no case entry. -/
theorem targetAllowed_iff {code : Array Instruction} {run : IndexRange} {t : Nat} :
    targetAllowed code run t = true ↔ run.first ≤ t ∧ t ≤ run.last + 1 ∧ ¬IsCase code t := by
  unfold targetAllowed IsCase
  rw [Bool.and_eq_true, IndexRange.admits_iff, and_assoc]
  refine and_congr_right fun _ => and_congr_right fun _ => ?_
  cases code[t]? <;> simp

end Segment

/-! ### Owners of case entries -/

namespace Routine

variable (r : Routine)

/-- A case entry has one owner: what follows the first of two switches up to the entry are entries,
and the second switch is among them. -/
theorem ownsCase_unique {i i' j : Nat} (h : OwnsCase r.code i j) (h' : OwnsCase r.code i' j) :
    i = i' := by
  obtain ⟨sw, hi, hsw, hij, hj⟩ := h
  obtain ⟨sw', hi', hsw', hij', hj'⟩ := h'
  rcases lt_trichotomy i i' with hlt | heq | hlt
  · have := r.caseEntry_of_switch hi hsw hlt (by omega) hi'
    rw [hsw'] at this
    cases this
  · exact heq
  · have := r.caseEntry_of_switch hi' hsw' hlt (by omega) hi
    rw [hsw] at this
    cases this

/-- What a switch owns is a case entry. -/
theorem isCase_of_ownsCase {i j : Nat} (h : OwnsCase r.code i j) : IsCase r.code j := by
  obtain ⟨sw, hi, hsw, hij, hj⟩ := h
  have hlt : j < r.code.size := by
    have := r.lt_size_of_switch hi hsw
    omega
  exact ⟨r.code[j], Array.getElem?_eq_getElem hlt,
    r.caseEntry_of_switch hi hsw hij hj (Array.getElem?_eq_getElem hlt)⟩

/-- Every case entry of a routine is owned by a switch. -/
theorem exists_ownsCase {j : Nat} (h : IsCase r.code j) : ∃ i, OwnsCase r.code i j := by
  obtain ⟨ins, hj, hc⟩ := h
  obtain ⟨i, sw, hij, hi, hsw, hle⟩ := r.exists_switch_of_caseEntry hj hc
  exact ⟨i, sw, hi, hsw, hij, hle⟩

/-- Behind an instruction that is no case entry and no switch there is no case entry. -/
theorem not_isCase_succ {i : Nat} {ins : Instruction} (hins : r.code[i]? = some ins) (hcase : ¬IsCase r.code i)
    (hop : ins.opcode ≠ .switch) : ¬IsCase r.code (i + 1) := fun hnext => by
  obtain ⟨o, sw, ho, hsw, hlt, hle⟩ := r.exists_ownsCase hnext
  rcases Nat.lt_succ_iff_lt_or_eq.1 hlt with hlt | rfl
  · exact hcase ⟨ins, hins, r.caseEntry_of_switch ho hsw hlt (by omega) hins⟩
  · rw [hins, Option.some.injEq] at ho
    exact hop (ho ▸ hsw)

/-- Looking back from a case entry finds its owner, if that lies in the run. -/
theorem hasOwner_of_ownsCase {run : IndexRange} {i j k : Nat} (h : OwnsCase r.code i j)
    (hrun : run.first ≤ i) (hik : i < k) (hkj : k ≤ j) :
    Segment.hasOwner r.code run j k = true := by
  -- between the owner and `k` there are only case entries, so the search walks back to the owner
  induction k with
  | zero => omega
  | succ k ih =>
    obtain ⟨sw, hi, hsw, hij, hj⟩ := h
    have hlt : k < r.code.size := by
      have := r.lt_size_of_switch hi hsw
      omega
    rw [Segment.hasOwner, Array.getElem?_eq_getElem hlt]
    rcases Nat.lt_or_ge i k with hlt' | hge
    · have hc := r.caseEntry_of_switch hi hsw hlt' (by omega) (Array.getElem?_eq_getElem hlt)
      simp only [hc, if_true]
      simpa [ih hlt' (by omega)] using hrun.trans hlt'.le
    · obtain rfl : i = k := by omega
      obtain rfl : r.code[i] = sw := by
        rw [Array.getElem?_eq_getElem hlt] at hi
        exact Option.some.inj hi
      simp [hsw, hrun, hj]

end Routine

/-- The owner that is found for a case entry owns it. -/
theorem exists_ownsCase_of_hasOwner {code : Array Instruction} {run : IndexRange} {j k : Nat}
    (h : Segment.hasOwner code run j k = true) (hkj : k ≤ j) :
    ∃ i, run.first ≤ i ∧ i < j ∧ OwnsCase code i j := by
  induction k with
  | zero => cases h
  | succ k ih =>
    rw [Segment.hasOwner, Bool.and_eq_true, decide_eq_true_eq] at h
    obtain ⟨hrun, h⟩ := h
    split at h
    · cases h
    · rename_i ins hins
      split at h
      · exact ih h (by omega)
      · simp only [Bool.and_eq_true, decide_eq_true_eq] at h
        exact ⟨k, hrun, by omega, ins, hins, h.1, by omega, h.2⟩

/-! ### The discriminant of a switch -/

/-- Integers and enumerations are integral. -/
theorem ValueType.isIntegral_iff {t : ValueType} : t.isIntegral = true ↔ t = .int ∨ t = .enum := by
  cases t <;> simp [isIntegral]

/-- The scrutinee of a switch is integral if its register is declared so. -/
theorem Routine.integral_iff (r : Routine) (hregs : r.types.size ≤ UInt16.size) {i : Nat}
    {sw : Instruction} (hi : r.code[i]? = some sw) (hsw : sw.opcode = .switch) :
    (r.types[sw.ra.toNat]?).any ValueType.isIntegral = true ↔
      r.types[placeOf sw.a]? = some .int ∨ r.types[placeOf sw.a]? = some .enum := by
  obtain ⟨ha, -⟩ := r.inBounds_of_switch hi hsw
  have hreg : sw.ra.toNat = placeOf sw.a :=
    Reg.toNat_ofOperand ha.1 (ha.2.trans_le (by exact_mod_cast hregs))
  rw [hreg]
  cases r.types[placeOf sw.a]? with
  | none => simp
  | some t => simp [ValueType.isIntegral_iff]

/-! ### Sound ranges survive every round -/

namespace SoundRange

variable {k : Classifier} {r : Routine} {range run : IndexRange}

/-- The owner of a case entry of a sound range is in the range. -/
theorem owner_mem (h : SoundRange k r.code r.types range) {i j : Nat} (hj : j ∈ range)
    (ho : OwnsCase r.code i j) : i ∈ range := by
  obtain ⟨i', hi', ho'⟩ := h.owned j hj (r.isCase_of_ownsCase ho)
  rw [r.ownsCase_unique ho ho']
  exact hi'

/-- Targets of a sound range are allowed in every run around it. -/
theorem targetAllowed (h : SoundRange k r.code r.types range) (hrun : range ⊆ run) {i t : Nat}
    (hi : i ∈ range) (he : BranchEdge r.code i t) : Segment.targetAllowed r.code run t = true := by
  obtain ⟨hfirst, hlast, hcase⟩ := h.branches i hi t he
  rw [IndexRange.subset_iff] at hrun
  exact Segment.targetAllowed_iff.2 ⟨by omega, by omega, hcase⟩

/-- The last entry of a switch of a sound range is in the range. -/
theorem groupLast_le (h : SoundRange k r.code r.types range) {i : Nat} {sw : Instruction}
    (hi : i ∈ range) (hcode : r.code[i]? = some sw) (hsw : sw.opcode = .switch) :
    i + sw.caseCount ≤ range.last := by
  rcases Nat.eq_zero_or_pos sw.caseCount with h0 | hpos
  · rw [h0]
    exact hi.2
  · exact (h.group i hi _ ⟨sw, hcode, hsw, by omega, le_rfl⟩).2

/-- **An instruction of a sound range is no offender of a run around the range.** -/
theorem offenderAt_eq_none (h : SoundRange k r.code r.types range)
    (hregs : r.types.size ≤ UInt16.size) (hrun : range ⊆ run) {j : Nat} (hj : j ∈ range) :
    Segment.offenderAt r.code r.types run j = none := by
  have hrun' := IndexRange.subset_iff.1 hrun
  unfold Segment.offenderAt
  split
  · rfl
  · rename_i ins hins
    split
    · rename_i hc
      obtain ⟨i, hi, ho⟩ := h.owned j hj ⟨ins, hins, hc⟩
      have hij : i < j := ho.choose_spec.2.2.1
      have hfirst : run.first ≤ i := hrun'.1.trans hi.1
      rw [if_neg]
      simp only [r.hasOwner_of_ownsCase ho hfirst hij le_rfl, Bool.not_true, Bool.or_false,
        decide_eq_true_eq]
      omega
    · split
      · rename_i hjump
        rw [if_pos (h.targetAllowed hrun hj (.of_jump hins hjump))]
      · split
        · rename_i hsw
          have hgroup := h.groupLast_le hj hins hsw
          have hintegral := (r.integral_iff hregs hins hsw).2 (h.integral j hj ins hins hsw)
          have htargets : (branchTargets r.code j).all (Segment.targetAllowed r.code run) = true :=
            List.all_eq_true.2 fun t ht => h.targetAllowed hrun hj (mem_branchTargets.1 ht)
          dsimp only
          rw [if_pos]
          simp only [hintegral, htargets, Bool.and_true, decide_eq_true_eq]
          omega
        · rfl

/-- **A cut misses every sound range inside the run.** Overlapping the cut of a switch group means
holding the switch, and the instruction that makes the cut is no offender of the range. -/
theorem disjoint_of_firstOffender (h : SoundRange k r.code r.types range)
    (hregs : r.types.size ≤ UInt16.size) (hrun : range ⊆ run) {cut : IndexRange}
    (hcut : Segment.firstOffender r.code r.types run = some cut) :
    range.last < cut.first ∨ cut.last < range.first := by
  obtain ⟨j, hj, hoff⟩ := Segment.exists_offenderAt hcut
  have hout : j ∉ range := fun hmem => by
    rw [h.offenderAt_eq_none hregs hrun hmem] at hoff
    cases hoff
  have hne := h.nonempty
  by_contra hoverlap
  push Not at hoverlap
  obtain ⟨hfirst, -, -⟩ := Segment.offenderAt_bounds hj hoff
  rw [IndexRange.mem_iff] at hout
  -- the range starts after `j` and not behind the cut, so the cut is a switch group
  have hlater : j < range.first := by omega
  have howns : OwnsCase r.code j range.first := by
    unfold Segment.offenderAt at hoff
    split at hoff
    · cases hoff
    · rename_i ins hins
      have hpoint : some (IndexRange.point j) ≠ some cut := by
        rintro ⟨⟩
        exact absurd hoverlap.2 (by simp only [IndexRange.point]; omega)
      split at hoff
      · split at hoff
        · exact absurd hoff hpoint
        · cases hoff
      · split at hoff
        · split at hoff
          · cases hoff
          · exact absurd hoff hpoint
        · split at hoff
          · rename_i hsw
            dsimp only at hoff
            split at hoff
            · cases hoff
            · cases hoff
              exact ⟨ins, hins, hsw, hlater, hoverlap.2.trans (min_le_left _ _)⟩
          · cases hoff
  exact hout (h.owner_mem ⟨le_rfl, hne⟩ howns)

/-- **A sound range in a run lies in one of the pieces it is cut into.** -/
theorem exists_mem_cutPieces (h : SoundRange k r.code r.types range)
    (hregs : r.types.size ≤ UInt16.size) (hrun : range ⊆ run) :
    ∃ p ∈ Segment.cutPieces r.code r.types run, range ⊆ p := by
  unfold Segment.cutPieces
  split
  · exact ⟨run, List.mem_singleton_self _, hrun⟩
  · rename_i cut hcut
    exact Segment.exists_mem_around hrun h.nonempty (h.disjoint_of_firstOffender hregs hrun hcut)

/-- A split misses every sound range inside the run: what enters the run from outside would enter the
range from outside. -/
theorem exists_mem_splitPieces (h : SoundRange k r.code r.types range) (hrun : range ⊆ run) :
    ∃ p ∈ Segment.splitPieces r.code run, range ⊆ p := by
  refine Segment.exists_mem_splitAt hrun.1 hrun.2 (fun t ht => ?_) h.nonempty
  obtain ⟨-, i, hi, hedge⟩ := Segment.mem_entries.1 ht
  have hout : i ∉ range := fun hmem => hi (IndexRange.mem_of_subset hrun hmem)
  exact h.entered i hout t (mem_branchTargets.1 (Segment.mem_branchEdges.1 hedge).2)

/-- **A round never tears a sound range.** -/
theorem exists_mem_round (h : SoundRange k r.code r.types range)
    (hregs : r.types.size ≤ UInt16.size) {runs : RangeSet}
    (hruns : ∃ run ∈ runs.toList, range ⊆ run) :
    ∃ run ∈ (Segment.round r.code r.types runs).toList, range ⊆ run := by
  obtain ⟨run, hmem, hrun⟩ := hruns
  obtain ⟨p, hp, hrp⟩ := h.exists_mem_cutPieces hregs hrun
  obtain ⟨q, hq, hrq⟩ := h.exists_mem_splitPieces hrp
  exact ⟨q, List.mem_flatMap.2 ⟨p, List.mem_flatMap.2 ⟨run, hmem, hp⟩, hq⟩, hrq⟩

end SoundRange

/-! ### Quiet runs are sound -/

/-- **A run of instructions that can be compiled, with nothing left to do, is sound.** -/
theorem Routine.soundRange_of_isQuiet (r : Routine) (hregs : r.types.size ≤ UInt16.size)
    {k : Classifier} {run : IndexRange} (hne : run.first ≤ run.last)
    (hbound : run.last < r.code.size)
    (heligible : ∀ i ∈ run, ∀ ins, r.code[i]? = some ins → ins.opcode ≠ .caseEntry →
      k.isEligible r.types ins = true)
    (hquiet : Segment.IsQuiet r.code r.types run) : SoundRange k r.code r.types run := by
  obtain ⟨hoff, hentries⟩ := hquiet
  have hswitch : ∀ i ∈ run, ∀ sw, r.code[i]? = some sw → sw.opcode = .switch →
      i + sw.caseCount ≤ run.last ∧ (r.types[sw.ra.toNat]?).any ValueType.isIntegral = true ∧
        (branchTargets r.code i).all (Segment.targetAllowed r.code run) = true := by
    intro i hi sw hcode hsw
    have hnone := Segment.offenderAt_eq_none hoff hi
    simp only [Segment.offenderAt, hcode, hsw, Opcode.isJump, reduceCtorEq, if_false, if_true,
      Bool.false_eq_true, ite_eq_left_iff, imp_false, not_not, Bool.and_eq_true,
      decide_eq_true_eq] at hnone
    exact ⟨hnone.1.1, hnone.1.2, hnone.2⟩
  refine ⟨hne, hbound, heligible, ?_, ?_, ?_, ?_, ?_⟩
  · rintro j hj ⟨ins, hins, hc⟩
    have hnone := Segment.offenderAt_eq_none hoff hj
    simp only [Segment.offenderAt, hins, hc, if_true, ite_eq_right_iff, reduceCtorEq, imp_false,
      Bool.or_eq_true, not_or, Bool.not_eq_true', Bool.not_eq_false] at hnone
    obtain ⟨i, hfirst, hij, ho⟩ := exists_ownsCase_of_hasOwner hnone.2 le_rfl
    exact ⟨i, ⟨hfirst, hij.le.trans hj.2⟩, ho⟩
  · intro i hi t he
    refine Segment.targetAllowed_iff.1 ?_
    obtain ⟨ins, hins, ⟨hjump, rfl⟩ | ⟨hsw, -⟩⟩ := id he
    · have hnone := Segment.offenderAt_eq_none hoff hi
      have hc : ins.opcode ≠ .caseEntry := by
        intro h
        rw [h] at hjump
        cases hjump
      by_contra hbad
      simp [Segment.offenderAt, hins, hc, hjump, hbad] at hnone
    · exact List.all_eq_true.1 (hswitch i hi ins hins hsw).2.2 t (mem_branchTargets.2 he)
  · rintro i hi j ⟨sw, hcode, hsw, hij, hj⟩
    exact ⟨hi.1.trans hij.le, hj.trans (hswitch i hi sw hcode hsw).1⟩
  · intro i hi sw hcode hsw
    exact (r.integral_iff hregs hcode hsw).1 (hswitch i hi sw hcode hsw).2.1
  · intro i hi t he hin
    have ht : t ∈ Segment.entries (Segment.branchEdges r.code) run :=
      Segment.mem_entries.2 ⟨hin, i, hi, Segment.mem_branchEdges.2
        ⟨he.lt_size, mem_branchTargets.2 he⟩⟩
    rw [hentries] at ht
    cases ht

end RegisterVM
