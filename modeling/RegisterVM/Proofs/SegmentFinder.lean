import RegisterVM.Proofs.SoundRange

/-!
# The finder finds exactly the maximal sound ranges

The scan of the finder makes maximal runs of instructions that join (`Segment.joins`): those that can
be compiled, and case entries still owed to a switch that can. In checked code every instruction of a
sound range joins, so a sound range lies in one run of the scan (`Scan.Covers.exists_subset`). Rounds
never tear it, and runs that survive all rounds are sound. The settled runs are therefore disjoint
sound ranges that between them contain all others, which makes them the maximal ones
(`Routine.mem_settle_iff`).
-/

namespace RegisterVM

namespace Segment

variable {k : Classifier} {code : Array Instruction} {types : Array ValueType}

/-- The case entries still owed to the last switch before index `i`. -/
def owed (k : Classifier) (code : Array Instruction) (types : Array ValueType) : Nat → Nat
  | 0 => 0
  | i + 1 =>
    match code[i]? with
    | none => 0
    | some ins =>
      if ins.opcode = .caseEntry then owed k code types i - 1
      else if k.isEligible types ins && ins.opcode = .switch then ins.caseCount else 0

/-- Whether instruction `i` joins a run. -/
def joins (k : Classifier) (code : Array Instruction) (types : Array ValueType) (i : Nat) : Bool :=
  match code[i]? with
  | none => false
  | some ins =>
    if ins.opcode = .caseEntry then 0 < owed k code types i else k.isEligible types ins

/-- The closed runs of a scan of `m` instructions, and the open one as far as it goes. -/
def Scan.allRuns (s : Scan) (m : Nat) : List IndexRange :=
  s.runs.reverse ++ (s.start.map fun first => ⟨first, m - 1⟩).toList

/-- A scan ends with its closed runs and the open one. -/
theorem Scan.finish_eq_allRuns (s : Scan) (n : Nat) : s.finish n = s.allRuns n := by
  unfold finish allRuns
  cases s.start <;> simp

/-- What a scan of the first `m` instructions knows: its runs are separated, hold exactly the
instructions that join, and a closed run ends before one that does not. -/
structure Scan.Covers (p : Nat → Bool) (m : Nat) (s : Scan) : Prop where
  closed : Separated m s.runs.reverse
  opened : ∀ first, s.start = some first → first < m ∧ ∀ r ∈ s.runs, r.last < first
  joined : ∀ r ∈ s.allRuns m, ∀ i ∈ r, p i = true
  complete : ∀ i < m, p i = true → ∃ r ∈ s.allRuns m, i ∈ r
  ended : ∀ r ∈ s.runs, p (r.last + 1) = false

namespace Scan.Covers

variable {p : Nat → Bool} {m : Nat} {s : Scan}

/-- Before the first instruction a scan knows nothing. -/
theorem empty (p : Nat → Bool) : Scan.Covers p 0 {} :=
  ⟨⟨List.Pairwise.nil, by simp, by simp⟩, by simp, by simp [allRuns], by simp, by simp⟩

/-- The runs of a scan are separated. -/
theorem separated (h : s.Covers p m) : Separated m (s.allRuns m) := by
  unfold allRuns
  cases hs : s.start with
  | none => simpa using h.closed
  | some first =>
    obtain ⟨hlt, hbefore⟩ := h.opened first hs
    refine h.closed.concat (fun r hr => hbefore r (List.mem_reverse.1 hr)) ?_ ?_ <;>
      dsimp only <;> omega

/-- An instruction that joins no run opens one. -/
theorem opening {cases : Nat} (h : s.Covers p m) (hs : s.start = none) (hp : p m = true) :
    Scan.Covers p (m + 1) ⟨some m, cases, s.runs⟩ := by
  have hall : s.allRuns m = s.runs.reverse := by simp [allRuns, hs]
  have hjoined := h.joined
  have hcomplete := h.complete
  rw [hall] at hjoined hcomplete
  refine ⟨h.closed.mono m.le_succ, ?_, ?_, ?_, h.ended⟩
  · rintro _ ⟨⟩
    exact ⟨m.lt_succ_self, fun r hr => h.closed.bounded r (List.mem_reverse.2 hr)⟩
  · intro r hr i hi
    rcases List.mem_append.1 hr with hr | hr
    · exact hjoined r hr i hi
    · obtain rfl : r = ⟨m, m⟩ := by simpa using hr
      obtain rfl : i = m := le_antisymm hi.2 hi.1
      exact hp
  · intro i hi hpi
    rcases Nat.lt_succ_iff_lt_or_eq.1 hi with hlt | rfl
    · obtain ⟨r, hr, hir⟩ := hcomplete i hlt hpi
      exact ⟨r, List.mem_append_left _ hr, hir⟩
    · exact ⟨⟨i, i⟩, List.mem_append_right _ (by simp), le_rfl, le_rfl⟩

/-- An instruction that joins the open run prolongs it. -/
theorem prolong {cases first : Nat} (h : s.Covers p m) (hs : s.start = some first)
    (hp : p m = true) : Scan.Covers p (m + 1) ⟨some first, cases, s.runs⟩ := by
  obtain ⟨hlt, hbefore⟩ := h.opened first hs
  have hall : s.allRuns m = s.runs.reverse ++ [⟨first, m - 1⟩] := by simp [allRuns, hs]
  have hjoined := h.joined
  have hcomplete := h.complete
  rw [hall] at hjoined hcomplete
  refine ⟨h.closed.mono m.le_succ, ?_, ?_, ?_, h.ended⟩
  · rintro _ ⟨⟩
    exact ⟨by omega, hbefore⟩
  · intro r hr i hi
    rcases List.mem_append.1 hr with hr | hr
    · exact hjoined r (List.mem_append_left _ hr) i hi
    · obtain rfl : r = ⟨first, m⟩ := by simpa using hr
      rcases Nat.lt_or_eq_of_le hi.2 with him | rfl
      · refine hjoined ⟨first, m - 1⟩ (List.mem_append_right _ (by simp)) i ⟨hi.1, ?_⟩
        exact Nat.le_sub_one_of_lt him
      · exact hp
  · intro i hi hpi
    rcases Nat.lt_succ_iff_lt_or_eq.1 hi with him | rfl
    · obtain ⟨r, hr, hir⟩ := hcomplete i him hpi
      rcases List.mem_append.1 hr with hr | hr
      · exact ⟨r, List.mem_append_left _ hr, hir⟩
      · obtain rfl : r = ⟨first, m - 1⟩ := by simpa using hr
        exact ⟨⟨first, m⟩, List.mem_append_right _ (by simp), hir.1, him.le⟩
    · exact ⟨⟨first, i⟩, List.mem_append_right _ (by simp), hlt.le, le_rfl⟩

/-- An instruction that does not join closes the open run. -/
theorem closing {cases first : Nat} (h : s.Covers p m) (hs : s.start = some first)
    (hp : p m = false) : Scan.Covers p (m + 1) ⟨none, cases, ⟨first, m - 1⟩ :: s.runs⟩ := by
  obtain ⟨hlt, hbefore⟩ := h.opened first hs
  have hall : Scan.allRuns ⟨none, cases, ⟨first, m - 1⟩ :: s.runs⟩ (m + 1) = s.allRuns m := by
    simp [allRuns, hs]
  have hsep := h.separated.mono m.le_succ
  refine ⟨?_, by simp, ?_, ?_, ?_⟩
  · simpa [allRuns, hs] using hsep
  · rw [hall]
    exact h.joined
  · intro i hi hpi
    rw [hall]
    rcases Nat.lt_succ_iff_lt_or_eq.1 hi with him | rfl
    · exact h.complete i him hpi
    · rw [hp] at hpi
      cases hpi
  · intro r hr
    rcases List.mem_cons.1 hr with rfl | hr
    · dsimp only
      rwa [Nat.sub_add_cancel (by omega)]
    · exact h.ended r hr

/-- An instruction that does not join, with no run open, changes nothing. -/
theorem skip {cases : Nat} (h : s.Covers p m) (hs : s.start = none) (hp : p m = false) :
    Scan.Covers p (m + 1) ⟨none, cases, s.runs⟩ := by
  have hall : Scan.allRuns ⟨none, cases, s.runs⟩ (m + 1) = s.allRuns m := by simp [allRuns, hs]
  refine ⟨h.closed.mono m.le_succ, by simp, ?_, ?_, h.ended⟩
  · rw [hall]
    exact h.joined
  · intro i hi hpi
    rw [hall]
    rcases Nat.lt_succ_iff_lt_or_eq.1 hi with him | rfl
    · exact h.complete i him hpi
    · rw [hp] at hpi
      cases hpi

end Scan.Covers

/-- One instruction of the scan. -/
theorem Scan.covers_add {m : Nat} {s : Scan} {ins : Instruction} (hins : code[m]? = some ins)
    (hcases : s.cases = owed k code types m) (h : s.Covers (joins k code types) m) :
    (s.add m ins (k.isEligible types ins)).cases = owed k code types (m + 1) ∧
      (s.add m ins (k.isEligible types ins)).Covers (joins k code types) (m + 1) := by
  have hjoins : joins k code types m =
      if ins.opcode = .caseEntry then decide (0 < s.cases) else k.isEligible types ins := by
    simp only [joins, hins, hcases]
  have howed : owed k code types (m + 1) =
      if ins.opcode = .caseEntry then s.cases - 1
      else if k.isEligible types ins && ins.opcode = .switch then ins.caseCount else 0 := by
    simp only [owed, hins, hcases]
  unfold Scan.add
  simp only [decide_eq_true_eq]
  rw [← hjoins, ← howed]
  cases hj : joins k code types m <;> cases hs : s.start
  · exact ⟨rfl, h.skip hs hj⟩
  · exact ⟨rfl, h.closing hs hj⟩
  · exact ⟨rfl, h.opening hs hj⟩
  · exact ⟨rfl, h.prolong hs hj⟩

/-- The scan of the rest of the code, from index `m` on. -/
theorem Scan.covers_foldl {rest : List Instruction} {m : Nat} {s : Scan}
    (hrest : code.toList.drop m = rest) (hm : m ≤ code.size)
    (hcases : s.cases = owed k code types m) (h : s.Covers (joins k code types) m) :
    ((rest.zipIdx m).foldl (fun s (ins, i) => s.add i ins (k.isEligible types ins)) s).Covers
      (joins k code types) code.size := by
  induction rest generalizing m s with
  | nil =>
    obtain rfl : m = code.size := by
      have := List.drop_eq_nil_iff.1 hrest
      simp only [Array.length_toList] at this
      omega
    exact h
  | cons ins rest ih =>
    have hins : code[m]? = some ins := by
      rw [← Array.getElem?_toList, ← List.head?_drop, hrest, List.head?_cons]
    have hlt : m < code.size := (Array.getElem?_eq_some_iff.1 hins).1
    have hrest' : code.toList.drop (m + 1) = rest := by
      rw [← List.tail_drop, hrest, List.tail_cons]
    obtain ⟨hcases', h'⟩ := Scan.covers_add hins hcases h
    rw [List.zipIdx_cons, List.foldl_cons]
    exact ih hrest' hlt hcases' h'

/-- A range of instructions that all join lies in one run: past its first instruction no closed run
ends inside it. -/
theorem Scan.Covers.exists_subset {p : Nat → Bool} {n : Nat} {s : Scan} (h : s.Covers p n)
    {r : IndexRange} (hne : r.first ≤ r.last) (hn : r.last < n) (hr : ∀ i ∈ r, p i = true) :
    ∃ run ∈ s.allRuns n, r ⊆ run := by
  obtain ⟨run, hrun, hfirst⟩ := h.complete r.first (by omega) (hr _ ⟨le_rfl, hne⟩)
  rw [IndexRange.mem_iff] at hfirst
  refine ⟨run, hrun, hfirst.1, ?_⟩
  rcases List.mem_append.1 hrun with hclosed | hopen
  · by_contra hlast
    have hjoins := hr (run.last + 1) ⟨by omega, by omega⟩
    rw [h.ended run (List.mem_reverse.1 hclosed)] at hjoins
    cases hjoins
  · obtain ⟨first, -, rfl⟩ : ∃ first, s.start = some first ∧ (⟨first, n - 1⟩ : IndexRange) = run := by
      simpa using hopen
    exact Nat.le_sub_one_of_lt hn

/-- The runs that are grouped are those of a scan of all instructions. -/
theorem covers_group (k : Classifier) (code : Array Instruction) (types : Array ValueType) :
    ∃ s : Scan, s.Covers (joins k code types) code.size ∧
      (group k code types).toList = s.allRuns code.size :=
  ⟨_, Scan.covers_foldl List.drop_zero (Nat.zero_le _) rfl (.empty _), Scan.finish_eq_allRuns _ _⟩

/-- The runs of the scan are separated. -/
theorem separated_group (k : Classifier) (code : Array Instruction) (types : Array ValueType) :
    Separated code.size (group k code types).toList := by
  obtain ⟨scan, hscan, hgroup⟩ := covers_group k code types
  rw [hgroup]
  exact hscan.separated

/-- An instruction that joins a run and is no case entry is eligible. -/
theorem isEligible_of_joins {i : Nat} {ins : Instruction} (hi : code[i]? = some ins)
    (hc : ins.opcode ≠ .caseEntry) (h : joins k code types i = true) :
    k.isEligible types ins = true := by
  simpa [joins, hi, hc] using h

/-- Runs after a round lie inside runs before it. -/
theorem exists_subset_of_mem_round {runs : RangeSet} (h : Separated code.size runs.toList)
    {run : IndexRange} (hrun : run ∈ (round code types runs).toList) :
    ∃ before ∈ runs.toList, run ⊆ before := by
  rw [round_eq_subdivide] at hrun
  obtain ⟨p, hp, hrp⟩ := List.mem_flatMap.1 hrun
  obtain ⟨before, hbefore, hpb⟩ := List.mem_flatMap.1 hp
  have hcut : Pieces before (cutPieces code types before) :=
    pieces_cutPieces (h.nonempty before hbefore)
  have hsplit : Pieces p (splitPieces code p) := pieces_splitPieces (hcut.nonempty p hpb)
  exact ⟨before, hbefore, IndexRange.Subset.trans (hsplit.inside run hrp) (hcut.inside p hpb)⟩

end Segment

namespace Routine

open Segment

variable (r : Routine) (k : Classifier)

/-- Behind a switch that can be compiled, every entry counts down what is owed. -/
theorem owed_of_switch {i : Nat} {sw : Instruction} (hi : r.code[i]? = some sw)
    (hsw : sw.opcode = .switch) (he : k.isEligible r.types sw = true) {m : Nat}
    (hm : m ≤ sw.caseCount) : owed k r.code r.types (i + 1 + m) = sw.caseCount - m := by
  induction m with
  | zero => simp [owed, hi, hsw, he]
  | succ m ih =>
    have hlt : i + 1 + m < r.code.size := by
      have := r.lt_size_of_switch hi hsw
      omega
    have hget := Array.getElem?_eq_getElem hlt
    have hc := r.caseEntry_of_switch hi hsw (by omega) (by omega) hget
    have hstep : owed k r.code r.types (i + 1 + m + 1) = owed k r.code r.types (i + 1 + m) - 1 := by
      rw [owed, hget]
      simp [hc]
    rw [← Nat.add_assoc, hstep, ih (by omega)]
    omega

/-- Every instruction of a sound range joins. -/
theorem joins_of_soundRange {range : IndexRange} (h : SoundRange k r.code r.types range) {j : Nat}
    (hj : j ∈ range) : joins k r.code r.types j = true := by
  have hlt : j < r.code.size := hj.2.trans_lt h.bounded
  have hget := Array.getElem?_eq_getElem hlt
  by_cases hc : r.code[j].opcode = .caseEntry
  · obtain ⟨i, hi, sw, hcode, hsw, hij, hle⟩ := h.owned j hj ⟨_, hget, hc⟩
    have he := h.eligible i hi sw hcode (by rw [hsw]; decide)
    have howed := r.owed_of_switch k hcode hsw he (m := j - (i + 1)) (by omega)
    rw [show i + 1 + (j - (i + 1)) = j by omega] at howed
    simp only [joins, hget, hc, if_true, howed, decide_eq_true_eq]
    omega
  · simpa [joins, hget, hc] using h.eligible j hj _ hget hc

/-- The settled runs of a routine are separated. -/
theorem separated_settle :
    Separated r.code.size (settle r.code r.types (group k r.code r.types)).toList :=
  (settle_quiet (separated_group k r.code r.types)).1

/-- **Settling the runs of the scan leaves exactly the maximal sound ranges.** -/
theorem mem_settle_iff (hregs : r.types.size ≤ UInt16.size) {range : IndexRange} :
    range ∈ (settle r.code r.types (group k r.code r.types)).toList ↔
      MaximalSound k r.code r.types range := by
  obtain ⟨scan, hscan, hgroup⟩ := covers_group k r.code r.types
  -- rounds keep: all instructions of the runs join, and every sound range lies in a run
  obtain ⟨⟨hjoins, hwhole⟩, hsep, hquiet⟩ := settle_spec
    (P := fun rs => (∀ run ∈ rs.toList, ∀ i ∈ run, joins k r.code r.types i = true) ∧
      ∀ s, SoundRange k r.code r.types s → ∃ run ∈ rs.toList, s ⊆ run)
    (fun rs hsep ⟨hjoins, hwhole⟩ => ⟨fun run hrun i hi => by
        obtain ⟨before, hbefore, hsub⟩ := exists_subset_of_mem_round hsep hrun
        exact hjoins before hbefore i (IndexRange.mem_of_subset hsub hi),
      fun s hs => hs.exists_mem_round hregs (hwhole s hs)⟩)
    (hgroup ▸ hscan.separated)
    ⟨hgroup ▸ hscan.joined, fun s hs => hgroup ▸ hscan.exists_subset hs.nonempty hs.bounded
      fun i hi => r.joins_of_soundRange k hs hi⟩
  have hsound : ∀ run ∈ (settle r.code r.types (group k r.code r.types)).toList,
      SoundRange k r.code r.types run := fun run hrun =>
    r.soundRange_of_isQuiet hregs (hsep.nonempty run hrun) (hsep.bounded run hrun)
      (fun i hi ins hins hc => isEligible_of_joins hins hc (hjoins run hrun i hi))
      (hquiet run hrun)
  constructor
  · intro hmem
    refine ⟨hsound range hmem, fun s hs hsub => ?_⟩
    -- the run around `s` shares an index with `range`, so it is `range`
    obtain ⟨run, hrun, hsrun⟩ := hwhole s hs
    have hfirst : range.first ∈ range := ⟨le_rfl, hsep.nonempty range hmem⟩
    have heq : range = run := hsep.eq_of_mem hmem hrun hfirst
      (IndexRange.mem_of_subset (IndexRange.Subset.trans hsub hsrun) hfirst)
    subst heq
    exact IndexRange.Subset.antisymm hsrun hsub
  · rintro ⟨hs, hmax⟩
    obtain ⟨run, hrun, hsub⟩ := hwhole range hs
    rwa [← hmax run (hsound run hrun) hsub]

end Routine

namespace SegmentFinder

/-- What is found is a settled run that is long enough. -/
theorem mem_find_iff {f : SegmentFinder} {code : Array Instruction} {types : Array ValueType}
    {range : IndexRange} : range ∈ f.find code types ↔
      range ∈ (Segment.settle code types (Segment.group f.classifier code types)).toList ∧
        range.isEmpty = false ∧ f.minLength ≤ range.length := by
  unfold find settled
  rw [List.mem_filter]
  simp

/-- The segments of a routine are apart from each other. -/
theorem separated_find (r : Routine) (f : SegmentFinder) : Separated r.code.size (f.find r.code r.types) :=
  (r.separated_settle f.classifier).filter _

/-- **What is found is sound.** -/
theorem soundRange_of_mem_find (r : Routine) (hregs : r.types.size ≤ UInt16.size) {f : SegmentFinder}
    {range : IndexRange} (h : range ∈ f.find r.code r.types) :
    SoundRange f.classifier r.code r.types range :=
  ((r.mem_settle_iff f.classifier hregs).1 (mem_find_iff.1 h).1).1

/-- **The segments of a routine are its maximal sound ranges of the least length asked for, in
order.** -/
theorem mem_find_iff_maximalSound (r : Routine) (hregs : r.types.size ≤ UInt16.size)
    (k : Classifier) (minLength : Nat) :
    (find ⟨k, minLength⟩ r.code r.types).Pairwise (fun s t => s.last < t.first) ∧
      ∀ range, range ∈ find ⟨k, minLength⟩ r.code r.types ↔
        MaximalSound k r.code r.types range ∧ minLength ≤ range.length := by
  refine ⟨?_, fun range => ?_⟩
  · exact (separated_find r ⟨k, minLength⟩).ascending
  · rw [mem_find_iff, r.mem_settle_iff k hregs]
    refine and_congr_right fun hmax => and_iff_right ?_
    simpa [IndexRange.isEmpty] using hmax.1.nonempty

end SegmentFinder

/-- A switch over two cases with a body behind it. -/
def Routine.twoWay : Routine where
  name := "two_way"
  code := #[⟨.switch, 0, 4, 2, 0⟩, ⟨.caseEntry, 0, 3, 0, 0⟩, ⟨.caseEntry, 1, 4, 0, 0⟩,
    ⟨.intArith .add, 0, 0, 0, 0⟩]
  types := #[.int]
  constants := #[.ofInt 0, .ofInt 1]
  checked := by decide

/-- The whole code of the switch is sound. -/
theorem Routine.twoWay_maximalSound :
    MaximalSound .standard twoWay.code twoWay.types ⟨0, 3⟩ := by
  constructor
  · refine twoWay.soundRange_of_isQuiet (by decide) (by decide) (by decide) ?_
      ⟨by decide, by decide⟩
    intro i hi ins hins _
    have hall : ∀ ins ∈ twoWay.code, Classifier.standard.isEligible twoWay.types ins = true := by
      decide
    exact hall ins (Array.mem_of_getElem? hins)
  · intro s hs hsub
    have hbound : s.last < 4 := hs.bounded
    exact IndexRange.Subset.antisymm ⟨Nat.zero_le _, Nat.le_of_lt_succ hbound⟩ hsub

/-- It is what is found there. -/
theorem SegmentFinder.mem_find_twoWay :
    Routine.twoWay.types.size ≤ UInt16.size ∧
      ⟨0, 3⟩ ∈ find ⟨.standard, 2⟩ Routine.twoWay.code Routine.twoWay.types :=
  ⟨by decide, ((mem_find_iff_maximalSound Routine.twoWay (by decide) .standard 2).2 ⟨0, 3⟩).2
    ⟨Routine.twoWay_maximalSound, by decide⟩⟩

end RegisterVM
