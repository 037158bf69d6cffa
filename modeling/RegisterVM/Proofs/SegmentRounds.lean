import RegisterVM.Proofs.RangeFamily

/-!
# Rounds of cutting and splitting

One round cuts the first offender out of every run and then splits every run where a branch from
outside lands in it. Both moves replace a run by pieces of it (`pieces_cutPieces`,
`pieces_splitAt`), so a round keeps a family separated. A cut covers less and a split has more
members, so a round that changes the family lowers the potential (`potential_round_lt`), and a family
that no round changes has no offender and no entry left (`round_eq_self_iff`).

Nothing here asks the code to be checked. `settle_spec` packages the induction over the rounds: what
every round keeps holds of the settled family, and a further round does not change it.
-/

namespace RegisterVM
namespace Segment

variable {code : Array Instruction} {types : Array ValueType}

/-! ### Cutting -/

/-- The pieces a run is cut into. -/
def cutPieces (code : Array Instruction) (types : Array ValueType) (run : IndexRange) :
    List IndexRange :=
  match firstOffender code types run with
  | none => [run]
  | some cut => around run cut

/-- What a run is cut for is found at one of its indices. -/
theorem exists_offenderAt {run cut : IndexRange} (h : firstOffender code types run = some cut) :
    ∃ j ∈ run, offenderAt code types run j = some cut := by
  obtain ⟨j, hj, hcut⟩ := List.exists_of_findSome?_eq_some h
  exact ⟨j, IndexRange.mem_indices_iff.1 hj, hcut⟩

/-- Where there is nothing to cut for, no index is an offender. -/
theorem offenderAt_eq_none {run : IndexRange} (h : firstOffender code types run = none) {j : Nat}
    (hj : j ∈ run) : offenderAt code types run j = none :=
  List.findSome?_eq_none_iff.1 h j (IndexRange.mem_indices_iff.2 hj)

/-- The span an instruction makes unusable starts at it and stays in the run. -/
theorem offenderAt_bounds {run cut : IndexRange} {j : Nat} (hj : j ∈ run)
    (h : offenderAt code types run j = some cut) :
    cut.first = j ∧ cut.first ≤ cut.last ∧ cut.last ≤ run.last := by
  rw [IndexRange.mem_iff] at hj
  have hpoint : ∀ {c : IndexRange}, some (IndexRange.point j) = some c →
      c.first = j ∧ c.first ≤ c.last ∧ c.last ≤ run.last := by
    rintro c ⟨⟩
    exact ⟨rfl, le_rfl, hj.2⟩
  unfold offenderAt at h
  split at h
  · cases h
  · rename_i ins _
    split at h
    · split at h
      · exact hpoint h
      · cases h
    · split at h
      · split at h
        · cases h
        · exact hpoint h
      · split at h
        · dsimp only at h
          split at h
          · cases h
          · cases h
            exact ⟨rfl, le_min (Nat.le_add_right _ _) hj.2, min_le_right _ _⟩
        · cases h

/-- What is left around a cut are pieces of the run. -/
theorem pieces_around {run cut : IndexRange} (hfirst : run.first ≤ cut.first)
    (hcut : cut.first ≤ cut.last) (hlast : cut.last ≤ run.last) : Pieces run (around run cut) where
  ascending := by
    unfold around
    split <;> split <;> simp
    omega
  nonempty := by
    unfold around
    split <;> split <;> simp <;> omega
  inside := by
    unfold around
    split <;> split <;> simp [IndexRange.subset_iff] <;> omega

/-- The pieces and the cut have all indices of the run. -/
theorem covered_around {run cut : IndexRange} (hfirst : run.first ≤ cut.first)
    (hcut : cut.first ≤ cut.last) (hlast : cut.last ≤ run.last) :
    RangeSet.covered ⟨around run cut⟩ + cut.length = run.length := by
  unfold around
  simp only [RangeSet.covered_eq_sum, IndexRange.length]
  split <;> split <;> simp [IndexRange.length] <;> omega

/-- Cutting a run gives pieces of it. -/
theorem pieces_cutPieces {run : IndexRange} (hne : run.first ≤ run.last) :
    Pieces run (cutPieces code types run) := by
  unfold cutPieces
  split
  · exact .self hne
  · rename_i cut hcut
    obtain ⟨j, hj, hoff⟩ := exists_offenderAt hcut
    obtain ⟨rfl, hle, hlast⟩ := offenderAt_bounds hj hoff
    exact pieces_around hj.1 hle hlast

/-- A run with an offender loses at least one index. -/
theorem covered_cutPieces_lt {run : IndexRange} (h : firstOffender code types run ≠ none) :
    RangeSet.covered ⟨cutPieces code types run⟩ < run.length := by
  unfold cutPieces
  split
  · rename_i hnone
    exact absurd hnone h
  · rename_i cut hcut
    obtain ⟨j, hj, hoff⟩ := exists_offenderAt hcut
    obtain ⟨rfl, hle, hlast⟩ := offenderAt_bounds hj hoff
    have hsum := covered_around hj.1 hle hlast
    have hlen : cut.length = cut.last + 1 - cut.first := rfl
    omega

/-- A run without an offender is left whole. -/
theorem cutPieces_of_none {run : IndexRange} (h : firstOffender code types run = none) :
    cutPieces code types run = [run] := by
  rw [cutPieces, h]

/-- Cutting does not add indices. -/
theorem covered_cutPieces_le (run : IndexRange) :
    RangeSet.covered ⟨cutPieces code types run⟩ ≤ run.length := by
  by_cases h : firstOffender code types run = none
  · rw [cutPieces_of_none h]
    exact le_rfl
  · exact (covered_cutPieces_lt h).le

/-- A range inside the run that avoids the cut lies in one piece. -/
theorem exists_mem_around {run cut r : IndexRange} (hr : r ⊆ run) (hne : r.first ≤ r.last)
    (h : r.last < cut.first ∨ cut.last < r.first) : ∃ p ∈ around run cut, r ⊆ p := by
  rw [IndexRange.subset_iff] at hr
  unfold around
  rcases h with h | h
  · refine ⟨⟨run.first, cut.first - 1⟩, ?_, by rw [IndexRange.subset_iff]; dsimp only; omega⟩
    rw [if_pos (by omega)]
    exact List.mem_append_left _ (List.mem_singleton_self _)
  · refine ⟨⟨cut.last + 1, run.last⟩, ?_, by rw [IndexRange.subset_iff]; dsimp only; omega⟩
    rw [if_pos (show cut.last < run.last by omega)]
    exact List.mem_append_right _ (List.mem_singleton_self _)

/-! ### Splitting -/

/-- Cut points in ascending order, all past `first` and none past `last`. -/
def IsCutList (first last : Nat) (cuts : List Nat) : Prop :=
  cuts.Pairwise (· < ·) ∧ ∀ t ∈ cuts, first < t ∧ t ≤ last

/-- The rest of a list of places to split at is one for the rest of the run. -/
theorem IsCutList.tail {first last cut : Nat} {cuts : List Nat}
    (h : IsCutList first last (cut :: cuts)) : IsCutList cut last cuts :=
  ⟨h.1.of_cons, fun t ht =>
    ⟨List.rel_of_pairwise_cons h.1 ht, (h.2 t (List.mem_cons_of_mem _ ht)).2⟩⟩

/-- Splitting a run gives pieces of it. -/
theorem pieces_splitAt {first last : Nat} {cuts : List Nat} (h : IsCutList first last cuts)
    (hne : first ≤ last) : Pieces ⟨first, last⟩ (splitAt last first cuts) := by
  induction cuts generalizing first with
  | nil => exact .self hne
  | cons cut cuts ih =>
    have hcut := h.2 cut List.mem_cons_self
    have hrest := ih h.tail hcut.2
    refine ⟨?_, ?_, ?_⟩
    · refine List.pairwise_cons.2 ⟨fun p hp => ?_, hrest.ascending⟩
      have := (hrest.inside p hp).1
      dsimp only at this ⊢
      omega
    · refine List.forall_mem_cons.2 ⟨?_, hrest.nonempty⟩
      dsimp only
      omega
    · refine List.forall_mem_cons.2 ⟨?_, fun p hp => ?_⟩
      · rw [IndexRange.subset_iff]
        dsimp only
        omega
      · have := hrest.inside p hp
        rw [IndexRange.subset_iff] at this ⊢
        dsimp only at this ⊢
        omega

/-- Splitting a run keeps all of its indices. -/
theorem covered_splitAt {first last : Nat} {cuts : List Nat} (h : IsCutList first last cuts) :
    RangeSet.covered ⟨splitAt last first cuts⟩ = last + 1 - first := by
  induction cuts generalizing first with
  | nil => rfl
  | cons cut cuts ih =>
    have hcut := h.2 cut List.mem_cons_self
    have hrest := ih h.tail
    rw [RangeSet.covered_eq_sum] at hrest ⊢
    rw [splitAt, List.map_cons, List.sum_cons, hrest, IndexRange.length]
    dsimp only
    omega

/-- A run is split into one piece more than there are places to split at. -/
theorem length_splitAt (first last : Nat) (cuts : List Nat) :
    (splitAt last first cuts).length = cuts.length + 1 := by
  induction cuts generalizing first with
  | nil => rfl
  | cons cut cuts ih => rw [splitAt, List.length_cons, ih, List.length_cons]

/-- A range that no cut point separates lies in one piece. -/
theorem exists_mem_splitAt {r : IndexRange} {first last : Nat} {cuts : List Nat}
    (hfirst : first ≤ r.first) (hlast : r.last ≤ last)
    (h : ∀ t ∈ cuts, ¬(r.first < t ∧ t ≤ r.last)) (hne : r.first ≤ r.last) :
    ∃ p ∈ splitAt last first cuts, r ⊆ p := by
  induction cuts generalizing first with
  | nil => exact ⟨⟨first, last⟩, List.mem_singleton_self _, hfirst, hlast⟩
  | cons cut cuts ih =>
    have hcut := h cut List.mem_cons_self
    by_cases hlt : r.last < cut
    · exact ⟨⟨first, cut - 1⟩, List.mem_cons_self, hfirst, by dsimp only; omega⟩
    · have hle : cut ≤ r.first := by omega
      obtain ⟨p, hp, hrp⟩ := ih hle fun t ht => h t (List.mem_cons_of_mem _ ht)
      exact ⟨p, List.mem_cons_of_mem _ hp, hrp⟩

end Segment

/-! ### Entries -/

/-- Inserting a place keeps the list ascending. -/
theorem pairwise_insertOnce {x : Nat} {ys : List Nat} (h : ys.Pairwise (· < ·)) :
    (insertOnce x ys).Pairwise (· < ·) := by
  induction ys with
  | nil => exact List.pairwise_singleton _ _
  | cons y ys ih =>
    unfold insertOnce
    have hy : ∀ z ∈ ys, y < z := fun z hz => List.rel_of_pairwise_cons h hz
    split
    · refine List.pairwise_cons.2 ⟨fun z hz => ?_, h⟩
      rcases List.mem_cons.1 hz with rfl | hz
      · assumption
      · exact lt_trans ‹x < y› (hy z hz)
    · split
      · exact h
      · refine List.pairwise_cons.2 ⟨fun z hz => ?_, ih h.of_cons⟩
        rcases mem_insertOnce.1 hz with rfl | hz
        · omega
        · exact hy z hz

/-- The list is strictly ascending. -/
theorem pairwise_ascending (xs : List Nat) : (ascending xs).Pairwise (· < ·) := by
  induction xs with
  | nil => exact List.Pairwise.nil
  | cons x xs ih => exact pairwise_insertOnce ih

namespace Segment

variable {code : Array Instruction} {types : Array ValueType}

/-- The edges of a code are those of its branches. -/
theorem mem_branchEdges {i t : Nat} :
    (i, t) ∈ branchEdges code ↔ i < code.size ∧ t ∈ branchTargets code i := by
  simp [branchEdges]

/-- A run is entered where a branch from outside goes into it, past its start. -/
theorem mem_entries {edges : List (Nat × Nat)} {run : IndexRange} {t : Nat} :
    t ∈ entries edges run ↔ (run.first < t ∧ t ≤ run.last) ∧ ∃ i, i ∉ run ∧ (i, t) ∈ edges := by
  unfold entries
  simp only [mem_ascending, List.mem_map, List.mem_filter, Prod.exists, Bool.and_eq_true,
    decide_eq_true_eq, Bool.not_eq_true']
  constructor
  · rintro ⟨i, t, ⟨hedge, ⟨hlt, hle⟩, hout⟩, rfl⟩
    exact ⟨⟨hlt, hle⟩, i, by rw [← IndexRange.contains_eq_true]; simp [hout], hedge⟩
  · rintro ⟨⟨hlt, hle⟩, i, hout, hedge⟩
    rw [← IndexRange.contains_eq_true, Bool.not_eq_true] at hout
    exact ⟨i, t, ⟨hedge, ⟨hlt, hle⟩, hout⟩, rfl⟩

/-- The entries of a run are places to split it at. -/
theorem isCutList_entries (edges : List (Nat × Nat)) (run : IndexRange) :
    IsCutList run.first run.last (entries edges run) :=
  ⟨pairwise_ascending _, fun _ ht => (mem_entries.1 ht).1⟩

/-! ### Rounds -/

/-- The pieces a run is split into. -/
def splitPieces (code : Array Instruction) (run : IndexRange) : List IndexRange :=
  splitAt run.last run.first (entries (branchEdges code) run)

/-- A round cuts every run and then splits what is left. -/
theorem round_eq_subdivide (runs : RangeSet) :
    round code types runs
      = (runs.subdivide (cutPieces code types)).subdivide (splitPieces code) := rfl

/-- Splitting a run at its entries gives pieces of it. -/
theorem pieces_splitPieces {run : IndexRange} (hne : run.first ≤ run.last) :
    Pieces run (splitPieces code run) :=
  pieces_splitAt (isCutList_entries _ _) hne

/-- Splitting at entries keeps all indices. -/
theorem covered_splitPieces (run : IndexRange) :
    RangeSet.covered ⟨splitPieces code run⟩ = run.length :=
  covered_splitAt (isCutList_entries _ _)

/-- There is one piece more than entries. -/
theorem length_splitPieces (run : IndexRange) :
    (splitPieces code run).length = (entries (branchEdges code) run).length + 1 :=
  length_splitAt _ _ _

/-- A run without entries is left whole. -/
theorem splitPieces_of_nil {run : IndexRange} (h : entries (branchEdges code) run = []) :
    splitPieces code run = [run] := by
  rw [splitPieces, h]
  rfl

/-- Cutting keeps a family separated. -/
theorem separated_excise {runs : RangeSet} (h : Separated code.size runs.toList) :
    Separated code.size (excise code types runs).toList :=
  h.flatMap fun run hrun => pieces_cutPieces (h.nonempty run hrun)

/-- **A round keeps a family separated.** -/
theorem separated_round {runs : RangeSet} (h : Separated code.size runs.toList) :
    Separated code.size (round code types runs).toList :=
  (separated_excise h).flatMap fun run hrun =>
    pieces_splitPieces ((separated_excise h).nonempty run hrun)

/-- Nothing is left to cut out of a run, and nothing enters it past its start. -/
def IsQuiet (code : Array Instruction) (types : Array ValueType) (run : IndexRange) : Prop :=
  firstOffender code types run = none ∧ entries (branchEdges code) run = []

/-- A round changes nothing if all runs are quiet. -/
theorem round_eq_self {runs : RangeSet} (h : ∀ run ∈ runs.toList, IsQuiet code types run) :
    round code types runs = runs := by
  rw [round_eq_subdivide,
    RangeSet.subdivide_eq_self fun run hrun => cutPieces_of_none (h run hrun).1]
  exact RangeSet.subdivide_eq_self fun run hrun => splitPieces_of_nil (h run hrun).2

/-- Only cutting takes indices away. -/
theorem covered_round (runs : RangeSet) :
    (round code types runs).covered = (runs.subdivide (cutPieces code types)).covered :=
  RangeSet.covered_subdivide_eq fun run _ => covered_splitPieces run

/-- **A round that finds something to do lowers the potential.** A cut covers less; without a cut, a
split covers the same with more members. -/
theorem potential_round_lt {runs : RangeSet} (h : Separated code.size runs.toList)
    (hbusy : ∃ run ∈ runs.toList, ¬IsQuiet code types run) :
    potential code.size (round code types runs) < potential code.size runs := by
  by_cases hcut : ∃ run ∈ runs.toList, firstOffender code types run ≠ none
  · apply potential_lt_of_covered_lt
    rw [covered_round]
    refine RangeSet.covered_subdivide_lt (fun run _ => covered_cutPieces_le run) ?_
    obtain ⟨run, hrun, hoff⟩ := hcut
    exact ⟨run, hrun, covered_cutPieces_lt hoff⟩
  · have hnone : ∀ run ∈ runs.toList, firstOffender code types run = none := by
      intro run hrun
      by_contra hoff
      exact hcut ⟨run, hrun, hoff⟩
    have hexcise : runs.subdivide (cutPieces code types) = runs :=
      RangeSet.subdivide_eq_self fun run hrun => cutPieces_of_none (hnone run hrun)
    have hsplit : round code types runs = runs.subdivide (splitPieces code) := by
      rw [round_eq_subdivide, hexcise]
    refine potential_lt_of_size_lt ?_ ?_ (separated_round h).length_le
    · rw [covered_round, hexcise]
    · rw [hsplit]
      refine RangeSet.size_lt_size_subdivide (fun run _ => by rw [length_splitPieces]; omega) ?_
      obtain ⟨run, hrun, hquiet⟩ := hbusy
      refine ⟨run, hrun, ?_⟩
      have hne : entries (branchEdges code) run ≠ [] := fun he => hquiet ⟨hnone run hrun, he⟩
      have := List.length_pos_iff.2 hne
      rw [length_splitPieces]
      omega

/-- **A family no round changes has nothing left to do.** -/
theorem round_eq_self_iff {runs : RangeSet} (h : Separated code.size runs.toList) :
    round code types runs = runs ↔ ∀ run ∈ runs.toList, IsQuiet code types run := by
  refine ⟨fun heq => ?_, round_eq_self⟩
  by_contra hbusy
  push Not at hbusy
  have hlt := potential_round_lt h hbusy
  rw [heq] at hlt
  exact lt_irrefl _ hlt

/-- **A round that changes something lowers the potential**, so rounds come to an end. -/
theorem potential_round_lt_of_ne {runs : RangeSet} (h : Separated code.size runs.toList)
    (hne : round code types runs ≠ runs) :
    potential code.size (round code types runs) < potential code.size runs := by
  refine potential_round_lt h ?_
  rw [Ne, round_eq_self_iff h] at hne
  push Not at hne
  exact hne

/-! ### Settling -/

/-- Where a round changes nothing, the rounds are over. -/
theorem settle_of_round_eq_self {runs : RangeSet} (h : round code types runs = runs) :
    settle code types runs = runs := by
  rw [settle, if_pos h]

/-- One round more at the start makes no difference to where the rounds end. -/
theorem settle_round {runs : RangeSet} (h : Separated code.size runs.toList) :
    settle code types (round code types runs) = settle code types runs := by
  by_cases heq : round code types runs = runs
  · rw [heq]
  · rw [settle.eq_def code types runs]
    rw [if_neg heq, if_pos (potential_round_lt_of_ne h heq)]

/-- **What every round keeps holds of the settled family,** in which nothing is left to do. -/
theorem settle_spec {P : RangeSet → Prop} {runs : RangeSet}
    (hround : ∀ rs, Separated code.size rs.toList → P rs → P (round code types rs))
    (hsep : Separated code.size runs.toList) (hP : P runs) :
    P (settle code types runs) ∧ Separated code.size (settle code types runs).toList ∧
      ∀ run ∈ (settle code types runs).toList, IsQuiet code types run := by
  -- induction on the potential, which every round that changes the family lowers
  induction hm : potential code.size runs using Nat.strong_induction_on generalizing runs with
  | _ m ih =>
    subst hm
    by_cases heq : round code types runs = runs
    · rw [settle_of_round_eq_self heq]
      exact ⟨hP, hsep, (round_eq_self_iff hsep).1 heq⟩
    · rw [← settle_round hsep]
      exact ih _ (potential_round_lt_of_ne hsep heq) (separated_round hsep) (hround runs hsep hP) rfl

/-- Settling separates runs with nothing left to do. -/
theorem settle_quiet {runs : RangeSet} (h : Separated code.size runs.toList) :
    Separated code.size (settle code types runs).toList ∧
      ∀ run ∈ (settle code types runs).toList, IsQuiet code types run :=
  (settle_spec (P := fun _ => True) (fun _ _ _ => trivial) h trivial).2

end Segment

end RegisterVM
