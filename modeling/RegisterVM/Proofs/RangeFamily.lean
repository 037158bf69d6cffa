import Mathlib
import RegisterVM.Segment.Finder

/-!
# Separated families of ranges

The candidate runs of the segment finder are non-empty ranges of the code, each ending before the
next one starts (`Separated`). Both moves of the finder replace every run by pieces of itself
(`Pieces`), and a family subdivided into pieces is separated again (`Separated.flatMap`).

Two numbers of a family matter for termination: how many indices it covers and how many members it
has. Subdividing covers less as soon as some run loses an index (`covered_subdivide_lt`). A separated
family below `n` covers at most `n` indices and has at most as many members as indices, so either
number moving the right way lowers the potential (`potential_lt_of_covered_lt`, `potential_lt_of_size_lt`).
-/

namespace RegisterVM

instance : Membership Nat IndexRange := ⟨fun r i => r.first ≤ i ∧ i ≤ r.last⟩

instance : HasSubset IndexRange := ⟨fun r s => s.first ≤ r.first ∧ r.last ≤ s.last⟩

namespace IndexRange

/-- The members of a range are the indices from its first to its last. -/
theorem mem_iff {r : IndexRange} {i : Nat} : i ∈ r ↔ r.first ≤ i ∧ i ≤ r.last := Iff.rfl

/-- A range lies in another if it starts no earlier and ends no later. -/
theorem subset_iff {r s : IndexRange} : r ⊆ s ↔ s.first ≤ r.first ∧ r.last ≤ s.last := Iff.rfl

/-- A range lies in itself. -/
theorem subset_refl (r : IndexRange) : r ⊆ r := ⟨le_rfl, le_rfl⟩

/-- What lies in a part lies in the whole. -/
theorem Subset.trans {r s t : IndexRange} (h : r ⊆ s) (h' : s ⊆ t) : r ⊆ t :=
  ⟨h'.1.trans h.1, h.2.trans h'.2⟩

/-- Ranges that lie in each other are the same. -/
theorem Subset.antisymm {r s : IndexRange} (h : r ⊆ s) (h' : s ⊆ r) : r = s := by
  obtain ⟨first, last⟩ := r
  obtain ⟨first', last'⟩ := s
  rw [subset_iff] at h h'
  rw [mk.injEq]
  exact ⟨le_antisymm h'.1 h.1, le_antisymm h.2 h'.2⟩

/-- The indices of a part are indices of the whole. -/
theorem mem_of_subset {r s : IndexRange} {i : Nat} (h : r ⊆ s) (hi : i ∈ r) : i ∈ s :=
  ⟨h.1.trans hi.1, hi.2.trans h.2⟩

/-- The test for an index decides membership. -/
theorem contains_eq_true {r : IndexRange} {i : Nat} : r.contains i = true ↔ i ∈ r := contains_iff

/-- The list of indices has just the members of the range. -/
theorem mem_indices_iff {r : IndexRange} {i : Nat} : i ∈ r.indices ↔ i ∈ r := mem_indices

end IndexRange

/-- Non-empty ranges below `n`, each ending before the next one starts. -/
structure Separated (n : Nat) (runs : List IndexRange) : Prop where
  ascending : runs.Pairwise fun r s => r.last < s.first
  nonempty : ∀ r ∈ runs, r.first ≤ r.last
  bounded : ∀ r ∈ runs, r.last < n

/-- Non-empty ranges inside `run`, each ending before the next one starts. -/
structure Pieces (run : IndexRange) (ps : List IndexRange) : Prop where
  ascending : ps.Pairwise fun r s => r.last < s.first
  nonempty : ∀ p ∈ ps, p.first ≤ p.last
  inside : ∀ p ∈ ps, p ⊆ run

/-- A run is a piece of itself. -/
theorem Pieces.self {run : IndexRange} (h : run.first ≤ run.last) : Pieces run [run] where
  ascending := List.pairwise_singleton _ _
  nonempty := by simpa using h
  inside := by simpa using run.subset_refl

namespace Separated

variable {n : Nat} {runs : List IndexRange}

/-- Some runs of a separated family are separated. -/
theorem sublist {runs' : List IndexRange} (h : Separated n runs) (hsub : runs'.Sublist runs) :
    Separated n runs' where
  ascending := h.ascending.sublist hsub
  nonempty r hr := h.nonempty r (hsub.subset hr)
  bounded r hr := h.bounded r (hsub.subset hr)

/-- The runs behind the first are separated. -/
theorem tail {run : IndexRange} (h : Separated n (run :: runs)) : Separated n runs :=
  h.sublist (List.sublist_cons_self run runs)

/-- Separated runs are different from each other. -/
theorem nodup (h : Separated n runs) : runs.Nodup :=
  h.ascending.imp_of_mem fun {r _} hr _ hlt heq => by
    have := h.nonempty r hr
    subst heq
    omega

/-- A family stays separated if there are more indices. -/
theorem mono {m : Nat} (h : Separated n runs) (hnm : n ≤ m) : Separated m runs :=
  ⟨h.ascending, h.nonempty, fun r hr => (h.bounded r hr).trans_le hnm⟩

/-- Two families, one behind the other. -/
theorem append {behind : List IndexRange} (h : Separated n runs) (h' : Separated n behind)
    (hlt : ∀ r ∈ runs, ∀ s ∈ behind, r.last < s.first) : Separated n (runs ++ behind) where
  ascending := List.pairwise_append.2 ⟨h.ascending, h'.ascending, hlt⟩
  nonempty := List.forall_mem_append.2 ⟨h.nonempty, h'.nonempty⟩
  bounded := List.forall_mem_append.2 ⟨h.bounded, h'.bounded⟩

/-- One run is separated. -/
theorem singleton {run : IndexRange} (hne : run.first ≤ run.last) (hn : run.last < n) : Separated n [run] where
  ascending := List.pairwise_singleton _ _
  nonempty := by simpa using hne
  bounded := by simpa using hn

/-- A range behind all members can be added at the end. -/
theorem concat {run : IndexRange} (h : Separated n runs) (hlt : ∀ r ∈ runs, r.last < run.first)
    (hne : run.first ≤ run.last) (hn : run.last < n) : Separated n (runs ++ [run]) := by
  refine h.append (singleton hne hn) fun r hr s hs => ?_
  rw [List.mem_singleton.1 hs]
  exact hlt r hr

/-- **A separated family subdivided into pieces is separated.** -/
theorem flatMap {pieces : IndexRange → List IndexRange} (h : Separated n runs)
    (hp : ∀ run ∈ runs, Pieces run (pieces run)) : Separated n (runs.flatMap pieces) where
  ascending := by
    rw [List.pairwise_flatMap]
    refine ⟨fun run hrun => (hp run hrun).ascending, ?_⟩
    refine h.ascending.imp_of_mem fun {r s} hr hs hlt p hpr q hqs => ?_
    have h₁ := ((hp r hr).inside p hpr).2
    have h₂ := ((hp s hs).inside q hqs).1
    omega
  nonempty p hpm := by
    obtain ⟨run, hrun, hpr⟩ := List.mem_flatMap.1 hpm
    exact (hp run hrun).nonempty p hpr
  bounded p hpm := by
    obtain ⟨run, hrun, hpr⟩ := List.mem_flatMap.1 hpm
    exact ((hp run hrun).inside p hpr).2.trans_lt (h.bounded run hrun)

/-- The runs that pass a test are separated. -/
theorem filter (h : Separated n runs) (p : IndexRange → Bool) : Separated n (runs.filter p) :=
  h.sublist List.filter_sublist

/-- Members that share an index are the same. -/
theorem eq_of_mem (h : Separated n runs) {r s : IndexRange} {i : Nat} (hr : r ∈ runs)
    (hs : s ∈ runs) (hir : i ∈ r) (his : i ∈ s) : r = s := by
  rw [IndexRange.mem_iff] at hir his
  induction runs with
  | nil => simp at hr
  | cons run rest ih =>
    have hlt : ∀ q ∈ rest, run.last < q.first := fun q hq => List.rel_of_pairwise_cons h.ascending hq
    rcases List.mem_cons.1 hr with rfl | hr' <;> rcases List.mem_cons.1 hs with rfl | hs'
    · rfl
    · have := hlt s hs'
      omega
    · have := hlt r hr'
      omega
    · exact ih h.tail hr' hs'

end Separated

/-! ### Indices covered and members -/

namespace RangeSet

/-- The number of covered indices is the sum of the lengths. -/
theorem covered_eq_sum (runs : List IndexRange) :
    covered ⟨runs⟩ = (runs.map IndexRange.length).sum := by
  induction runs with
  | nil => rfl
  | cons run rest ih =>
    rw [List.map_cons, List.sum_cons, ← ih]
    rfl

/-- What is covered by pieces is covered piece by piece. -/
theorem covered_subdivide (runs : RangeSet) (pieces : IndexRange → List IndexRange) :
    (runs.subdivide pieces).covered = (runs.toList.map fun run => covered ⟨pieces run⟩).sum := by
  obtain ⟨runs⟩ := runs
  simp only [subdivide, covered_eq_sum]
  induction runs with
  | nil => rfl
  | cons run rest ih =>
    rw [List.flatMap_cons, List.map_append, List.sum_append, List.map_cons, List.sum_cons, ih]

/-- Pieces are counted run by run. -/
theorem size_subdivide (runs : RangeSet) (pieces : IndexRange → List IndexRange) :
    (runs.subdivide pieces).size = (runs.toList.map fun run => (pieces run).length).sum :=
  List.length_flatMap

/-- Subdividing covers less when no run gains an index and some run loses one. -/
theorem covered_subdivide_lt {runs : RangeSet} {pieces : IndexRange → List IndexRange}
    (h : ∀ run ∈ runs.toList, covered ⟨pieces run⟩ ≤ run.length)
    (hlt : ∃ run ∈ runs.toList, covered ⟨pieces run⟩ < run.length) :
    (runs.subdivide pieces).covered < runs.covered := by
  rw [covered_subdivide, show runs.covered = _ from covered_eq_sum runs.toList]
  exact List.sum_lt_sum _ _ h hlt

/-- Pieces that cover their runs cover the same indices in all. -/
theorem covered_subdivide_eq {runs : RangeSet} {pieces : IndexRange → List IndexRange}
    (h : ∀ run ∈ runs.toList, covered ⟨pieces run⟩ = run.length) :
    (runs.subdivide pieces).covered = runs.covered := by
  rw [covered_subdivide, show runs.covered = _ from covered_eq_sum runs.toList]
  exact congrArg List.sum (List.map_congr_left h)

/-- Subdividing adds members when every run keeps one and some run falls into several. -/
theorem size_lt_size_subdivide {runs : RangeSet} {pieces : IndexRange → List IndexRange}
    (h : ∀ run ∈ runs.toList, 1 ≤ (pieces run).length)
    (hlt : ∃ run ∈ runs.toList, 1 < (pieces run).length) :
    runs.size < (runs.subdivide pieces).size := by
  have hsize : runs.size = (runs.toList.map fun _ => 1).sum := by simp [size]
  rw [size_subdivide, hsize]
  exact List.sum_lt_sum _ _ h hlt

/-- Runs that are left whole are left as they are. -/
theorem subdivide_eq_self {runs : RangeSet} {pieces : IndexRange → List IndexRange}
    (h : ∀ run ∈ runs.toList, pieces run = [run]) : runs.subdivide pieces = runs := by
  obtain ⟨runs⟩ := runs
  refine congrArg RangeSet.mk ?_
  calc runs.flatMap pieces = runs.flatMap fun run => [run] := List.flatMap_congr h
    _ = runs := List.flatMap_singleton' runs

end RangeSet

namespace Separated

/-- A separated family between `lo` and `n` covers at most `n - lo` indices. -/
theorem covered_le_sub {n lo : Nat} {runs : List IndexRange} (h : Separated n runs)
    (hlo : ∀ r ∈ runs, lo ≤ r.first) : RangeSet.covered ⟨runs⟩ ≤ n - lo := by
  induction runs generalizing lo with
  | nil => exact Nat.zero_le _
  | cons run rest ih =>
    have hrest : RangeSet.covered ⟨rest⟩ ≤ n - (run.last + 1) :=
      ih h.tail fun r hr => List.rel_of_pairwise_cons h.ascending hr
    have hfirst := hlo run List.mem_cons_self
    have hne := h.nonempty run List.mem_cons_self
    have hb := h.bounded run List.mem_cons_self
    rw [RangeSet.covered_eq_sum, List.map_cons, List.sum_cons, ← RangeSet.covered_eq_sum]
    have hlen : run.length = run.last + 1 - run.first := rfl
    omega

/-- Separated runs cover no more indices than there are. -/
theorem covered_le {n : Nat} {runs : List IndexRange} (h : Separated n runs) :
    RangeSet.covered ⟨runs⟩ ≤ n :=
  h.covered_le_sub fun _ _ => Nat.zero_le _

/-- There are no more separated runs than indices they cover. -/
theorem length_le_covered {n : Nat} {runs : List IndexRange} (h : Separated n runs) :
    runs.length ≤ RangeSet.covered ⟨runs⟩ := by
  induction runs with
  | nil => exact Nat.zero_le _
  | cons run rest ih =>
    have hrest := ih h.tail
    have hne := h.nonempty run List.mem_cons_self
    rw [RangeSet.covered_eq_sum, List.map_cons, List.sum_cons, ← RangeSet.covered_eq_sum,
      List.length_cons]
    have hlen : run.length = run.last + 1 - run.first := rfl
    omega

/-- So there are no more of them than indices. -/
theorem length_le {n : Nat} {runs : List IndexRange} (h : Separated n runs) : runs.length ≤ n :=
  h.length_le_covered.trans h.covered_le

end Separated

namespace Segment

/-- Covering less lowers the potential, whatever the number of members. -/
theorem potential_lt_of_covered_lt {n : Nat} {runs next : RangeSet}
    (h : next.covered < runs.covered) : potential n next < potential n runs := by
  unfold potential
  have hmul : (next.covered + 1) * (n + 2) ≤ runs.covered * (n + 2) := Nat.mul_le_mul_right _ h
  rw [Nat.add_mul, Nat.one_mul] at hmul
  omega

/-- Covering the same with more members lowers the potential. -/
theorem potential_lt_of_size_lt {n : Nat} {runs next : RangeSet}
    (hcov : next.covered = runs.covered) (h : runs.size < next.size) (hn : next.size ≤ n) :
    potential n next < potential n runs := by
  unfold potential
  rw [hcov]
  omega

end Segment

end RegisterVM
