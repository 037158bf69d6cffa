import RegisterVM.Proofs.SegmentFinder
import RegisterVM.Proofs.SegmentLoop

/-!
# Refining candidate ranges

`SegmentFinder.refine` settles ranges given from outside, for code that nobody has checked. Ranges apart
from each other make a separated set, whatever their order (`separated_candidates`), and settling keeps of
it runs with nothing left to do (`settled_spec`).

Whether a run has an offender or an entry depends on the code and the run, not on the other runs. So the
runs that are long enough stay settled when the short ones are dropped, and refining what was settled before
changes nothing (`refine_settled`). That holds for the result of `refine` and for that of `find`.
-/

namespace RegisterVM

namespace Segment

variable {code : Array Instruction} {types : Array ValueType} {runs : RangeSet} {run : IndexRange}

/-- A run has no entries if no branch from outside lands in it past its start. -/
theorem entries_eq_nil_iff : entries (branchEdges code) run = [] ↔
    ∀ i, i ∉ run → ∀ t, BranchEdge code i t → ¬(run.first < t ∧ t ≤ run.last) := by
  simp only [List.eq_nil_iff_forall_not_mem, mem_entries, mem_branchEdges, mem_branchTargets]
  constructor
  · intro hnone i hi t hedge hinside
    exact hnone t ⟨hinside, i, hi, hedge.lt_size, hedge⟩
  · rintro hnone t ⟨hinside, i, hi, -, hedge⟩
    exact hnone i hi t hedge hinside

/-- A round leaves a run alone that has nothing left to do. -/
theorem mem_round_of_isQuiet (hrun : run ∈ runs.toList) (h : IsQuiet code types run) :
    run ∈ (round code types runs).toList := by
  rw [round_eq_subdivide]
  refine List.mem_flatMap.2 ⟨run, List.mem_flatMap.2 ⟨run, hrun, ?_⟩, ?_⟩
  · rw [cutPieces_of_none h.1]
    exact List.mem_singleton_self run
  · rw [splitPieces_of_nil h.2]
    exact List.mem_singleton_self run

end Segment

namespace SegmentFinder

open Segment

variable {f : SegmentFinder} {code : Array Instruction} {types : Array ValueType} {runs : RangeSet}
  {ranges : List IndexRange}

/-- What is settled and kept is long enough and not empty. -/
theorem mem_settled {run : IndexRange} : run ∈ f.settled code types runs ↔
    run ∈ (settle code types runs).toList ∧ run.first ≤ run.last ∧ f.minLength ≤ run.length := by
  simp [settled, IndexRange.isEmpty]

/-- **What is kept of a separated set of runs:** runs inside the given ones that are long enough and have
nothing left to do, and of the given ones all that are so. -/
theorem settled_spec (f : SegmentFinder) (types : Array ValueType) (h : Separated code.size runs.toList) :
    Separated code.size (f.settled code types runs) ∧
    (∀ run ∈ f.settled code types runs, IsQuiet code types run ∧ f.minLength ≤ run.length ∧
      ∃ before ∈ runs.toList, run ⊆ before) ∧
    ∀ run ∈ runs.toList, IsQuiet code types run → f.minLength ≤ run.length →
      run ∈ f.settled code types runs := by
  have hround : ∀ rs, Separated code.size rs.toList →
      ((∀ run ∈ rs.toList, ∃ before ∈ runs.toList, run ⊆ before) ∧
        ∀ run ∈ runs.toList, IsQuiet code types run → run ∈ rs.toList) →
      (∀ run ∈ (round code types rs).toList, ∃ before ∈ runs.toList, run ⊆ before) ∧
        ∀ run ∈ runs.toList, IsQuiet code types run → run ∈ (round code types rs).toList := by
    rintro rs hrs ⟨hinside, hquiet⟩
    refine ⟨fun run hrun => ?_, fun run hrun hq => mem_round_of_isQuiet (hquiet run hrun hq) hq⟩
    obtain ⟨middle, hmiddle, hsub⟩ := exists_subset_of_mem_round hrs hrun
    obtain ⟨before, hbefore, hsub'⟩ := hinside middle hmiddle
    exact ⟨before, hbefore, IndexRange.Subset.trans hsub hsub'⟩
  obtain ⟨⟨hinside, hkept⟩, hsep, hquiet⟩ := settle_spec hround h
    ⟨fun run hrun => ⟨run, hrun, le_rfl, le_rfl⟩, fun _ hrun _ => hrun⟩
  refine ⟨hsep.filter _, fun run hrun => ?_, fun run hrun hq hlong => ?_⟩
  · obtain ⟨hmem, -, hlong⟩ := mem_settled.1 hrun
    exact ⟨hquiet run hmem, hlong, hinside run hmem⟩
  · exact mem_settled.2 ⟨hkept run hrun hq, h.nonempty run hrun, hlong⟩

/-! ### Refining -/

/-- The ranges that are neither empty nor reach out of the code. -/
def candidates (code : Array Instruction) (ranges : List IndexRange) : List IndexRange :=
  ranges.filter fun r => !r.isEmpty && r.last < code.size

/-- Refining settles the candidates. -/
theorem refine_eq_settled :
    f.refine code types ranges = f.settled code types (.ofList (candidates code ranges)) := rfl

/-- The candidates are the given ranges that are not empty and lie in the code. -/
theorem mem_candidates {range : IndexRange} : range ∈ candidates code ranges ↔
    range ∈ ranges ∧ range.first ≤ range.last ∧ range.last < code.size := by
  simp [candidates, IndexRange.isEmpty]

section Apart

variable (h : ranges.Pairwise IndexRange.Apart)

include h

/-- Candidates are separated in the set they are put into. -/
theorem separated_candidates : Separated code.size (RangeSet.ofList (candidates code ranges)).toList :=
  RangeSet.separated_ofList (fun _ hr => (mem_candidates.1 hr).2.1) (fun _ hr => (mem_candidates.1 hr).2.2)
    (h.filter _)

/-- The set has just the candidates. -/
theorem mem_ofList_candidates {range : IndexRange} :
    range ∈ (RangeSet.ofList (candidates code ranges)).toList ↔
      range ∈ ranges ∧ range.first ≤ range.last ∧ range.last < code.size := by
  rw [← mem_candidates]
  exact RangeSet.mem_ofList (fun _ hr => (mem_candidates.1 hr).2.1) (fun _ hr => (mem_candidates.1 hr).2.2)
    (h.filter _)

end Apart

/-- A separated family of long enough runs with nothing left to do is not changed. -/
theorem refine_eq_self (h : Separated code.size ranges)
    (hkept : ∀ run ∈ ranges, IsQuiet code types run ∧ f.minLength ≤ run.length) :
    f.refine code types ranges = ranges := by
  have hcandidates : candidates code ranges = ranges := by
    refine List.filter_eq_self.2 fun r hr => ?_
    simpa [IndexRange.isEmpty] using ⟨h.nonempty r hr, h.bounded r hr⟩
  have hsettle : settle code types ⟨ranges⟩ = ⟨ranges⟩ :=
    settle_of_round_eq_self (round_eq_self fun run hrun => (hkept run hrun).1)
  rw [refine_eq_settled, hcandidates, RangeSet.ofList_of_separated h, settled, hsettle]
  refine List.filter_eq_self.2 fun r hr => ?_
  simpa [IndexRange.isEmpty] using ⟨h.nonempty r hr, (hkept r hr).2⟩

/-- **Refining what was settled changes nothing,** although the short runs are gone. -/
theorem refine_settled (h : Separated code.size runs.toList) :
    f.refine code types (f.settled code types runs) = f.settled code types runs := by
  have hspec := settled_spec f types h
  exact refine_eq_self hspec.1 fun run hrun => ⟨(hspec.2.1 run hrun).1, (hspec.2.1 run hrun).2.1⟩

/-- **Refinement is sound and idempotent.** Of ranges apart from each other, in any order, some of them
perhaps empty or outside the code, it returns runs in ascending order and apart from each other. Each lies in
one of the ranges, is long enough, has no offender and is not entered from outside past its start, and every
given range that is so already is among them. Refining the result, or the segments that were found, changes
nothing. -/
theorem refine_sound_idempotent (f : SegmentFinder) (code : Array Instruction) (types : Array ValueType)
    (ranges : List IndexRange) (h : ranges.Pairwise IndexRange.Apart) :
    (f.refine code types ranges).Pairwise (fun r s => r.last < s.first) ∧
    (∀ run ∈ f.refine code types ranges, run.first ≤ run.last ∧ (∃ range ∈ ranges, run ⊆ range) ∧
      f.minLength ≤ run.length ∧ firstOffender code types run = none ∧
      ∀ i, i ∉ run → ∀ t, BranchEdge code i t → ¬(run.first < t ∧ t ≤ run.last)) ∧
    (∀ range ∈ ranges, range.first ≤ range.last → range.last < code.size → f.minLength ≤ range.length →
      firstOffender code types range = none →
      (∀ i, i ∉ range → ∀ t, BranchEdge code i t → ¬(range.first < t ∧ t ≤ range.last)) →
      range ∈ f.refine code types ranges) ∧
    f.refine code types (f.refine code types ranges) = f.refine code types ranges ∧
    f.refine code types (f.find code types) = f.find code types := by
  have hcandidates : Separated code.size (RangeSet.ofList (candidates code ranges)).toList :=
    separated_candidates h
  obtain ⟨hsep, hkept, hall⟩ := settled_spec f types hcandidates
  refine ⟨hsep.ascending, fun run hrun => ?_, fun range hrange hne hbound hlong hoffender hentry => ?_,
    refine_settled hcandidates, refine_settled (separated_group f.classifier code types)⟩
  · obtain ⟨hquiet, hlong, before, hbefore, hsub⟩ := hkept run hrun
    exact ⟨hsep.nonempty run hrun, ⟨before, ((mem_ofList_candidates h).1 hbefore).1, hsub⟩, hlong, hquiet.1,
      entries_eq_nil_iff.1 hquiet.2⟩
  · exact hall range ((mem_ofList_candidates h).2 ⟨hrange, hne, hbound⟩)
      ⟨hoffender, entries_eq_nil_iff.2 hentry⟩ hlong

/-- One range is empty, one reaches out of the code, one is cut away and one is cut into pieces. -/
theorem refine_sound_idempotent_torn :
    [(⟨4, 7⟩ : IndexRange), ⟨3, 2⟩, ⟨8, 90⟩, ⟨0, 3⟩].Pairwise IndexRange.Apart ∧
    refine ⟨.standard, 1⟩ torn #[.int, .bool] [⟨4, 7⟩, ⟨3, 2⟩, ⟨8, 90⟩, ⟨0, 3⟩] = [⟨5, 5⟩, ⟨7, 7⟩] ∧
    refine ⟨.standard, 1⟩ torn #[.int, .bool] [⟨5, 5⟩, ⟨7, 7⟩] = [⟨5, 5⟩, ⟨7, 7⟩] := by
  have hapart : [(⟨4, 7⟩ : IndexRange), ⟨3, 2⟩, ⟨8, 90⟩, ⟨0, 3⟩].Pairwise IndexRange.Apart := by decide
  have hset : RangeSet.ofList (candidates torn [⟨4, 7⟩, ⟨3, 2⟩, ⟨8, 90⟩, ⟨0, 3⟩]) = ⟨[⟨0, 3⟩, ⟨4, 7⟩]⟩ := by
    decide
  have hrefine : refine ⟨.standard, 1⟩ torn #[.int, .bool] [⟨4, 7⟩, ⟨3, 2⟩, ⟨8, 90⟩, ⟨0, 3⟩]
      = [⟨5, 5⟩, ⟨7, 7⟩] := by
    rw [refine_eq_settled, hset, settled, settle_torn]
    decide
  obtain ⟨-, -, -, hagain, -⟩ := refine_sound_idempotent ⟨.standard, 1⟩ torn #[.int, .bool] _ hapart
  rw [hrefine] at hagain
  exact ⟨hapart, hrefine, hagain⟩

end SegmentFinder

end RegisterVM
