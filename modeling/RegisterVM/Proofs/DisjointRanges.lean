import RegisterVM.Proofs.RangeSets

/-!
# Ordered sets of disjoint ranges

Ranges that overlap compare as equal, so their comparison is no order: `[0, 5]` and `[4, 9]` compare as equal,
`[4, 9]` and `[8, 12]` do, `[0, 5]` and `[8, 12]` do not. On a family of non-empty ranges with no index in common
(`Scattered`) it is a total order, and stays one when the range of a single index is compared with the members,
as a lookup does (`Scattered.totallyOrdered`, `Scattered.eq_of_compare`).

A set of ranges made from such a family, in whatever order its members come, holds the family (`Holds`):
it lists the members in ascending order and finds the one that contains an index. Taking a member out and putting
pieces of it in, again in any order, leaves such a set of a family that is scattered again, so the same holds after
any number of replacements (`Arises`).
-/

namespace RegisterVM

namespace IndexRange

variable {r s t : IndexRange}

/-- A range is not above another if it starts no later than the other ends. -/
theorem compare_isLE_iff (hr : r.first ≤ r.last) (hs : s.first ≤ s.last) :
    (r.compare s).isLE = true ↔ r.first ≤ s.last := by
  unfold compare
  split
  · simp only [Ordering.isLE_lt, true_iff]
    omega
  · split
    · simp only [Ordering.isLE_gt, Bool.false_eq_true, false_iff]
      omega
    · simp only [Ordering.isLE_eq, true_iff]
      omega

/-- Comparing the other way round gives the opposite. -/
theorem compare_eq_swap (hr : r.first ≤ r.last) (hs : s.first ≤ s.last) :
    r.compare s = (s.compare r).swap := by
  unfold compare
  by_cases hbefore : r.last < s.first
  · rw [if_pos hbefore, if_neg (by omega), if_pos hbefore]
    rfl
  · rw [if_neg hbefore, if_neg hbefore]
    by_cases hbehind : s.last < r.first
    · rw [if_pos hbehind, if_pos hbehind]
      rfl
    · rw [if_neg hbehind, if_neg hbehind]
      rfl

/-- Ranges that are not empty have no index in common if one ends before the other starts. -/
theorem apart_iff_of_nonempty (hr : r.first ≤ r.last) (hs : s.first ≤ s.last) :
    r.Apart s ↔ r.last < s.first ∨ s.last < r.first := by
  rw [apart_iff]
  omega

end IndexRange

open IndexRange

/-- Non-empty ranges, no two of which have an index in common. -/
structure Scattered (family : Finset IndexRange) : Prop where
  nonempty : ∀ r ∈ family, r.first ≤ r.last
  apart : ∀ r ∈ family, ∀ s ∈ family, r ≠ s → r.Apart s

/-- Position is a total order on the ranges of a family: of two of them the one is behind the other or they are
equivalent, seen from either side, and this carries over from one to the next. -/
def TotallyOrdered (family : Finset IndexRange) : Prop :=
  Std.TransCmp fun r s : {r // r ∈ family} => r.1.compare s.1

namespace Scattered

variable {family : Finset IndexRange} {r s : IndexRange}

/-- Of two ranges of the family, one ends before the other starts. -/
theorem lt_or_lt (h : Scattered family) (hr : r ∈ family) (hs : s ∈ family) (hne : r ≠ s) :
    r.last < s.first ∨ s.last < r.first :=
  (apart_iff_of_nonempty (h.nonempty r hr) (h.nonempty s hs)).1 (h.apart r hr s hs hne)

/-- Members compare as equal only if they are the same. -/
theorem eq_of_compare (h : Scattered family) (hr : r ∈ family) (hs : s ∈ family)
    (heq : r.compare s = .eq) : r = s := by
  by_contra hne
  have hapart := h.lt_or_lt hr hs hne
  have hoverlap := compare_eq_eq_iff.1 heq
  omega

/-- No range is empty after a point has been put in. -/
theorem nonempty_insert_point (h : Scattered family) {i : Nat} (hr : r ∈ insert (point i) family) :
    r.first ≤ r.last := by
  rcases Finset.mem_insert.1 hr with rfl | hr
  · exact le_rfl
  · exact h.nonempty r hr

/-- A range between two others is the range of the index, or one of the others, or apart from both. -/
theorem first_le_last_trans (h : Scattered family) {i : Nat} {t : IndexRange} (hr : r ∈ insert (point i) family)
    (hs : s ∈ insert (point i) family) (ht : t ∈ insert (point i) family) (hrs : r.first ≤ s.last)
    (hst : s.first ≤ t.last) : r.first ≤ t.last := by
  have hrne := h.nonempty_insert_point hr
  have htne := h.nonempty_insert_point ht
  rcases Finset.mem_insert.1 hs with rfl | hs
  · exact hrs.trans hst
  · have hsne := h.nonempty s hs
    rcases Finset.mem_insert.1 hr with rfl | hr
    · rcases Finset.mem_insert.1 ht with rfl | ht
      · exact le_rfl
      · by_cases heq : s = t
        · exact heq ▸ hrs
        · have hapart := h.lt_or_lt hs ht heq
          omega
    · by_cases heq : r = s
      · exact heq ▸ hst
      · have hapart := h.lt_or_lt hr hs heq
        omega

/-- **Members and one index are totally ordered by position.** -/
theorem totallyOrdered (h : Scattered family) (i : Nat) : TotallyOrdered (insert (point i) family) where
  eq_swap {r s} := compare_eq_swap (h.nonempty_insert_point r.2) (h.nonempty_insert_point s.2)
  isLE_trans {r s t} hrs hst := by
    have hr := h.nonempty_insert_point r.2
    have hs := h.nonempty_insert_point s.2
    have ht := h.nonempty_insert_point t.2
    rw [compare_isLE_iff hr hs] at hrs
    rw [compare_isLE_iff hs ht] at hst
    rw [compare_isLE_iff hr ht]
    exact h.first_le_last_trans r.2 s.2 t.2 hrs hst

end Scattered

namespace RangeSet

variable {n : Nat} {set : RangeSet} {family : Finset IndexRange} {run : IndexRange} {pieces : List IndexRange}

/-! ### Sets of scattered families -/

/-- What a set of ranges is to a family of ranges that do not overlap. -/
structure Holds (set : RangeSet) (family : Finset IndexRange) : Prop where
  scattered : Scattered family
  /-- what the set compares, with an index looked up, is totally ordered -/
  ordered : ∀ i, TotallyOrdered (Insert.insert (point i) family)
  /-- no member is taken for another one -/
  distinct : ∀ r ∈ family, ∀ s ∈ family, r.compare s = .eq ↔ r = s
  /-- all members are listed, by ascending start -/
  mem_toList : ∀ r, r ∈ set.toList ↔ r ∈ family
  ascending : set.toList.Pairwise fun r s => r.first < s.first
  /-- an index is found in the only member that contains it -/
  find_point : ∀ i r, set.find? (point i) = some r ↔ r ∈ family ∧ i ∈ r ∧ ∀ s ∈ family, i ∈ s → s = r
  find_point_none : ∀ i, set.find? (point i) = none ↔ ∀ r ∈ family, i ∉ r

/-- A separated list is a set of the family of its members. -/
theorem holds_of_separated (h : Separated n set.toList) (hmem : ∀ r, r ∈ set.toList ↔ r ∈ family) :
    set.Holds family := by
  have hsame : ∀ i r s, r ∈ family → s ∈ family → i ∈ r → i ∈ s → r = s := fun i r s hr hs hir his =>
    h.eq_of_mem ((hmem r).2 hr) ((hmem s).2 hs) hir his
  have hscattered : Scattered family :=
    ⟨fun r hr => h.nonempty r ((hmem r).2 hr),
      fun r hr s hs hne i hir his => hne (hsame i r s hr hs hir his)⟩
  have hfind (i : Nat) (r : IndexRange) : set.find? (point i) = some r ↔ r ∈ family ∧ i ∈ r := by
    rw [← hmem]
    exact containing?_eq_some_iff h
  refine ⟨hscattered, hscattered.totallyOrdered, fun r hr s hs => ⟨hscattered.eq_of_compare hr hs, ?_⟩, hmem, ?_,
    fun i r => ?_, fun i => ?_⟩
  · rintro rfl
    have hne := hscattered.nonempty r hr
    exact compare_eq_eq_iff.2 ⟨hne, hne⟩
  · refine h.ascending.imp_of_mem fun {r s} hr _ hlt => ?_
    exact (h.nonempty r hr).trans_lt hlt
  · rw [hfind]
    refine and_congr_right fun hr => ⟨fun hi => ⟨hi, fun s hs his => hsame i s r hs hr his hi⟩, And.left⟩
  · rw [Option.eq_none_iff_forall_ne_some]
    refine forall_congr' fun r => ?_
    rw [Ne, hfind, not_and]

/-- A member taken out of a separated set. -/
theorem separated_erase (h : Separated n set.toList) (hrun : run ∈ set.toList) :
    Separated n (set.erase run).toList ∧ ∀ r, r ∈ (set.erase run).toList ↔ r ≠ run ∧ r ∈ set.toList := by
  obtain ⟨front, back, hsplit⟩ := List.append_of_mem hrun
  rw [hsplit] at h
  have herase : (set.erase run).toList = front ++ back := by
    rw [erase, hsplit, eraseFrom_append h]
  have hsub : (front ++ back).Sublist (front ++ run :: back) :=
    (List.sublist_cons_self run back).append_left front
  have hne : run.first ≤ run.last := h.nonempty run (List.mem_append_right _ List.mem_cons_self)
  refine ⟨herase ▸ h.sublist hsub, fun r => ?_⟩
  rw [herase, hsplit, List.mem_append, List.mem_append, List.mem_cons]
  constructor
  · rintro (hr | hr)
    · refine ⟨?_, .inl hr⟩
      rintro rfl
      have hlt := h.lt_of_mem_front hr
      omega
    · refine ⟨?_, .inr (.inr hr)⟩
      rintro rfl
      have hlt := h.lt_of_mem_back hr
      omega
  · rintro ⟨hr, hmem⟩
    tauto

/-- Pieces of a member, in any order, in its place. -/
theorem separated_replace (h : Separated n set.toList) (hrun : run ∈ set.toList)
    (hne : ∀ p ∈ pieces, p.first ≤ p.last) (hinside : ∀ p ∈ pieces, p ⊆ run)
    (hapart : pieces.Pairwise Apart) :
    Separated n (set.replace run pieces).toList ∧
      ∀ r, r ∈ (set.replace run pieces).toList ↔ (r ≠ run ∧ r ∈ set.toList) ∨ r ∈ pieces := by
  obtain ⟨herased, hmem⟩ := separated_erase h hrun
  have hbound : ∀ p ∈ pieces, p.last < n := fun p hp => (hinside p hp).2.trans_lt (h.bounded run hrun)
  have hnew : ∀ p ∈ pieces, ∀ s ∈ (set.erase run).toList, p.Apart s := by
    intro p hp s hs i hip his
    obtain ⟨hsne, hs⟩ := (hmem s).1 hs
    exact hsne (h.eq_of_mem hs hrun his (mem_of_subset (hinside p hp) hip))
  obtain ⟨hsep, hall⟩ := separated_foldl_insert herased hne hbound hapart hnew
  refine ⟨hsep, fun r => ?_⟩
  rw [replace, hall, hmem]

/-- The sets that come about from ranges without a common index, put in in any order, by taking out members and
putting in pieces of them that have no index in common either. Beside each set stands the family it is meant to be. -/
inductive Arises : RangeSet → Finset IndexRange → Prop
  | collect {ranges : List IndexRange} (nonempty : ∀ r ∈ ranges, r.first ≤ r.last)
      (apart : ranges.Pairwise Apart) : Arises (ofList ranges) ranges.toFinset
  | replace {set : RangeSet} {family : Finset IndexRange} {run : IndexRange} {pieces : List IndexRange}
      (before : Arises set family) (member : run ∈ family) (nonempty : ∀ p ∈ pieces, p.first ≤ p.last)
      (inside : ∀ p ∈ pieces, p ⊆ run) (apart : pieces.Pairwise Apart) :
      Arises (set.replace run pieces) (family.erase run ∪ pieces.toFinset)

/-- The ranges of a list end before some index. -/
theorem exists_bound (ranges : List IndexRange) : ∃ n, ∀ r ∈ ranges, r.last < n := by
  induction ranges with
  | nil => exact ⟨0, List.forall_mem_nil _⟩
  | cons p ranges ih =>
    obtain ⟨n, hn⟩ := ih
    refine ⟨max n (p.last + 1), List.forall_mem_cons.2 ⟨by omega, fun r hr => ?_⟩⟩
    have hlt := hn r hr
    omega

/-- **Sets that arise are separated**, and have the ranges they are meant to have. -/
theorem Arises.separated (h : Arises set family) :
    ∃ n, Separated n set.toList ∧ ∀ r, r ∈ set.toList ↔ r ∈ family := by
  induction h with
  | collect nonempty apart =>
    obtain ⟨n, hn⟩ := exists_bound _
    refine ⟨n, separated_ofList nonempty hn apart, fun r => ?_⟩
    rw [mem_ofList nonempty hn apart, List.mem_toFinset]
  | replace before member nonempty inside apart ih =>
    obtain ⟨n, hsep, hmem⟩ := ih
    obtain ⟨hsep, hall⟩ := separated_replace hsep ((hmem _).2 member) nonempty inside apart
    refine ⟨n, hsep, fun r => ?_⟩
    rw [hall, hmem, Finset.mem_union, Finset.mem_erase, List.mem_toFinset]

/-- **On ranges that do not overlap, the order by position makes a correct set.** -/
theorem holds_of_arises (h : Arises set family) : set.Holds family := by
  obtain ⟨n, hsep, hmem⟩ := h.separated
  exact holds_of_separated hsep hmem

/-- Three ranges come last first; then the hindmost falls into two pieces, the latter of which comes first. -/
theorem holds_of_arises_torn :
    let set := (ofList [⟨8, 12⟩, ⟨0, 3⟩, ⟨5, 5⟩]).replace ⟨8, 12⟩ [⟨11, 12⟩, ⟨8, 9⟩]
    let family : Finset IndexRange := {⟨0, 3⟩, ⟨5, 5⟩, ⟨8, 9⟩, ⟨11, 12⟩}
    set.Arises family ∧ set.Holds family ∧ set.toList = [⟨0, 3⟩, ⟨5, 5⟩, ⟨8, 9⟩, ⟨11, 12⟩] ∧
      set.find? (point 9) = some ⟨8, 9⟩ ∧ set.find? (point 10) = none := by
  intro set family
  have hcollect : Arises (ofList [⟨8, 12⟩, ⟨0, 3⟩, ⟨5, 5⟩]) ([⟨8, 12⟩, ⟨0, 3⟩, ⟨5, 5⟩] : List _).toFinset :=
    .collect (by decide) (by decide)
  have hinside : ∀ p ∈ ([⟨11, 12⟩, ⟨8, 9⟩] : List IndexRange), p ⊆ ⟨8, 12⟩ := by
    simp [subset_iff]
  have hfamily : family = ([⟨8, 12⟩, ⟨0, 3⟩, ⟨5, 5⟩] : List IndexRange).toFinset.erase ⟨8, 12⟩ ∪
      ([⟨11, 12⟩, ⟨8, 9⟩] : List IndexRange).toFinset := by decide
  have harises : set.Arises family := by
    rw [hfamily]
    exact hcollect.replace (by decide) (by decide) hinside (by decide)
  have hholds : set.Holds family := holds_of_arises harises
  refine ⟨harises, hholds, by decide, (hholds.find_point 9 _).2 ?_, (hholds.find_point_none 10).2 ?_⟩
  · simp [family, mem_iff]
  · simp [family, mem_iff]

end RangeSet

end RegisterVM
