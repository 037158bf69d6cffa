import RegisterVM.Proofs.RangeFamily

/-!
# Sets of ranges that do not overlap

A set of ranges takes overlapping ranges for equal. On a separated family nothing overlaps, and the set
operations do what their names say:

* a range that belongs between two members is put there, and is taken out again from there
  (`insertInto_append`, `eraseFrom_append`);
* a list of ranges apart from each other becomes a separated set with the same members, whatever its order
  (`separated_ofList`, `mem_ofList`);
* a member taken out, and pieces of it put in one by one, leave the pieces in its place (`replace_append`),
  so to do that with one member after the other is to subdivide the set (`foldl_eq_subdivide`);
* looking up an index finds the member that contains it (`containing?_eq_some_iff`).
-/

namespace RegisterVM

namespace IndexRange

/-- No index is in both ranges. -/
def Apart (r s : IndexRange) : Prop := ∀ i ∈ r, i ∉ s

variable {r s : IndexRange}

/-- Ranges are apart if one is empty or ends before the other starts. -/
theorem apart_iff : r.Apart s ↔
    r.last < r.first ∨ s.last < s.first ∨ r.last < s.first ∨ s.last < r.first := by
  constructor
  · intro h
    by_contra hoverlap
    push Not at hoverlap
    obtain ⟨hr, hs, hsr, hrs⟩ := hoverlap
    -- the later one of the two starts lies in both
    exact h (max r.first s.first) ⟨le_max_left _ _, max_le hr hsr⟩ ⟨le_max_right _ _, max_le hrs hs⟩
  · intro h i hr hs
    rw [mem_iff] at hr hs
    omega

instance : DecidableRel Apart := fun _ _ => decidable_of_iff' _ apart_iff

/-- Having no index in common goes both ways. -/
theorem Apart.symm (h : r.Apart s) : s.Apart r := fun i hs hr => h i hr hs

/-- Ranges compare as equal if neither ends before the other starts. -/
theorem compare_eq_eq_iff : r.compare s = .eq ↔ s.first ≤ r.last ∧ r.first ≤ s.last := by
  unfold compare
  split
  · simp only [reduceCtorEq, false_iff]
    omega
  · split
    · simp only [reduceCtorEq, false_iff]
      omega
    · simp only [true_iff]
      omega

/-- A range that ends before another starts comes before it. -/
theorem compare_of_before (h : r.last < s.first) : r.compare s = .lt := if_pos h

/-- A range that starts behind the end of another comes behind it. -/
theorem compare_of_behind (hr : r.first ≤ r.last) (hs : s.first ≤ s.last) (h : s.last < r.first) :
    r.compare s = .gt := by
  rw [compare, if_neg (by omega), if_pos h]

end IndexRange

namespace Separated

variable {n : Nat} {run p : IndexRange} {runs front back ps : List IndexRange}

/-- Everything in front of a member ends before it starts. -/
theorem lt_of_mem_front (h : Separated n (front ++ run :: back)) {r : IndexRange} (hr : r ∈ front) :
    r.last < run.first :=
  (List.pairwise_append.1 h.ascending).2.2 r hr run List.mem_cons_self

/-- Everything behind a member starts after it ends. -/
theorem lt_of_mem_back (h : Separated n (front ++ run :: back)) {r : IndexRange} (hr : r ∈ back) :
    run.last < r.first :=
  List.rel_of_pairwise_cons (List.pairwise_append.1 h.ascending).2.1 hr

/-- Pieces of a member can stand in its place. -/
theorem replace (h : Separated n (front ++ run :: back)) (hp : Pieces run ps) :
    Separated n (front ++ (ps ++ back)) := by
  have hrun : run.last < n := h.bounded run (List.mem_append_right _ List.mem_cons_self)
  have hfront : Separated n front := h.sublist (List.sublist_append_left _ _)
  have hback : Separated n back := (h.sublist (List.sublist_append_right _ _)).tail
  have hpieces : Separated n ps :=
    ⟨hp.ascending, hp.nonempty, fun p hpm => (hp.inside p hpm).2.trans_lt hrun⟩
  refine hfront.append (hpieces.append hback fun q hq r hr => ?_) fun r hr q hq => ?_
  · have hinside := (hp.inside q hq).2
    have hlt := h.lt_of_mem_back hr
    omega
  · rcases List.mem_append.1 hq with hq | hq
    · have hinside := (hp.inside q hq).1
      have hlt := h.lt_of_mem_front hr
      omega
    · exact (List.pairwise_append.1 h.ascending).2.2 r hr q (List.mem_cons_of_mem _ hq)

/-- A range apart from all members has its place between two of them. -/
theorem exists_place (h : Separated n runs) (hne : p.first ≤ p.last) (hn : p.last < n)
    (hapart : ∀ r ∈ runs, p.Apart r) :
    ∃ front back, runs = front ++ back ∧ Separated n (front ++ p :: back) := by
  induction runs with
  | nil => exact ⟨[], [], rfl, singleton hne hn⟩
  | cons r runs ih =>
    have hr : r.first ≤ r.last := h.nonempty r List.mem_cons_self
    have hbehind : ∀ s ∈ runs, r.last < s.first := fun s hs => List.rel_of_pairwise_cons h.ascending hs
    rw [List.forall_mem_cons, IndexRange.apart_iff] at hapart
    obtain ⟨hpr, hrest⟩ := hapart
    by_cases hbefore : p.last < r.first
    · refine ⟨[], r :: runs, rfl, (singleton hne hn).append h fun q hq s hs => ?_⟩
      rw [List.mem_singleton.1 hq]
      rcases List.mem_cons.1 hs with rfl | hs
      · exact hbefore
      · have := hbehind s hs
        omega
    · have hafter : r.last < p.first := by omega
      obtain ⟨front, back, rfl, hsep⟩ := ih h.tail hrest
      have hhead : Separated n [r] := singleton hr (h.bounded r List.mem_cons_self)
      refine ⟨r :: front, back, rfl, hhead.append hsep fun q hq s hs => ?_⟩
      rw [List.mem_singleton.1 hq]
      rcases List.mem_append.1 hs with hs | hs
      · exact hbehind s (List.mem_append_left _ hs)
      · rcases List.mem_cons.1 hs with rfl | hs
        · exact hafter
        · exact hbehind s (List.mem_append_right _ hs)

end Separated

namespace RangeSet

variable {n : Nat} {run p : IndexRange} {front back ps : List IndexRange} {set : RangeSet}

/-! ### Putting in and taking out -/

/-- **A range is put where it belongs.** -/
theorem insertInto_append (h : Separated n (front ++ p :: back)) :
    insertInto p (front ++ back) = front ++ p :: back := by
  induction front with
  | nil =>
    cases back with
    | nil => rfl
    | cons r back =>
      have hlt : p.last < r.first := List.rel_of_pairwise_cons h.ascending List.mem_cons_self
      rw [List.nil_append, insertInto, IndexRange.compare_of_before hlt]
      rfl
  | cons r front ih =>
    have hp : p.first ≤ p.last := h.nonempty p (List.mem_append_right _ List.mem_cons_self)
    have hr : r.first ≤ r.last := h.nonempty r List.mem_cons_self
    have hlt : r.last < p.first := h.lt_of_mem_front List.mem_cons_self
    rw [List.cons_append, insertInto, IndexRange.compare_of_behind hp hr hlt]
    exact congrArg (r :: ·) (ih h.tail)

/-- **A member is taken out from where it is.** -/
theorem eraseFrom_append (h : Separated n (front ++ p :: back)) :
    eraseFrom p (front ++ p :: back) = front ++ back := by
  have hp : p.first ≤ p.last := h.nonempty p (List.mem_append_right _ List.mem_cons_self)
  induction front with
  | nil =>
    rw [List.nil_append, eraseFrom, IndexRange.compare_eq_eq_iff.2 ⟨hp, hp⟩]
    rfl
  | cons r front ih =>
    have hr : r.first ≤ r.last := h.nonempty r List.mem_cons_self
    have hlt : r.last < p.first := h.lt_of_mem_front List.mem_cons_self
    rw [List.cons_append, eraseFrom, IndexRange.compare_of_behind hp hr hlt]
    exact congrArg (r :: ·) (ih h.tail)

/-- Ranges put in one by one. -/
theorem foldl_insert_append (h : Separated n (front ++ (ps ++ back))) :
    ps.foldl insert ⟨front ++ back⟩ = ⟨front ++ (ps ++ back)⟩ := by
  induction ps generalizing front with
  | nil => rfl
  | cons p ps ih =>
    have hplace : Separated n (front ++ p :: back) :=
      h.sublist (((List.sublist_append_right ps back).cons_cons p).append_left front)
    have hinsert : insert ⟨front ++ back⟩ p = ⟨front ++ p :: back⟩ :=
      congrArg RangeSet.mk (insertInto_append hplace)
    have hassoc (l : List IndexRange) : front ++ p :: l = (front ++ [p]) ++ l := by simp
    rw [List.cons_append, hassoc] at h ⊢
    rw [List.foldl_cons, hinsert, hassoc, ih h]

/-- The empty set is separated. -/
theorem separated_empty : Separated n empty.toList :=
  ⟨List.Pairwise.nil, List.forall_mem_nil _, List.forall_mem_nil _⟩

/-- A separated family, put in one by one, is the set of its members in order. -/
theorem ofList_of_separated {runs : List IndexRange} (h : Separated n runs) : ofList runs = ⟨runs⟩ := by
  have hruns : Separated n ([] ++ (runs ++ [])) := by simpa using h
  have hfold : ofList runs = ⟨[] ++ (runs ++ [])⟩ := foldl_insert_append hruns
  simpa using hfold

/-- **Ranges apart from each other, put in one by one, make a separated set** of all of them. -/
theorem separated_foldl_insert {ranges : List IndexRange} (hset : Separated n set.toList)
    (hne : ∀ r ∈ ranges, r.first ≤ r.last) (hn : ∀ r ∈ ranges, r.last < n)
    (hapart : ranges.Pairwise IndexRange.Apart) (hnew : ∀ r ∈ ranges, ∀ s ∈ set.toList, r.Apart s) :
    Separated n (ranges.foldl insert set).toList ∧
      ∀ r, r ∈ (ranges.foldl insert set).toList ↔ r ∈ set.toList ∨ r ∈ ranges := by
  induction ranges generalizing set with
  | nil => exact ⟨hset, fun r => by simp⟩
  | cons p ranges ih =>
    rw [List.forall_mem_cons] at hne hn hnew
    rw [List.pairwise_cons] at hapart
    obtain ⟨front, back, hsplit, hsep⟩ := hset.exists_place hne.1 hn.1 hnew.1
    have hinsert : (set.insert p).toList = front ++ p :: back := by
      rw [insert, hsplit, insertInto_append hsep]
    have hmem (r : IndexRange) : r ∈ (set.insert p).toList ↔ r ∈ set.toList ∨ r = p := by
      rw [hinsert, hsplit, List.mem_append, List.mem_append, List.mem_cons]
      tauto
    have hnext : ∀ r ∈ ranges, ∀ s ∈ (set.insert p).toList, r.Apart s := by
      intro r hr s hs
      rcases (hmem s).1 hs with hs | rfl
      · exact hnew.2 r hr s hs
      · exact (hapart.1 r hr).symm
    obtain ⟨hfold, hall⟩ := ih (hinsert ▸ hsep) hne.2 hn.2 hapart.2 hnext
    refine ⟨hfold, fun r => ?_⟩
    rw [List.foldl_cons, hall, hmem, List.mem_cons, or_assoc]

section OfList

variable {ranges : List IndexRange} (hne : ∀ r ∈ ranges, r.first ≤ r.last) (hn : ∀ r ∈ ranges, r.last < n)
  (hapart : ranges.Pairwise IndexRange.Apart)

include hne hn hapart

/-- A set of ranges without a common index is separated. -/
theorem separated_ofList : Separated n (ofList ranges).toList :=
  (separated_foldl_insert separated_empty hne hn hapart fun _ _ => List.forall_mem_nil _).1

/-- It has just the ranges that were put in. -/
theorem mem_ofList {r : IndexRange} : r ∈ (ofList ranges).toList ↔ r ∈ ranges := by
  have hall := (separated_foldl_insert separated_empty hne hn hapart fun _ _ => List.forall_mem_nil _).2 r
  simpa [ofList, empty] using hall

end OfList

/-! ### Pieces in the place of members -/

/-- A member is taken out, and its pieces are put in one by one. -/
def replace (set : RangeSet) (run : IndexRange) (pieces : List IndexRange) : RangeSet :=
  pieces.foldl insert (set.erase run)

/-- **Pieces of a member end up in its place.** -/
theorem replace_append (h : Separated n (front ++ run :: back)) (hp : Pieces run ps) :
    replace ⟨front ++ run :: back⟩ run ps = ⟨front ++ (ps ++ back)⟩ := by
  have herase : erase ⟨front ++ run :: back⟩ run = ⟨front ++ back⟩ :=
    congrArg RangeSet.mk (eraseFrom_append h)
  rw [replace, herase, foldl_insert_append (h.replace hp)]

section Subdivide

variable {pieces : IndexRange → List IndexRange} {step : RangeSet → IndexRange → RangeSet}

/-- The members of `rest` are still to be replaced, those of `done` are pieces already. -/
theorem foldl_append_eq {done rest : List IndexRange} (h : Separated n (done ++ rest))
    (hp : ∀ run ∈ rest, Pieces run (pieces run))
    (hstep : ∀ run ∈ rest, ∀ s, step s run = s.replace run (pieces run) ∨ pieces run = [run] ∧ step s run = s) :
    rest.foldl step ⟨done ++ rest⟩ = ⟨done ++ rest.flatMap pieces⟩ := by
  induction rest generalizing done with
  | nil => rfl
  | cons run rest ih =>
    rw [List.forall_mem_cons] at hp hstep
    have hone : step ⟨done ++ run :: rest⟩ run = ⟨(done ++ pieces run) ++ rest⟩ := by
      rcases hstep.1 ⟨done ++ run :: rest⟩ with hreplaced | ⟨hself, hkept⟩
      · rw [hreplaced, replace_append h hp.1, List.append_assoc]
      · rw [hkept, hself]
        simp
    have hsep : Separated n ((done ++ pieces run) ++ rest) := by
      rw [List.append_assoc]
      exact h.replace hp.1
    rw [List.foldl_cons, hone, ih hsep hp.2 hstep.2, List.flatMap_cons, List.append_assoc]

/-- **To replace one member after the other by its pieces is to subdivide the set.** A step may leave out
a member that is its own only piece. -/
theorem foldl_eq_subdivide (h : Separated n set.toList) (hp : ∀ run ∈ set.toList, Pieces run (pieces run))
    (hstep : ∀ run ∈ set.toList, ∀ s,
      step s run = s.replace run (pieces run) ∨ pieces run = [run] ∧ step s run = s) :
    set.toList.foldl step set = set.subdivide pieces := by
  have hsep : Separated n ([] ++ set.toList) := h
  exact foldl_append_eq hsep hp hstep

end Subdivide

/-! ### Looking up -/

/-- **Looking up an index finds the member that contains it.** -/
theorem containing?_eq_some_iff (h : Separated n set.toList) {i : Nat} :
    set.containing? i = some run ↔ run ∈ set.toList ∧ i ∈ run := by
  have hcompare (s : IndexRange) : ((IndexRange.point i).compare s == .eq) = true ↔ i ∈ s := by
    rw [beq_iff_eq, IndexRange.compare_eq_eq_iff]
    exact Iff.rfl
  constructor
  · intro hfound
    have hrun := List.find?_some (p := fun s => (IndexRange.point i).compare s == .eq) hfound
    exact ⟨List.mem_of_find?_eq_some hfound, (hcompare run).1 hrun⟩
  · rintro ⟨hmem, hi⟩
    cases hfound : set.containing? i with
    | none => exact absurd ((hcompare run).2 hi) (List.find?_eq_none.1 hfound run hmem)
    | some s =>
      have hs := List.find?_some (p := fun s => (IndexRange.point i).compare s == .eq) hfound
      rw [h.eq_of_mem (List.mem_of_find?_eq_some hfound) hmem ((hcompare s).1 hs) hi]

end RangeSet

end RegisterVM
