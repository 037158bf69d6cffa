import Mathlib
import RegisterVM.Dataflow.Analysis

/-!
# The live sets are the least solution

A solution of the liveness equations has two properties: what an instruction reads is live before
it, and what is live before a successor is live before the instruction unless the instruction writes
it. Sweeping stops after `n · 2 ^ 16 + 1` sweeps whether or not the last one added something, so that
it stops for the right reason is a counting argument: a sweep that changes a set adds one of at
most `n · 2 ^ 16` pairs of an instruction and a register (`Liveness.card_pairs_lt_of_sweep`), so the last
sweep made added nothing (`Liveness.sweepsTo_solve`).

Sets left by a sweep that adds nothing are a solution (`Liveness.SweepsTo.closed`), and as every sweep
adds only what each solution has, they are the least one (`Liveness.SweepsTo.least`).

Sets are compared through their members only; how many words they have varies.
-/

namespace RegisterVM

namespace RegSet

/-! ### Members -/

/-- The mask of a register has one bit, at its place in the word. -/
theorem toNat_mask (r : Reg) : (mask r).toNat = 2 ^ (r.toNat % 64) := by
  have hlt : 2 ^ (r.toNat % 64) < 2 ^ 64 := Nat.pow_lt_pow_right (by omega) (by omega)
  simp [mask, UInt64.toNat_shiftLeft, Nat.shiftLeft_eq]
  omega

/-- Bits of the mask of a register. -/
theorem getLsbD_mask (r : Reg) (k : Nat) :
    (mask r).toBitVec.getLsbD k = decide (k = r.toNat % 64) := by
  rw [BitVec.getLsbD, UInt64.toNat_toBitVec, toNat_mask, Nat.testBit_two_pow]
  simp [eq_comm]

/-- Testing a word with the mask of a register tests the bit of the register. -/
theorem and_mask_ne_zero (w : UInt64) (r : Reg) :
    (w &&& mask r != 0) = w.toBitVec.getLsbD (r.toNat % 64) := by
  have h : (w &&& mask r).toNat = (w.toNat.testBit (r.toNat % 64)).toNat * 2 ^ (r.toNat % 64) := by
    rw [UInt64.toNat_and, toNat_mask, Nat.and_two_pow]
  rw [BitVec.getLsbD, UInt64.toNat_toBitVec]
  cases hb : w.toNat.testBit (r.toNat % 64) with
  | false =>
    rw [hb] at h
    simpa [← UInt64.toNat_inj] using h
  | true =>
    rw [hb] at h
    simp [← UInt64.toNat_inj, h]

/-- Membership is one bit of one word. -/
theorem contains_eq_getLsbD (s : RegSet) (r : Reg) :
    s.contains r = (s.words.getD (wordOf r) 0).toBitVec.getLsbD (r.toNat % 64) :=
  and_mask_ne_zero _ r

/-- A register is determined by its word and its bit. -/
theorem eq_of_wordOf_eq {q r : Reg} (hw : wordOf q = wordOf r) (hb : q.toNat % 64 = r.toNat % 64) :
    q = r := by
  unfold wordOf at hw
  exact UInt16.toNat_inj.1 (by omega)

/-- Growing a set adds words that are zero. -/
@[simp] theorem getD_grow (s : RegSet) (n i : Nat) :
    (s.grow n).words.getD i 0 = s.words.getD i 0 := by
  rw [grow, Array.getD_eq_getD_getElem?, Array.getD_eq_getD_getElem?, Array.getElem?_append]
  split
  · rfl
  · rename_i h
    rw [Array.getElem?_replicate, Array.getElem?_eq_none (Nat.not_lt.1 h)]
    split <;> rfl

/-- Growing a set adds no members. -/
@[simp] theorem contains_grow (s : RegSet) (n : Nat) (r : Reg) :
    (s.grow n).contains r = s.contains r := by
  rw [contains, contains, getD_grow]

/-- A set has at least as many words as it is grown to. -/
theorem size_grow (s : RegSet) (n : Nat) : (s.grow n).words.size = max s.words.size n := by
  simp only [grow, Array.size_append, Array.size_replicate]
  omega

/-- A new set has no members, however many it has room for. -/
@[simp] theorem contains_withCapacity (n : Nat) (r : Reg) : (withCapacity n).contains r = false := by
  rw [contains_eq_getLsbD, withCapacity, Array.getD_eq_getD_getElem?, Array.getElem?_replicate]
  split <;> simp

/-- The empty set has no members. -/
@[simp] theorem contains_empty (r : Reg) : empty.contains r = false := by
  rw [contains_eq_getLsbD]
  simp [empty]

/-- A word changed in place; past the last word nothing changes, which `f 0 = 0` does not show. -/
theorem getD_modify {words : Array UInt64} {i j : Nat} {f : UInt64 → UInt64}
    (h : i < words.size ∨ f 0 = 0) :
    (words.modify i f).getD j 0 = if i = j then f (words.getD j 0) else words.getD j 0 := by
  rw [Array.getD_eq_getD_getElem?, Array.getD_eq_getD_getElem?, Array.getElem?_modify]
  split
  · rename_i hij
    subst hij
    cases hi : words[i]? with
    | some w => rfl
    | none =>
      have hsize : ¬i < words.size := by
        rw [Nat.not_lt]
        exact Array.getElem?_eq_none_iff.1 hi
      simp [h.resolve_left hsize]
  · rfl

/-- Two registers of one word are the same when their bits are. -/
theorem place_eq_iff {q r : Reg} (hw : wordOf r = wordOf q) :
    q.toNat % 64 = r.toNat % 64 ↔ q = r :=
  ⟨fun hb => eq_of_wordOf_eq hw.symm hb, fun h => by rw [h]⟩

/-- Inserting adds one member. -/
@[simp] theorem contains_insert {s : RegSet} {r q : Reg} :
    (s.insert r).contains q = true ↔ q = r ∨ s.contains q = true := by
  have hlt : wordOf r < (s.grow (wordOf r + 1)).words.size := by
    rw [size_grow]
    omega
  rw [contains_eq_getLsbD, contains_eq_getLsbD, insert, getD_modify (.inl hlt), getD_grow]
  by_cases hw : wordOf r = wordOf q
  · rw [if_pos hw, UInt64.toBitVec_or, BitVec.getLsbD_or, getLsbD_mask, Bool.or_eq_true,
      decide_eq_true_eq, place_eq_iff hw, or_comm]
  · have hne : q ≠ r := fun h => hw (by rw [h])
    rw [if_neg hw]
    simp [hne]

/-- Erasing takes one member away. -/
@[simp] theorem contains_erase {s : RegSet} {r q : Reg} :
    (s.erase r).contains q = true ↔ q ≠ r ∧ s.contains q = true := by
  have hzero : (fun w => w &&& ~~~mask r) 0 = 0 := UInt64.zero_and
  rw [contains_eq_getLsbD, contains_eq_getLsbD, erase, getD_modify (.inr hzero)]
  by_cases hw : wordOf r = wordOf q
  · have hbit : q.toNat % 64 < 64 := Nat.mod_lt _ (by omega)
    rw [if_pos hw, UInt64.toBitVec_and, BitVec.getLsbD_and, UInt64.toBitVec_not,
      BitVec.getLsbD_not, getLsbD_mask]
    simp only [hbit, decide_true, Bool.true_and, Bool.and_eq_true, Bool.not_eq_true',
      decide_eq_false_iff_not, place_eq_iff hw]
    exact and_comm
  · have hne : q ≠ r := fun h => hw (by rw [h])
    rw [if_neg hw]
    simp [hne]

/-- Words of a union, bit by bit. -/
theorem getD_union (s t : RegSet) (i : Nat) :
    (s.union t).words.getD i 0 = s.words.getD i 0 ||| t.words.getD i 0 := by
  rw [union, Array.getD_eq_getD_getElem?, Array.getElem?_mapIdx]
  cases hi : (s.grow t.words.size).words[i]? with
  | some w =>
    have hw : s.words.getD i 0 = w := by
      rw [← getD_grow s t.words.size, Array.getD_eq_getD_getElem?, hi]
      rfl
    rw [hw]
    rfl
  | none =>
    have hlen := Array.getElem?_eq_none_iff.1 hi
    rw [size_grow] at hlen
    rw [Array.getD_eq_getD_getElem?, Array.getElem?_eq_none (by omega),
      Array.getD_eq_getD_getElem?, Array.getElem?_eq_none (by omega)]
    rfl

/-- Members of a union. -/
@[simp] theorem contains_union {s t : RegSet} {r : Reg} :
    (s.union t).contains r = true ↔ s.contains r = true ∨ t.contains r = true := by
  rw [contains_eq_getLsbD, contains_eq_getLsbD, contains_eq_getLsbD, getD_union,
    UInt64.toBitVec_or, BitVec.getLsbD_or, Bool.or_eq_true]

/-- Inserting the members of a list. -/
theorem contains_foldl_insert {s : RegSet} {rs : List Reg} {q : Reg} :
    (rs.foldl insert s).contains q = true ↔ q ∈ rs ∨ s.contains q = true := by
  induction rs generalizing s with
  | nil => simp
  | cons r rs ih =>
    rw [List.foldl_cons, ih, contains_insert, List.mem_cons]
    tauto

/-- Erasing the members of a list. -/
theorem contains_foldl_erase {s : RegSet} {rs : List Reg} {q : Reg} :
    (rs.foldl erase s).contains q = true ↔ q ∉ rs ∧ s.contains q = true := by
  induction rs generalizing s with
  | nil => simp
  | cons r rs ih =>
    rw [List.foldl_cons, ih, contains_erase, List.mem_cons]
    tauto

/-- Uniting the sets of a list of indices. -/
theorem contains_foldl_union {s : RegSet} {is : List Nat} {sets : Nat → RegSet} {q : Reg} :
    (is.foldl (fun acc i => acc.union (sets i)) s).contains q = true ↔
      s.contains q = true ∨ ∃ i ∈ is, (sets i).contains q = true := by
  induction is generalizing s with
  | nil => simp
  | cons i is ih =>
    rw [List.foldl_cons, ih, contains_union, List.exists_mem_cons_iff, or_assoc]

/-! ### What a union adds -/

/-- A set with no bit beyond those of the `2 ^ 16` registers there are. -/
def Fits (s : RegSet) : Prop := ∀ i, 1024 ≤ i → s.words.getD i 0 = 0

/-- A register has its bit in one of 1024 words. -/
theorem wordOf_lt (r : Reg) : wordOf r < 1024 := by
  have := r.toNat_lt
  unfold wordOf
  omega

/-- A new set fits. -/
theorem fits_withCapacity (n : Nat) : (withCapacity n).Fits := fun i _ => by
  rw [withCapacity, Array.getD_eq_getD_getElem?, Array.getElem?_replicate]
  split <;> rfl

/-- The empty set fits. -/
theorem fits_empty : empty.Fits := fun _ _ => rfl

/-- Inserting keeps a set fit, as every register has its bit below the bound. -/
theorem Fits.insert {s : RegSet} (h : s.Fits) (r : Reg) : (s.insert r).Fits := fun i hi => by
  have hr := wordOf_lt r
  have hlt : wordOf r < (s.grow (wordOf r + 1)).words.size := by
    rw [size_grow]
    omega
  rw [RegSet.insert, getD_modify (.inl hlt), if_neg (by omega), getD_grow]
  exact h i hi

/-- So does inserting the members of a list. -/
theorem Fits.foldl_insert {s : RegSet} (h : s.Fits) (rs : List Reg) : (rs.foldl RegSet.insert s).Fits := by
  induction rs generalizing s with
  | nil => exact h
  | cons r rs ih => exact ih (h.insert r)

/-- Erasing keeps a set fit. -/
theorem Fits.erase {s : RegSet} (h : s.Fits) (r : Reg) : (s.erase r).Fits := fun i hi => by
  have hr := wordOf_lt r
  have hzero : (fun w => w &&& ~~~mask r) 0 = 0 := UInt64.zero_and
  rw [RegSet.erase, getD_modify (.inr hzero), if_neg (by omega)]
  exact h i hi

/-- A union has as many words as the larger of the two sets. -/
theorem size_union (s t : RegSet) : (s.union t).words.size = max s.words.size t.words.size := by
  rw [union, Array.size_mapIdx, size_grow]

/-- A union of sets that fit does so too. -/
theorem Fits.union {s t : RegSet} (hs : s.Fits) (ht : t.Fits) : (s.union t).Fits := fun i hi => by
  rw [getD_union, hs i hi, ht i hi]
  rfl

/-- A union that reports no change adds no member. -/
theorem subset_of_unionChanged {s t : RegSet} (h : (s.unionChanged t).2 = false) {r : Reg}
    (hr : t.contains r = true) : s.contains r = true := by
  have hwords : (s.grow t.words.size).words = (s.union t).words := by
    simpa [unionChanged] using h
  rw [← contains_grow s t.words.size, contains, hwords]
  exact contains_union.2 (.inr hr)

/-- Bit `k` of word `i` belongs to a register, if there are registers for the word. -/
theorem exists_contains_eq {i k : Nat} (hi : i < 1024) (hk : k < 64) :
    ∃ r, ∀ s : RegSet, s.contains r = (s.words.getD i 0).toBitVec.getLsbD k := by
  refine ⟨UInt16.ofNat (64 * i + k), fun s => ?_⟩
  have hr : (UInt16.ofNat (64 * i + k)).toNat = 64 * i + k := UInt16.toNat_ofNat_of_lt (by
    have : UInt16.size = 65536 := rfl
    omega)
  rw [contains_eq_getLsbD, wordOf, hr]
  congr 3 <;> omega

/-- A union that reports a change adds a member. -/
theorem exists_of_unionChanged {s t : RegSet} (ht : t.Fits)
    (h : (s.unionChanged t).2 = true) : ∃ r, t.contains r = true ∧ s.contains r = false := by
  by_contra hall
  push Not at hall
  -- every word of the union is then the word of the set, bit by bit
  have hword : ∀ i, s.words.getD i 0 ||| t.words.getD i 0 = s.words.getD i 0 := by
    intro i
    by_cases hi : i < 1024
    · rw [← UInt64.toBitVec_inj, UInt64.toBitVec_or]
      refine BitVec.eq_of_getLsbD_eq fun k hk => ?_
      obtain ⟨r, hr⟩ := exists_contains_eq hi hk
      have hsub := hall r
      rw [hr, hr] at hsub
      rw [BitVec.getLsbD_or]
      cases hs : (s.words.getD i 0).toBitVec.getLsbD k <;>
        cases htk : (t.words.getD i 0).toBitVec.getLsbD k <;> simp_all
    · rw [ht i (Nat.not_lt.1 hi)]
      exact UInt64.or_zero
  have hwords : (s.grow t.words.size).words = (s.union t).words := by
    refine Array.ext (by rw [size_grow, size_union]) fun i hi hi' => ?_
    have hleft := getD_grow s t.words.size i
    have hright := getD_union s t i
    rw [hword] at hright
    rw [← hright] at hleft
    simpa [Array.getD, hi, hi'] using hleft
  simp [unionChanged, hwords] at h

end RegSet

namespace Liveness

variable {g : FlowGraph} {registers : Nat} {live : Array RegSet}

/-- Register `r` is in the set of instruction `i`. -/
def Has (live : Array RegSet) (i : Nat) (r : Reg) : Prop := (live.getD i .empty).contains r = true

instance (live : Array RegSet) (i : Nat) (r : Reg) : Decidable (Has live i r) :=
  inferInstanceAs (Decidable (_ = true))

/-- Register `r` is live before instruction `i`, given what is live before its successors. -/
def Transfer (g : FlowGraph) (L : Nat → Reg → Prop) (i : Nat) (r : Reg) : Prop :=
  r ∈ g.usesAt i ∨ r ∉ g.defsAt i ∧ ∃ s ∈ g.succsAt i, L s r

/-- What is live before an instruction grows with what is live before its successors. -/
theorem Transfer.mono {L L' : Nat → Reg → Prop} (hL : ∀ i r, L i r → L' i r) {i : Nat} {r : Reg}
    (h : Transfer g L i r) : Transfer g L' i r := by
  rcases h with huse | ⟨hdef, s, hs, hlive⟩
  · exact .inl huse
  · exact .inr ⟨hdef, s, hs, hL s r hlive⟩

/-- What satisfies the liveness equations from above. -/
def Closed (g : FlowGraph) (L : Nat → Reg → Prop) : Prop :=
  ∀ i < g.size, ∀ r, Transfer g L i r → L i r

def AllFit (live : Array RegSet) : Prop := ∀ i, (live.getD i .empty).Fits

/-- The set computed for an instruction has what is live before it, given the sets of its successors. -/
theorem contains_before {i : Nat} {r : Reg} :
    (before g registers live i).contains r = true ↔ Transfer g (Has live) i r := by
  unfold before Transfer Has
  rw [RegSet.contains_foldl_insert, RegSet.contains_foldl_erase, RegSet.contains_foldl_union]
  simp

/-- The set computed from sets that fit does so too. -/
theorem fits_before (h : AllFit live) (i : Nat) :
    (before g registers live i).Fits := by
  have hunion : ∀ (ss : List Nat) (s : RegSet), s.Fits →
      (ss.foldl (fun acc s => acc.union (live.getD s .empty)) s).Fits := by
    intro ss
    induction ss with
    | nil => exact fun s hs => hs
    | cons j ss ih => exact fun s hs => ih _ (hs.union (h j))
  have herase : ∀ (rs : List Reg) (s : RegSet), s.Fits → (rs.foldl .erase s).Fits := by
    intro rs
    induction rs with
    | nil => exact fun s hs => hs
    | cons r rs ih => exact fun s hs => ih _ (hs.erase r)
  exact RegSet.Fits.foldl_insert (herase _ _ (hunion _ _ (RegSet.fits_withCapacity registers))) _

/-! ### One instruction of a sweep -/

/-- The sets after the set of instruction `i` has been joined with what its successors give. -/
def visit (g : FlowGraph) (registers : Nat) (live : Array RegSet) (i : Nat) : Array RegSet :=
  live.setIfInBounds i ((live.getD i .empty).union (before g registers live i))

/-- Whether that changed the set. -/
def grew (g : FlowGraph) (registers : Nat) (live : Array RegSet) (i : Nat) : Bool :=
  ((live.getD i .empty).unionChanged (before g registers live i)).2

/-- A sweep visits the last instruction first and goes on with the others. -/
theorem sweep_succ (i : Nat) (changed : Bool) :
    sweep g registers (i + 1) live changed
      = sweep g registers i (visit g registers live i) (changed || grew g registers live i) := rfl

/-- Visiting an instruction keeps the number of sets. -/
@[simp] theorem size_visit (i : Nat) : (visit g registers live i).size = live.size :=
  Array.size_setIfInBounds

/-- Visiting an instruction changes no other set. -/
theorem getD_visit {i : Nat} (hi : i < live.size) (j : Nat) :
    (visit g registers live i).getD j .empty
      = if i = j then (live.getD i .empty).union (before g registers live i)
        else live.getD j .empty := by
  unfold visit
  generalize (live.getD i .empty).union (before g registers live i) = s
  rw [Array.getD_eq_getD_getElem?, Array.getElem?_setIfInBounds, Array.getD_eq_getD_getElem?]
  by_cases h : i = j
  · rw [if_pos h, if_pos h, if_pos hi]
    rfl
  · rw [if_neg h, if_neg h]

/-- Visiting an instruction adds what is live before it, given the sets so far. -/
theorem has_visit {i j : Nat} {r : Reg} (hi : i < live.size) :
    Has (visit g registers live i) j r ↔ Has live j r ∨ i = j ∧ Transfer g (Has live) i r := by
  rw [Has, Has, getD_visit hi]
  by_cases h : i = j
  · rw [if_pos h, RegSet.contains_union, contains_before, h, and_iff_right rfl]
  · rw [if_neg h]
    exact (or_iff_left fun hj => h hj.1).symm

/-- Visiting keeps all sets fit. -/
theorem allFit_visit (h : AllFit live) {i : Nat} (hi : i < live.size) :
    AllFit (visit g registers live i) := by
  intro j
  rw [getD_visit hi]
  by_cases hij : i = j
  · rw [if_pos hij]
    exact RegSet.Fits.union (h i) (fits_before h i)
  · rw [if_neg hij]
    exact h j

/-! ### A sweep -/

/-- A sweep only adds members. -/
theorem has_sweep {i : Nat} (hi : i ≤ live.size) {changed : Bool} {j : Nat} {r : Reg}
    (h : Has live j r) : Has (sweep g registers i live changed).1 j r := by
  induction i generalizing live changed with
  | zero => exact h
  | succ i ih =>
    rw [sweep_succ]
    exact ih (by rw [size_visit]; omega) ((has_visit hi).2 (.inl h))

/-- A sweep keeps the number of sets. -/
theorem size_sweep {i : Nat} {changed : Bool} :
    (sweep g registers i live changed).1.size = live.size := by
  induction i generalizing live changed with
  | zero => rfl
  | succ i ih => rw [sweep_succ, ih, size_visit]

/-- A sweep keeps all sets fit. -/
theorem allFit_sweep {i : Nat} (hi : i ≤ live.size) {changed : Bool} (h : AllFit live) :
    AllFit (sweep g registers i live changed).1 := by
  induction i generalizing live changed with
  | zero => exact h
  | succ i ih =>
    rw [sweep_succ]
    exact ih (by rw [size_visit]; omega) (allFit_visit h hi)

/-- A sweep adds only what every solution above the sets has. -/
theorem of_has_sweep {L : Nat → Reg → Prop} (hL : Closed g L) {i : Nat} (hi : i ≤ live.size)
    (hsize : i ≤ g.size) {changed : Bool} (h : ∀ j r, Has live j r → L j r) {j : Nat} {r : Reg}
    (hr : Has (sweep g registers i live changed).1 j r) : L j r := by
  induction i generalizing live changed with
  | zero => exact h j r hr
  | succ i ih =>
    rw [sweep_succ] at hr
    refine ih (by rw [size_visit]; omega) (by omega) (fun k q hq => ?_) hr
    rcases (has_visit hi).1 hq with hq | ⟨rfl, htransfer⟩
    · exact h k q hq
    · exact hL i hsize q (htransfer.mono h)

/-- A sweep that reports no change found every set it visited to hold all it should, and left the
members as they were. -/
theorem of_sweep_unchanged {i : Nat} (hi : i ≤ live.size) {changed : Bool}
    (h : (sweep g registers i live changed).2 = false) :
    changed = false ∧ (∀ j r, Has (sweep g registers i live changed).1 j r → Has live j r) ∧
      ∀ j < i, ∀ r, Transfer g (Has live) j r → Has live j r := by
  induction i generalizing live changed with
  | zero => exact ⟨h, fun _ _ h => h, by omega⟩
  | succ i ih =>
    rw [sweep_succ] at h ⊢
    obtain ⟨hchanged, hback, hrest⟩ := ih (by rw [size_visit]; omega) h
    rw [Bool.or_eq_false_iff] at hchanged
    have hvisit : ∀ j r, Has (visit g registers live i) j r ↔ Has live j r := by
      intro j r
      rw [has_visit hi]
      refine or_iff_left_of_imp ?_
      rintro ⟨rfl, htransfer⟩
      exact RegSet.subset_of_unionChanged hchanged.2 (contains_before.2 htransfer)
    refine ⟨hchanged.1, fun j r hj => (hvisit j r).1 (hback j r hj), fun j hj r htransfer => ?_⟩
    rcases Nat.lt_succ_iff_lt_or_eq.1 hj with hlt | rfl
    · exact (hvisit j r).1 (hrest j hlt r (htransfer.mono fun s r => (hvisit s r).2))
    · exact RegSet.subset_of_unionChanged hchanged.2 (contains_before.2 htransfer)

/-- A sweep that reports a change added a member. -/
theorem exists_of_sweep_changed {i : Nat} (hi : i ≤ live.size) (hfit : AllFit live) {changed : Bool}
    (h : (sweep g registers i live changed).2 = true) :
    changed = true ∨
      ∃ j < live.size, ∃ r, Has (sweep g registers i live changed).1 j r ∧ ¬Has live j r := by
  induction i generalizing live changed with
  | zero => exact .inl h
  | succ i ih =>
    rw [sweep_succ] at h ⊢
    have hi' : i ≤ (visit g registers live i).size := by
      rw [size_visit]
      omega
    rcases ih hi' (allFit_visit hfit hi) h with hchanged | ⟨j, hj, r, hhas, hnew⟩
    · rcases Bool.or_eq_true_iff.1 hchanged with hchanged | hgrew
      · exact .inl hchanged
      · obtain ⟨r, hr, hnew⟩ := RegSet.exists_of_unionChanged (fits_before hfit i) hgrew
        have hvisit : Has (visit g registers live i) i r :=
          (has_visit hi).2 (.inr ⟨rfl, contains_before.1 hr⟩)
        exact .inr ⟨i, hi, r, has_sweep hi' hvisit, Bool.eq_false_iff.1 hnew⟩
    · rw [size_visit] at hj
      exact .inr ⟨j, hj, r, hhas, fun h => hnew ((has_visit hi).2 (.inl h))⟩

/-! ### Sweeps until nothing changes -/

/-- The pairs of an instruction and the number of a register in its set. -/
def pairs (live : Array RegSet) : Finset (Nat × Nat) :=
  (Finset.range live.size ×ˢ Finset.range UInt16.size).filter fun p =>
    Has live p.1 (UInt16.ofNat p.2)

/-- There are no more pairs than instructions times registers, so sweeps cannot go on adding for ever. -/
theorem card_pairs_le (live : Array RegSet) : (pairs live).card ≤ live.size * UInt16.size := by
  refine (Finset.card_filter_le _ _).trans ?_
  rw [Finset.card_product, Finset.card_range, Finset.card_range]

/-- **A sweep that reports a change adds at least one pair.** -/
theorem card_pairs_lt_of_sweep (hfit : AllFit live)
    (h : (sweep g registers live.size live false).2 = true) :
    (pairs live).card < (pairs (sweep g registers live.size live false).1).card := by
  obtain hfalse | ⟨j, hj, r, hhas, hnew⟩ := exists_of_sweep_changed le_rfl hfit h
  · cases hfalse
  · refine Finset.card_lt_card (Finset.ssubset_iff_of_subset ?_ |>.2 ⟨(j, r.toNat), ?_, ?_⟩)
    · intro p hp
      simp only [pairs, Finset.mem_filter, Finset.mem_product, Finset.mem_range, size_sweep] at hp ⊢
      exact ⟨hp.1, has_sweep le_rfl hp.2⟩
    · simp only [pairs, Finset.mem_filter, Finset.mem_product, Finset.mem_range, size_sweep,
        UInt16.ofNat_toNat]
      exact ⟨⟨hj, r.toNat_lt⟩, hhas⟩
    · simp only [pairs, Finset.mem_filter, UInt16.ofNat_toNat, not_and]
      exact fun _ => hnew

/-- Sweeping from `live` until a sweep adds nothing comes to an end with `out`. -/
inductive SweepsTo (g : FlowGraph) (registers : Nat) : Array RegSet → Array RegSet → Prop
  | last {live : Array RegSet} (still : (sweep g registers g.size live false).2 = false) :
    SweepsTo g registers live (sweep g registers g.size live false).1
  | more {live out : Array RegSet} (changed : (sweep g registers g.size live false).2 = true)
    (rest : SweepsTo g registers (sweep g registers g.size live false).1 out) :
    SweepsTo g registers live out

/-- **Sweeping ends**: enough sweeps are as good as sweeping without a bound. -/
theorem sweepsTo_settle {bound : Nat} (hsize : live.size = g.size) (hfit : AllFit live)
    (hbound : g.size * UInt16.size < (pairs live).card + bound) :
    SweepsTo g registers live (settle g registers bound live) := by
  -- every sweep that does not end the search uses up one of the pairs left
  induction bound generalizing live with
  | zero =>
    have := card_pairs_le live
    rw [hsize] at this
    omega
  | succ bound ih =>
    unfold settle
    dsimp only
    split
    · rename_i hchanged
      have hlt : (pairs live).card < (pairs (sweep g registers g.size live false).1).card := by
        rw [← hsize] at hchanged ⊢
        exact card_pairs_lt_of_sweep hfit hchanged
      exact .more hchanged (ih (size_sweep.trans hsize) (allFit_sweep hsize.ge hfit) (by omega))
    · rename_i hstill
      exact .last (Bool.eq_false_iff.2 hstill)

namespace SweepsTo

variable {out : Array RegSet}

/-- **Sets that a sweep adds nothing to are a solution.** -/
theorem closed (h : SweepsTo g registers live out) (hsize : live.size = g.size) : Closed g (Has out) := by
  induction h with
  | last hstill =>
    obtain ⟨-, hback, hclosed⟩ := of_sweep_unchanged hsize.ge hstill
    intro i hi r htransfer
    exact has_sweep hsize.ge (hclosed i hi r (htransfer.mono hback))
  | more _ _ ih => exact ih (size_sweep.trans hsize)

/-- **Sweeping adds nothing but what every solution has.** -/
theorem least (h : SweepsTo g registers live out) (hsize : live.size = g.size) {L : Nat → Reg → Prop}
    (hL : Closed g L) (hlive : ∀ i r, Has live i r → L i r) {i : Nat} {r : Reg} (hr : Has out i r) :
    L i r := by
  induction h with
  | last _ => exact of_has_sweep hL hsize.ge le_rfl hlive hr
  | more _ _ ih => exact ih (size_sweep.trans hsize) (fun _ _ => of_has_sweep hL hsize.ge le_rfl hlive) hr

end SweepsTo

/-- Sweeping until nothing changes keeps the number of sets. -/
theorem size_settle {bound : Nat} : (settle g registers bound live).size = live.size := by
  induction bound generalizing live with
  | zero => rfl
  | succ bound ih =>
    rw [settle]
    dsimp only
    split
    · rw [ih, size_sweep]
    · exact size_sweep

/-- The solution has a set for each instruction. -/
theorem size_solve (g : FlowGraph) (registers : Nat) : (solve g registers).size = g.size := by
  rw [solve, size_settle, Array.size_replicate]

/-- **Solving is sweeping until nothing changes**, from sets without members. -/
theorem sweepsTo_solve (g : FlowGraph) (registers : Nat) :
    SweepsTo g registers (Array.replicate g.size (.withCapacity registers)) (solve g registers) := by
  refine sweepsTo_settle Array.size_replicate (fun i => ?_) (by omega)
  rw [Array.getD_eq_getD_getElem?, Array.getElem?_replicate]
  split
  · exact RegSet.fits_withCapacity registers
  · exact RegSet.fits_empty

/-- The solution satisfies the liveness equations from above. -/
theorem closed_solve (g : FlowGraph) (registers : Nat) : Closed g (Has (solve g registers)) :=
  (sweepsTo_solve g registers).closed Array.size_replicate

/-- What is live by the solution is so by every other. -/
theorem least_solve {L : Nat → Reg → Prop} (hL : Closed g L) {i : Nat} {r : Reg}
    (hr : Has (solve g registers) i r) : L i r := by
  refine (sweepsTo_solve g registers).least Array.size_replicate hL (fun j q hq => ?_) hr
  rw [Has, Array.getD_eq_getD_getElem?, Array.getElem?_replicate] at hq
  split at hq <;> simp at hq

end Liveness

/-! ### The facts of a piece of code -/

namespace FlowGraph

variable {code : Array Instruction} {i : Nat} {ins : Instruction}

/-- The graph of a code has the definitions of its instructions. -/
theorem defsAt_ofCode (hi : code[i]? = some ins) : (ofCode code).defsAt i = ins.defs := by
  rw [defsAt, ofCode, Array.getD_eq_getD_getElem?, Array.getElem?_map, hi]
  rfl

/-- The graph of a code has the uses of its instructions. -/
theorem usesAt_ofCode (hi : code[i]? = some ins) : (ofCode code).usesAt i = ins.uses := by
  rw [usesAt, ofCode, Array.getD_eq_getD_getElem?, Array.getElem?_map, hi]
  rfl

/-- The graph of a code has the successors of its instructions. -/
theorem succsAt_ofCode (code : Array Instruction) (i : Nat) :
    (ofCode code).succsAt i = successors code i := by
  rw [succsAt, ofCode, Array.getD_eq_getD_getElem?, Array.getElem?_map]
  by_cases hi : i < code.size
  · rw [Array.getElem?_range, if_pos hi]
    rfl
  · rw [Array.getElem?_range, if_neg hi, successors, Array.getElem?_eq_none (Nat.not_lt.1 hi)]
    rfl

end FlowGraph

namespace Dataflow

variable {code : Array Instruction} {registers i : Nat} {ins : Instruction} {r : Reg}

/-- The analysis says that a register is live just if the solution has it. -/
theorem isLiveIn_iff_has : (ofCode code registers).isLiveIn r i = true ↔
    Liveness.Has (Liveness.solve (.ofCode code) registers) i r := by
  unfold isLiveIn liveIn Liveness.Has
  rw [Array.getD_eq_getD_getElem?, Array.getD_eq_getD_getElem?]
  change (((Liveness.solve (.ofCode code) registers)[i]?).getD _).contains r = true ↔ _
  cases (Liveness.solve (.ofCode code) registers)[i]? <;> simp

/-- Nothing is live behind the code. -/
theorem isLiveIn_of_size_le (h : code.size ≤ i) : (ofCode code registers).isLiveIn r i = false := by
  have hsize : (ofCode code registers).live.size ≤ i :=
    (Liveness.size_solve (.ofCode code) registers).trans_le h
  rw [isLiveIn, liveIn, Array.getD_eq_getD_getElem?, Array.getElem?_eq_none hsize]
  exact RegSet.contains_withCapacity _ _

/-- **What an instruction reads is live before it.** -/
theorem isLiveIn_of_uses (hi : code[i]? = some ins) (hr : r ∈ ins.uses) :
    (ofCode code registers).isLiveIn r i = true := by
  have hlt : i < (FlowGraph.ofCode code).size := (Array.getElem?_eq_some_iff.1 hi).1
  refine isLiveIn_iff_has.2 (Liveness.closed_solve _ registers i hlt r (.inl ?_))
  rwa [FlowGraph.usesAt_ofCode hi]

/-- **What is live before a successor is live before the instruction**, unless it is written. -/
theorem isLiveIn_of_successors (hi : code[i]? = some ins) {j : Nat}
    (hj : j ∈ successors code i) (hlive : (ofCode code registers).isLiveIn r j = true)
    (hr : r ∉ ins.defs) : (ofCode code registers).isLiveIn r i = true := by
  have hlt : i < (FlowGraph.ofCode code).size := (Array.getElem?_eq_some_iff.1 hi).1
  refine isLiveIn_iff_has.2 (Liveness.closed_solve _ registers i hlt r (.inr ⟨?_, j, ?_, ?_⟩))
  · rwa [FlowGraph.defsAt_ofCode hi]
  · rwa [FlowGraph.succsAt_ofCode]
  · exact isLiveIn_iff_has.1 hlive

end Dataflow

end RegisterVM
