import RegisterVM.Proofs.Liveness

/-!
# Register sets are finite sets

A register set is words of bits, and how many words it has depends on how it came about. None of that shows.
As long as no bit stands for a register there is not (`RegSet.Fits`), the words denote a finite set of registers
(`RegSet.Denotes`), and everything that can be asked of them is answered by that set: membership, emptiness,
the members in ascending order (`Denotes.toList_eq`) and whether a union adds a member, whatever the lengths of
the two sets (`Denotes.unionChanged_eq`).

Operations on several sets are then carried out twice, on words and on finite sets. One operation gives the
same answer on both sides and leaves words that denote the finite sets (`SetOperation.perform_denotes`), hence so
does every sequence of them.
-/

namespace RegisterVM

namespace RegSet

/-! ### Members, listed -/

/-- The lowest bit of a shifted word. -/
theorem shift_and_one_ne_zero (w : UInt64) {k : Nat} (hk : k < 64) :
    (w >>> UInt64.ofNat k &&& 1 != 0) = w.toBitVec.getLsbD k := by
  have hval : (w >>> UInt64.ofNat k &&& 1).toNat = (w.toNat.testBit k).toNat := by
    rw [UInt64.toNat_and, UInt64.toNat_shiftRight, UInt64.toNat_ofNat_of_lt' (hk.trans (by decide)),
      Nat.mod_eq_of_lt hk, UInt64.toNat_one, Nat.and_one_is_mod, Nat.testBit_eq_decide_div_mod_eq,
      Nat.shiftRight_eq_div_pow]
    rcases Nat.mod_two_eq_zero_or_one (w.toNat / 2 ^ k) with h | h <;> simp [h]
  rw [BitVec.getLsbD, UInt64.toNat_toBitVec]
  cases hb : w.toNat.testBit k with
  | false =>
    rw [hb] at hval
    simpa [← UInt64.toNat_inj] using hval
  | true =>
    rw [hb] at hval
    simp [← UInt64.toNat_inj, hval]

/-- The registers of word number `w`. -/
def registersOf (word : UInt64) (w : Nat) : List Reg :=
  (List.range 64).filterMap fun k =>
    if (word >>> UInt64.ofNat k) &&& 1 != 0 then some (UInt16.ofNat (64 * w + k)) else none

/-- The members of a set are listed word by word. -/
theorem toList_eq_flatMap (s : RegSet) :
    s.toList = s.words.toList.zipIdx.flatMap fun x => registersOf x.1 x.2 := rfl

/-- A word lists a register for each of its bits that is set. -/
theorem mem_registersOf {word : UInt64} {w : Nat} {q : Reg} :
    q ∈ registersOf word w ↔
      ∃ k < 64, word.toBitVec.getLsbD k = true ∧ UInt16.ofNat (64 * w + k) = q := by
  unfold registersOf
  rw [List.mem_filterMap]
  refine exists_congr fun k => ?_
  rw [List.mem_range]
  refine and_congr_right fun hk => ?_
  rw [shift_and_one_ne_zero word hk]
  cases word.toBitVec.getLsbD k <;> simp

/-- The words of a set are numbered from zero on. -/
theorem mem_zipIdx_words {s : RegSet} {word : UInt64} {w : Nat} :
    (word, w) ∈ s.words.toList.zipIdx ↔ s.words[w]? = some word := by
  rw [List.mem_zipIdx_iff_getElem?, Array.getElem?_toList]

/-- A register of the set is listed. -/
theorem mem_toList_of_contains {s : RegSet} {q : Reg} (h : s.contains q = true) : q ∈ s.toList := by
  rw [contains_eq_getLsbD, Array.getD_eq_getD_getElem?] at h
  cases hw : s.words[wordOf q]? with
  | none =>
    rw [hw] at h
    simp at h
  | some word =>
    rw [hw, Option.getD_some] at h
    have hq : 64 * wordOf q + q.toNat % 64 = q.toNat := Nat.div_add_mod _ _
    refine List.mem_flatMap.2 ⟨(word, wordOf q), mem_zipIdx_words.2 hw, mem_registersOf.2 ?_⟩
    exact ⟨q.toNat % 64, Nat.mod_lt _ (by omega), h, by rw [hq, UInt16.ofNat_toNat]⟩

section Fits

variable {s : RegSet} (h : s.Fits)

include h

/-- A set bit stands for the register with its number: no word past the last register has one. -/
theorem Fits.toNat_ofNat {word : UInt64} {w k : Nat} (hword : s.words[w]? = some word)
    (hbit : word.toBitVec.getLsbD k = true) : (UInt16.ofNat (64 * w + k)).toNat = 64 * w + k := by
  have hk : k < 64 := BitVec.lt_of_getLsbD hbit
  have hw : w < 1024 := by
    by_contra hge
    have hzero := h w (Nat.not_lt.1 hge)
    rw [Array.getD_eq_getD_getElem?, hword, Option.getD_some] at hzero
    rw [hzero] at hbit
    simp at hbit
  have hsize : UInt16.size = 65536 := rfl
  exact UInt16.toNat_ofNat_of_lt' (by omega)

/-- The registers of a word are numbered by its bits, without wrapping around. -/
theorem Fits.exists_bit {word : UInt64} {w : Nat} {q : Reg} (hword : s.words[w]? = some word)
    (hq : q ∈ registersOf word w) : ∃ k < 64, word.toBitVec.getLsbD k = true ∧ q.toNat = 64 * w + k := by
  obtain ⟨k, hk, hbit, rfl⟩ := mem_registersOf.1 hq
  exact ⟨k, hk, hbit, h.toNat_ofNat hword hbit⟩

/-- **The list has just the members of the set.** -/
theorem Fits.mem_toList {q : Reg} : q ∈ s.toList ↔ s.contains q = true := by
  constructor
  · intro hq
    obtain ⟨⟨word, w⟩, hmem, hq⟩ := List.mem_flatMap.1 hq
    have hword := mem_zipIdx_words.1 hmem
    obtain ⟨k, hk, hbit, hnat⟩ := h.exists_bit hword hq
    have hw : wordOf q = w := by
      unfold wordOf
      omega
    have hk' : q.toNat % 64 = k := by omega
    rw [contains_eq_getLsbD, hw, hk', Array.getD_eq_getD_getElem?, hword]
    exact hbit
  · exact mem_toList_of_contains

/-- The registers of a word are listed in ascending order. -/
theorem Fits.pairwise_registersOf {word : UInt64} {w : Nat} (hword : s.words[w]? = some word) :
    (registersOf word w).Pairwise (· < ·) := by
  have hnat {k : Nat} (hk : k < 64) {q : Reg} (hq : (if (word >>> UInt64.ofNat k) &&& 1 != 0 then
      some (UInt16.ofNat (64 * w + k)) else none) = some q) : q.toNat = 64 * w + k := by
    rw [shift_and_one_ne_zero word hk] at hq
    split at hq
    · rename_i hbit
      rw [← Option.some.inj hq]
      exact h.toNat_ofNat hword hbit
    · cases hq
  unfold registersOf
  rw [List.pairwise_filterMap]
  refine List.pairwise_lt_range.imp_of_mem fun {k l} hk hl hlt q hq q' hq' => ?_
  rw [UInt16.lt_iff_toNat_lt, hnat (List.mem_range.1 hk) hq, hnat (List.mem_range.1 hl) hq']
  omega

/-- **The members are listed once each, in ascending order.** -/
theorem Fits.pairwise_toList : s.toList.Pairwise (· < ·) := by
  have hwords : s.words.toList.zipIdx.Pairwise fun x y => x.2 < y.2 := by
    rw [← List.pairwise_map, List.zipIdx_map_snd]
    exact List.pairwise_lt_range'
  rw [toList_eq_flatMap, List.pairwise_flatMap]
  constructor
  · rintro ⟨word, w⟩ hmem
    exact h.pairwise_registersOf (mem_zipIdx_words.1 hmem)
  · refine hwords.imp_of_mem ?_
    rintro ⟨word, w⟩ ⟨word', w'⟩ hmem hmem' hlt q hq q' hq'
    obtain ⟨k, hk, -, hnat⟩ := h.exists_bit (mem_zipIdx_words.1 hmem) hq
    obtain ⟨k', hk', -, hnat'⟩ := h.exists_bit (mem_zipIdx_words.1 hmem') hq'
    rw [UInt16.lt_iff_toNat_lt, hnat, hnat']
    dsimp only at hlt
    omega

/-- A set is empty if it has no register. -/
theorem Fits.isEmpty_iff : s.isEmpty = true ↔ ∀ r, s.contains r = false := by
  rw [isEmpty, Array.all_eq_true_iff_forall_mem]
  constructor
  · intro hzero r
    have hword : s.words.getD (wordOf r) 0 = 0 := by
      rw [Array.getD_eq_getD_getElem?]
      cases hw : s.words[wordOf r]? with
      | none => rfl
      | some word => exact beq_iff_eq.1 (hzero word (Array.mem_of_getElem? hw))
    rw [contains, hword]
    simp
  · intro hnone word hmem
    obtain ⟨w, hw⟩ := Array.mem_iff_getElem?.1 hmem
    -- a bit of the word would be a member
    have hbits : ∀ k, word.toBitVec.getLsbD k = false := by
      intro k
      by_contra hbit
      rw [Bool.not_eq_false] at hbit
      have hmem : UInt16.ofNat (64 * w + k) ∈ s.toList := List.mem_flatMap.2
        ⟨(word, w), mem_zipIdx_words.2 hw, mem_registersOf.2 ⟨k, BitVec.lt_of_getLsbD hbit, hbit, rfl⟩⟩
      rw [h.mem_toList, hnone] at hmem
      cases hmem
    rw [beq_iff_eq, ← UInt64.toBitVec_inj]
    refine BitVec.eq_of_getLsbD_eq fun k _ => ?_
    rw [hbits k]
    simp

end Fits

/-! ### The finite set denoted -/

/-- The bits of a register set are the members of a finite set, and there are no others. -/
structure Denotes (s : RegSet) (S : Finset Reg) : Prop where
  fits : s.Fits
  contains_iff (r : Reg) : s.contains r = true ↔ r ∈ S

/-- A new set has no members. -/
theorem denotes_withCapacity (n : Nat) : (withCapacity n).Denotes ∅ where
  fits := fits_withCapacity n
  contains_iff r := by simp

namespace Denotes

variable {s t : RegSet} {S T : Finset Reg}

/-- Inserting adds a member. -/
theorem insert (h : s.Denotes S) (r : Reg) : (s.insert r).Denotes (Insert.insert r S) where
  fits := h.fits.insert r
  contains_iff q := by rw [contains_insert, h.contains_iff, Finset.mem_insert]

/-- Erasing takes a member away. -/
theorem erase (h : s.Denotes S) (r : Reg) : (s.erase r).Denotes (S.erase r) where
  fits := h.fits.erase r
  contains_iff q := by rw [contains_erase, h.contains_iff, Finset.mem_erase]

/-- The union has the members of both sets. -/
theorem union (h : s.Denotes S) (h' : t.Denotes T) : (s.union t).Denotes (S ∪ T) where
  fits := h.fits.union h'.fits
  contains_iff q := by rw [contains_union, h.contains_iff, h'.contains_iff, Finset.mem_union]

/-- The test for a register decides membership. -/
theorem contains_eq (h : s.Denotes S) (r : Reg) : s.contains r = decide (r ∈ S) := by
  rw [Bool.eq_iff_iff, h.contains_iff, decide_eq_true_eq]

/-- The test for emptiness decides whether there are members. -/
theorem isEmpty_eq (h : s.Denotes S) : s.isEmpty = decide (S = ∅) := by
  rw [Bool.eq_iff_iff, h.fits.isEmpty_iff, decide_eq_true_eq, Finset.eq_empty_iff_forall_notMem]
  refine forall_congr' fun r => ?_
  rw [← h.contains_iff, Bool.not_eq_true]

/-- **The members listed are those of the finite set, in ascending order.** -/
theorem toList_eq (h : s.Denotes S) : s.toList = S.sort (· ≤ ·) := by
  have hlt : s.toList.Pairwise (· < ·) := h.fits.pairwise_toList
  have hset : s.toList.toFinset = S := by
    ext r
    rw [List.mem_toFinset, h.fits.mem_toList, h.contains_iff]
  rw [← hset, (List.toFinset_sort (· ≤ ·) hlt.nodup).2 (hlt.imp fun hlt => UInt16.le_of_lt hlt)]

/-- **A union reports a change exactly if the set grows**, whichever of the two has more words. -/
theorem unionChanged_eq (h : s.Denotes S) (h' : t.Denotes T) :
    (s.unionChanged t).2 = decide (S ⊂ S ∪ T) := by
  have hgrows : S ⊂ S ∪ T ↔ ∃ r ∈ T, r ∉ S := by
    rw [Finset.ssubset_iff_of_subset Finset.subset_union_left]
    refine exists_congr fun r => ?_
    rw [Finset.mem_union]
    tauto
  rw [Bool.eq_iff_iff, decide_eq_true_eq, hgrows]
  constructor
  · intro hchanged
    obtain ⟨r, ht, hs⟩ := exists_of_unionChanged h'.fits hchanged
    refine ⟨r, (h'.contains_iff r).1 ht, ?_⟩
    rw [← h.contains_iff, hs]
    simp
  · rintro ⟨r, hT, hS⟩
    by_contra hchanged
    rw [Bool.not_eq_true] at hchanged
    have hs := subset_of_unionChanged hchanged ((h'.contains_iff r).2 hT)
    exact hS ((h.contains_iff r).1 hs)

end Denotes

end RegSet

/-! ### Sequences of operations -/

/-- What can be done with sets of registers, in whatever form they are kept. -/
structure SetInterface (σ : Type) where
  withCapacity : Nat → σ
  insert : σ → Reg → σ
  erase : σ → Reg → σ
  unionChanged : σ → σ → σ × Bool
  contains : σ → Reg → Bool
  isEmpty : σ → Bool
  toList : σ → List Reg

/-- Sets kept as words of bits. -/
def SetInterface.bits : SetInterface RegSet where
  withCapacity := RegSet.withCapacity
  insert := RegSet.insert
  erase := RegSet.erase
  unionChanged := RegSet.unionChanged
  contains := RegSet.contains
  isEmpty := RegSet.isEmpty
  toList := RegSet.toList

/-- Finite sets. They have no capacity, and their members are sorted to be listed. -/
def SetInterface.finite : SetInterface (Finset Reg) where
  withCapacity _ := ∅
  insert S r := Insert.insert r S
  erase S r := S.erase r
  unionChanged S T := (S ∪ T, decide (S ⊂ S ∪ T))
  contains S r := decide (r ∈ S)
  isEmpty S := decide (S = ∅)
  toList S := S.sort (· ≤ ·)

/-- An operation on sets named by numbers. -/
inductive SetOperation where
  /-- set `k` becomes an empty one with room for registers below `n` -/
  | create (k n : Nat)
  | insert (k : Nat) (r : Reg)
  | erase (k : Nat) (r : Reg)
  /-- set `k` takes in the members of set `l`, which may be the same one -/
  | union (k l : Nat)
  | contains (k : Nat) (r : Reg)
  | isEmpty (k : Nat)
  | toList (k : Nat)
deriving DecidableEq, Repr

/-- What an operation answers. -/
inductive SetAnswer where
  | done
  | flag (b : Bool)
  | members (rs : List Reg)
deriving DecidableEq, Repr

namespace SetOperation

variable {σ : Type}

/-- Carries out an operation. -/
def perform (I : SetInterface σ) (sets : Nat → σ) : SetOperation → SetAnswer × (Nat → σ)
  | create k n => (.done, Function.update sets k (I.withCapacity n))
  | insert k r => (.done, Function.update sets k (I.insert (sets k) r))
  | erase k r => (.done, Function.update sets k (I.erase (sets k) r))
  | union k l =>
    let (set, changed) := I.unionChanged (sets k) (sets l)
    (.flag changed, Function.update sets k set)
  | contains k r => (.flag (I.contains (sets k) r), sets)
  | isEmpty k => (.flag (I.isEmpty (sets k)), sets)
  | toList k => (.members (I.toList (sets k)), sets)

/-- Carries out operations one after the other, with the answers in order and the sets left in the end. -/
def run (I : SetInterface σ) : (Nat → σ) → List SetOperation → List SetAnswer × (Nat → σ)
  | sets, [] => ([], sets)
  | sets, op :: ops =>
    let (answer, next) := op.perform I sets
    let (answers, last) := run I next ops
    (answer :: answers, last)

variable {sets : Nat → RegSet} {ideal : Nat → Finset Reg}

/-- Sets that are replaced by others denote what they are replaced by. -/
theorem denotes_update (h : ∀ k, (sets k).Denotes (ideal k)) {k : Nat} {s : RegSet} {S : Finset Reg}
    (hs : s.Denotes S) (l : Nat) : (Function.update sets k s l).Denotes (Function.update ideal k S l) := by
  by_cases hl : l = k
  · subst hl
    rw [Function.update_self, Function.update_self]
    exact hs
  · rw [Function.update_of_ne hl, Function.update_of_ne hl]
    exact h l

/-- **One operation answers the same on words and on finite sets**, and the words go on denoting the sets. -/
theorem perform_denotes (h : ∀ k, (sets k).Denotes (ideal k)) (op : SetOperation) :
    (op.perform .bits sets).1 = (op.perform .finite ideal).1 ∧
      ∀ k, ((op.perform .bits sets).2 k).Denotes ((op.perform .finite ideal).2 k) := by
  cases op with
  | create k n => exact ⟨rfl, denotes_update h (RegSet.denotes_withCapacity n)⟩
  | insert k r => exact ⟨rfl, denotes_update h ((h k).insert r)⟩
  | erase k r => exact ⟨rfl, denotes_update h ((h k).erase r)⟩
  | union k l =>
    exact ⟨congrArg SetAnswer.flag ((h k).unionChanged_eq (h l)), denotes_update h ((h k).union (h l))⟩
  | contains k r => exact ⟨congrArg SetAnswer.flag ((h k).contains_eq r), h⟩
  | isEmpty k => exact ⟨congrArg SetAnswer.flag (h k).isEmpty_eq, h⟩
  | toList k => exact ⟨congrArg SetAnswer.members (h k).toList_eq, h⟩

/-- **A run of operations on sets of bits** gives the answers of the same run on finite sets, and the sets stay in
step. -/
theorem run_denotes (h : ∀ k, (sets k).Denotes (ideal k)) (ops : List SetOperation) :
    (run .bits sets ops).1 = (run .finite ideal ops).1 ∧
      ∀ k, ((run .bits sets ops).2 k).Denotes ((run .finite ideal ops).2 k) := by
  induction ops generalizing sets ideal with
  | nil => exact ⟨rfl, h⟩
  | cons op ops ih =>
    obtain ⟨hanswer, hnext⟩ := perform_denotes h op
    obtain ⟨hanswers, hlast⟩ := ih hnext
    exact ⟨congrArg₂ List.cons hanswer hanswers, hlast⟩

/-- **Register sets behave as finite sets of registers.** Whatever capacities they start with and whatever is
done with them, all answers are those finite sets give, and in the end each of them has the members, is empty
and is listed as the finite set is. Finite sets report a union as a change exactly if the set strictly grows. -/
theorem run_bits_refines_finite (capacity : Nat → Nat) (ops : List SetOperation) :
    let words := run .bits (fun k => .withCapacity (capacity k)) ops
    let sets := run .finite (fun _ => ∅) ops
    words.1 = sets.1 ∧
      ∀ k, (∀ r, (words.2 k).contains r = decide (r ∈ sets.2 k)) ∧
        (words.2 k).isEmpty = decide (sets.2 k = ∅) ∧
        (words.2 k).toList.Pairwise (· < ·) ∧ (∀ r, r ∈ (words.2 k).toList ↔ r ∈ sets.2 k) := by
  intro words sets
  obtain ⟨hanswers, hlast⟩ := run_denotes (fun k => RegSet.denotes_withCapacity (capacity k)) ops
  refine ⟨hanswers, fun k => ?_⟩
  have hk : (words.2 k).Denotes (sets.2 k) := hlast k
  refine ⟨hk.contains_eq, hk.isEmpty_eq, hk.fits.pairwise_toList, fun r => ?_⟩
  rw [hk.fits.mem_toList, hk.contains_iff]

/-- Two sets of one and of two words: joining the longer to the shorter makes the shorter longer, with a change
only the first time, and what is taken out is no longer listed. -/
example :
    (run .bits (fun k => .withCapacity (64 * (k + 1)))
      [.insert 1 63, .insert 1 64, .union 0 1, .union 0 1, .erase 0 63, .erase 0 5000, .toList 0, .isEmpty 0]).1 =
      [.done, .done, .flag true, .flag false, .done, .done, .members [64], .flag false] := by
  decide +kernel

end SetOperation

end RegisterVM
