import Mathlib
import RegisterVM.Native.Sequences
import RegisterVM.Proofs.Alike

/-!
# Instruction sequences compute what the interpreter does

Each sequence of machine instructions gives the result of the function that the interpreter applies,
and fails with the same error where that fails. Division by minus one negates, also where the
quotient wraps (`quotient_eq`). An index is in bounds as an unsigned word just if the interpreter
finds a place for it (`map_normalize`), and adding up the contributions of the axes, from the first to
the last, gives the place the interpreter adds up from the last (`foldlM_addAxis`).
-/

namespace RegisterVM
namespace Native

/-! ### Integers -/

/-- What is selected if the condition holds. -/
theorem select_of_pos {cond : Prop} [Decidable cond] (h : cond) (x y : Int64) : select cond x y = x :=
  if_pos (decide_eq_true h)

/-- What is selected if it does not. -/
theorem select_of_neg {cond : Prop} [Decidable cond] (h : ¬cond) (x y : Int64) : select cond x y = y :=
  if_neg fun heq => h (of_decide_eq_true heq)

/-- **The quotient**, which is the negation if the divisor is minus one. -/
theorem quotient_eq (x y : Int64) : quotient x y = Integer.div x y := by
  unfold quotient Integer.div
  by_cases hzero : y = 0
  · rw [dif_pos hzero, if_pos hzero]
  · rw [dif_neg hzero, if_neg hzero]
    change Except.ok (select (y = -1) (-x) (x / select (y = -1) 1 y)) = .ok (x / y)
    by_cases hone : y = -1
    · have hneg : x / -1 = -x := by
        apply Int64.toInt_inj.1
        rw [Int64.toInt_div, Int64.toInt_neg]
        simp
      rw [select_of_pos hone, hone, hneg]
    · rw [select_of_neg hone, select_of_neg hone]

/-- **The remainder**, which is zero for one and for minus one. -/
theorem remainder_eq (x y : Int64) : remainder x y = Integer.rem x y := by
  unfold remainder Integer.rem
  by_cases hzero : y = 0
  · rw [dif_pos hzero, if_pos hzero]
  · rw [dif_neg hzero, if_neg hzero]
    change Except.ok (x % select (y = -1) 1 y) = .ok (x % y)
    by_cases hone : y = -1
    · have hrem : x % 1 = x % -1 := by
        apply Int64.toInt_inj.1
        rw [Int64.toInt_mod, Int64.toInt_mod]
        simp
      rw [select_of_pos hone, hone, hrem]
    · rw [select_of_neg hone]

/-- Arithmetic on integers. -/
theorem intArith_eq (op : ArithOp) (x y : Int64) : intArith op x y = op.int x y := by
  cases op with
  | add => rfl
  | sub => rfl
  | mul => rfl
  | div => exact quotient_eq x y
  | mod => exact remainder_eq x y
  | pow => rfl

/-! ### Complex numbers -/

/-- Arithmetic on complex numbers. -/
theorem complexArith_eq (op : FieldOp) (x y : Words) : complexArith op x y = op.complex x y := by
  cases op <;> rfl

/-- Complex numbers differ if they differ in a lane. -/
theorem compareComplex_eq (rel : Equality) (x y : Words) : compareComplex rel x y = rel.complex x y := by
  cases rel with
  | eq => rfl
  | ne => exact (Bool.not_and _ _).symm

/-! ### Indices -/

/-- **An index in bounds** is the place the interpreter finds for it. -/
theorem map_normalize (index len : Int64) :
    (normalize index len).map (·.toUInt64.toNat) = checkIndex index len := by
  have hselect : select (index < 0) (index + len) index = if index < 0 then index + len else index := by
    by_cases hneg : index < 0
    · rw [select_of_pos hneg, if_pos hneg]
    · rw [select_of_neg hneg, if_neg hneg]
  unfold normalize checkIndex normalizeIndex failIf
  dsimp only
  rw [hselect]
  generalize (if index < 0 then index + len else index) = i
  by_cases hlt : i.toUInt64 < len.toUInt64
  · rw [if_neg (by simpa using hlt), if_pos hlt]
    rfl
  · rw [if_pos (by simpa using hlt), if_neg hlt]
    rfl

/-- An index that fails is refused by the interpreter, and one in bounds has its word for a place. -/
theorem checkIndex_of_normalize {index len : Int64} {result : Except ErrorCode Int64}
    (h : normalize index len = result) : checkIndex index len = result.map (·.toUInt64.toNat) := by
  rw [← map_normalize, h]

/-- The place of an element by one index. -/
theorem flatPlace_eq (index : Int64) : flatPlace index = (Extents.flatIndex · index) := by
  funext e
  unfold flatPlace Extents.flatIndex
  cases h : normalize index e.size with
  | error err => rw [checkIndex_of_normalize h]; rfl
  | ok i => rw [checkIndex_of_normalize h]; rfl

/-- **The place by one index for each axis**, added to what there is already. -/
theorem foldlM_addAxis {axes : List Axis} {is : List Int64} (h : is.length = axes.length) (flat : Int64) :
    (axes.zip is).foldlM addAxis flat =
      (Extents.place axes is).map fun place => flat + place.toInt64 := by
  induction axes generalizing is flat with
  | nil =>
    obtain rfl := List.length_eq_zero_iff.1 h
    exact congrArg Except.ok (Int64.add_zero flat).symm
  | cons x axes ih =>
    obtain ⟨index, is, rfl⟩ := List.exists_cons_of_length_eq_add_one h
    rw [List.zip_cons_cons, List.foldlM_cons, Extents.place]
    unfold addAxis
    cases hindex : normalize index x.length with
    | error e =>
      rw [checkIndex_of_normalize hindex]
      rfl
    | ok i =>
      rw [checkIndex_of_normalize hindex]
      refine (ih (Nat.succ.inj h) (flat + i * x.stride)).trans ?_
      cases Extents.place axes is with
      | error e => rfl
      | ok place =>
        refine congrArg Except.ok ?_
        dsimp only
        rw [UInt64.toInt64_add, UInt64.toInt64_mul, UInt64.ofNat_toNat, Int64.toInt64_toUInt64 i,
          Int64.toInt64_toUInt64 x.stride, Int64.add_assoc]

/-- **The place of an element by several indices**, as many as the count says. -/
theorem multiPlace_eq {count : Int} {is : List Int64} (h : (is.length : Int) = count) :
    multiPlace count is = (Extents.flatMultiIndex · is) := by
  funext e
  unfold multiPlace Extents.flatMultiIndex failIf
  by_cases haxes : is.length = e.axes.length
  · rw [if_neg (by simp; omega), if_pos haxes]
    change ((e.axes.zip is).foldlM addAxis 0 >>= fun flat => pure flat.toUInt64.toNat) = _
    rw [foldlM_addAxis haxes]
    cases Extents.place e.axes is with
    | error err => rfl
    | ok place =>
      refine congrArg Except.ok ?_
      dsimp only
      rw [Int64.zero_add, UInt64.toUInt64_toInt64]
  · rw [if_pos (by simp; omega), if_neg haxes]
    rfl

/-- The byte of a string. -/
theorem charAt_eq (v : Value) (index : Int64) : charAt v index = Heap.charAt v index := by
  unfold charAt Heap.charAt
  refine congrArg (get >>= ·) (funext fun h => ?_)
  cases h.bytes? v with
  | none => rfl
  | some bytes =>
    dsimp only
    cases hindex : normalize index (Int64.ofNat bytes.size) with
    | error e =>
      rw [checkIndex_of_normalize hindex]
      rfl
    | ok i =>
      rw [checkIndex_of_normalize hindex]
      rfl

end Native
end RegisterVM
