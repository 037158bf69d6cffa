import RegisterVM.Proofs.DeadRegisters

/-!
# Runs that keep to the declared types

Nothing stops a routine from reading a register under a type it does not have. A run keeps to the
types when, at every instruction it executes,

* every register declared as a scalar holds a scalar of that type, a truth value being zero or one
  (`State.Typed`);
* a register declared as an array that is used as one holds nothing or an array of that element kind
  (`State.ArrayAt`);
* what is read as a complex number is no scalar of one word (`Instruction.ReadsWide`);
* a slot outside the register file that is read as a truth value holds zero or one, and one that is
  stored into under a scalar type holds no reference (`Instruction.SlotsFit`).
-/

namespace RegisterVM

/-- The word of a truth value. -/
def Words.IsTruth (w : Words) : Prop := w.lo = 0 ∨ w.lo = 1

/-- What a register of a declared type may hold. Types other than scalars ask for nothing. -/
def ValueType.Fits (t : ValueType) (v : Value) : Prop :=
  ∀ tag, t.scalarTag? = some tag → ∃ w, v = .scalar tag w ∧ (tag = .bool → w.IsTruth)

instance (w : Words) : Decidable w.IsTruth := inferInstanceAs (Decidable (_ ∨ _))

/-- A value fits a type if it has its scalar tag, and a truth value is one. -/
theorem ValueType.fits_iff (t : ValueType) (v : Value) :
    t.Fits v ↔ ∀ tag ∈ t.scalarTag?, v = .scalar tag v.words ∧ (tag = .bool → v.words.IsTruth) := by
  refine forall₂_congr fun tag _ => ⟨?_, fun h => ⟨_, h⟩⟩
  rintro ⟨w, rfl, htruth⟩
  exact ⟨rfl, htruth⟩

instance (t : ValueType) (v : Value) : Decidable (t.Fits v) := decidable_of_iff' _ (t.fits_iff v)

namespace State

/-- There is one register for every declared type, and it holds what the type says. -/
structure Typed (r : Routine) (s : State) : Prop where
  size : s.frame.registers.size = r.types.size
  fits : ∀ (q : Nat) (t : ValueType) (v : Value), r.types[q]? = some t →
    s.frame.registers[q]? = some v → t.Fits v

/-- A state is typed if its registers fit the declared types one by one. -/
theorem typed_iff (r : Routine) (s : State) : s.Typed r ↔ s.frame.registers.size = r.types.size ∧
    ∀ x ∈ r.types.toList.zip s.frame.registers.toList, x.1.Fits x.2 := by
  refine ⟨fun ⟨size, fits⟩ => ⟨size, fun ⟨t, v⟩ hmem => ?_⟩, fun ⟨size, fits⟩ => ⟨size, fun q t v ht hv => ?_⟩⟩
  · obtain ⟨q, hq⟩ := List.mem_iff_getElem?.1 hmem
    obtain ⟨ht, hv⟩ := List.getElem?_zip_eq_some.1 hq
    exact fits q t v (by simpa using ht) (by simpa using hv)
  · refine fits (t, v) (List.mem_of_getElem? (i := q) (List.getElem?_zip_eq_some.2 ⟨?_, ?_⟩))
    · simpa using ht
    · simpa using hv

instance (r : Routine) (s : State) : Decidable (s.Typed r) := decidable_of_iff' _ (typed_iff r s)

/-- A register declared as an array holds nothing or an array of the declared kind. -/
def ArrayAt (r : Routine) (s : State) (q : Nat) : Prop :=
  ∀ kind v, r.types[q]? = some (.array kind) → s.frame.registers[q]? = some v →
    v = .none ∨ ∃ id, v = .object .array id ∧ ∀ a, s.heap.get? id = some (.array a) → a.kind = kind

/-- What is at a place reads as a truth value. -/
def TruthAt (s : State) (p : Place) : Prop :=
  ∀ v t, Exec.read p s = .ok v t → v.words.IsTruth

/-- There is no reference at a place. -/
def PlainAt (s : State) (p : Place) : Prop :=
  ∀ v t, Exec.read p s = .ok v t → v.ref? = none

end State

/-- What typed accesses find outside the register file. -/
def Instruction.SlotsFit (ins : Instruction) (s : State) : Prop :=
  match ins.opcode with
  | .tupleGet .bool => s.TruthAt (.item .tuple (placeOf ins.a) (placeOf ins.b))
  | .getField .bool => s.TruthAt (.item .object (placeOf ins.a) (placeOf ins.b))
  | .getVar storage .bool => s.TruthAt (ins.sourceVariable storage)
  | .tupleSet _ => s.PlainAt (.item .tuple (placeOf ins.c) (placeOf ins.b))
  | .setField _ => s.PlainAt (.item .object (placeOf ins.c) (placeOf ins.b))
  | .setVar storage _ => s.PlainAt (ins.targetVariable storage)
  | _ => True

/-- The registers an instruction uses as arrays. -/
def Instruction.arrayOperands (ins : Instruction) : List Nat :=
  match ins.opcode with
  | .arrayGet _ | .arrayGetMulti _ => [placeOf ins.a]
  | .arraySet _ | .arraySetMulti _ => [placeOf ins.c]
  | .arith _ => [placeOf ins.a, placeOf ins.b]
  | _ => []

/-- An instruction finds what its types promise. -/
structure Instruction.Conforms (r : Routine) (ins : Instruction) (s : State) : Prop where
  typed : s.Typed r
  arrays : ∀ q ∈ ins.arrayOperands, s.ArrayAt r q
  wide : ins.ReadsWide s
  slots : ins.SlotsFit s

namespace Routine

/-- The instructions an interpreted run comes to, with the states before them. -/
inductive Reaches (r : Routine) (start : State) : Nat → State → Prop
  | start : Reaches r start 0 start
  | step {i j : Nat} {ins : Instruction} {s t : State} (before : Reaches r start i s)
      (here : r.code[i]? = some ins)
      (next : Image.interpret r i ins s = .next ⟨.interpreting j, t⟩) : Reaches r start j t

/-- **The interpreted run keeps to the declared types.** -/
def Conformant (r : Routine) (start : State) : Prop :=
  ∀ i s ins, r.Reaches start i s → r.code[i]? = some ins → ins.Conforms r s

end Routine

namespace State.Typed

variable {r : Routine} {s : State} {q : Nat} {t : ValueType}

/-- A scalar register of a typed state holds a scalar. -/
theorem exists_scalar (h : s.Typed r) (ht : r.types[q]? = some t) {tag : ScalarTag}
    (htag : t.scalarTag? = some tag) :
    ∃ w, s.frame.registers[q]? = some (.scalar tag w) ∧ (tag = .bool → w.IsTruth) := by
  have hlt : q < s.frame.registers.size := h.size ▸ (Array.getElem?_eq_some_iff.1 ht).1
  have hv := Array.getElem?_eq_getElem hlt
  obtain ⟨w, hw, htruth⟩ := h.fits q t _ ht hv tag htag
  exact ⟨w, by rw [hv, hw], htruth⟩

end State.Typed

end RegisterVM
