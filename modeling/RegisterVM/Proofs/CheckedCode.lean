import Mathlib
import RegisterVM.Dataflow.Roles
import RegisterVM.Routine

/-!
# What checked code guarantees

The checker walks the code once and stops at the first fault. Code that passes has, at every index,

* operands in bounds, as the layout of the opcode asks (`Routine.inBounds`);
* after a switch exactly the case entries it announces, all inside the code
  (`Routine.caseEntry_of_switch`, `Routine.lt_size_of_switch`);
* before a case entry a switch that announces it (`Routine.exists_switch_of_caseEntry`).

Operands are 32-bit words. Read as a place or as a register number an operand in bounds is the number
it looks like (`placeOf_of_nonneg`, `Reg.toNat_ofOperand`), provided registers have numbers below
`2 ^ 16`.
-/

namespace RegisterVM

/-! ### Operands as numbers -/

/-- A word that is not negative as a signed number has the same value unsigned. -/
theorem toNat_toInt_of_nonneg {w : Nat} {x : BitVec w} (h : 0 ≤ x.toInt) :
    x.toInt.toNat = x.toNat := by
  have hlt := x.isLt
  rw [BitVec.toInt_eq_toNat_cond] at h ⊢
  split at h <;> omega

/-- An operand that is not negative is the number of a place. -/
theorem placeOf_of_nonneg {x : Int32} (h : 0 ≤ x.toInt) : placeOf x = x.toInt.toNat := by
  have hx : x.toInt64.toInt = x.toInt := Int32.toInt_toInt64 x
  rw [← hx]
  exact (toNat_toInt_of_nonneg (x := x.toInt64.toBitVec) (by rw [← hx] at h; exact h)).symm

/-- A count that is not negative is read as such. -/
theorem countOf_eq_placeOf {x : Int32} (h : 0 ≤ x.toInt) : countOf x = placeOf x :=
  (placeOf_of_nonneg h).symm

/-- **A register operand survives the cut to sixteen bits.** -/
theorem Reg.toNat_ofOperand {x : Int32} (h : 0 ≤ x.toInt) (hlt : x.toInt < UInt16.size) :
    (Reg.ofOperand x).toNat = placeOf x := by
  have hcut : (Reg.ofOperand x).toNat = x.toUInt32.toNat % UInt16.size := UInt32.toNat_toUInt16 _
  have hword : x.toUInt32.toNat = x.toInt.toNat :=
    (toNat_toInt_of_nonneg (x := x.toBitVec) h).symm
  rw [placeOf_of_nonneg h, hcut, hword]
  exact Nat.mod_eq_of_lt (by omega)

/-! ### One instruction -/

namespace Bounds

def IsRegister (n : Bounds) (r : Int) : Prop := 0 ≤ r ∧ r < n.registers

def IsTarget (n : Bounds) (t : Int) : Prop := 0 ≤ t ∧ t ≤ n.instructions

def IsConstant (n : Bounds) (k : Int) : Prop := 0 ≤ k ∧ k < n.constants

/-- The check for a register passes just if there is one. -/
theorem register_eq_ok {n : Bounds} {i : Nat} {r : Int} :
    n.register i r = .ok () ↔ n.IsRegister r := by
  unfold register IsRegister
  split <;> simp_all

/-- The check for a branch target passes just if it is in the code. -/
theorem target_eq_ok {n : Bounds} {i : Nat} {t : Int} : n.target i t = .ok () ↔ n.IsTarget t := by
  unfold target IsTarget
  split <;> simp_all

/-- The check for a constant passes just if there is one. -/
theorem constant_eq_ok {n : Bounds} {i : Nat} {k : Int} :
    n.constant i k = .ok () ↔ n.IsConstant k := by
  unfold constant IsConstant
  split <;> simp_all

end Bounds

/-- The operands of the instruction at `i` are in bounds, as its layout asks. -/
def Instruction.InBounds (n : Bounds) (i : Nat) (ins : Instruction) : Prop :=
  let a := ins.a.toInt
  let b := ins.b.toInt
  let c := ins.c.toInt
  match ins.opcode.layout with
  | .empty => ins.opcode ≠ .callSegment ∧ (ins.opcode = .goto → n.IsTarget b)
  | .loadC => n.IsRegister c ∧ (ins.opcode.loadsConstant → n.IsConstant b)
  | .unaryAC | .staticGet | .staticSet => n.IsRegister a ∧ n.IsRegister c
  | .unaryBC => n.IsRegister b ∧ n.IsRegister c
  | .binaryABC | .indexSet | .indexUpdate => n.IsRegister a ∧ n.IsRegister b ∧ n.IsRegister c
  | .multiGet => n.IsRegister a ∧ n.IsRegister (a + b) ∧ n.IsRegister c
  | .multiSet => n.IsRegister a ∧ n.IsRegister c ∧ n.IsRegister (c + b)
  | .readA | .storeA => n.IsRegister a
  | .testA => n.IsRegister a ∧ n.IsTarget b
  | .switch => n.IsRegister a ∧ n.IsTarget b ∧ 0 ≤ c ∧ i + c < n.instructions
  | .caseEntry => n.IsConstant a ∧ n.IsTarget b
  | .ret => b ≠ 0 → n.IsRegister a

/-- A sequence of checks passes when each of them does. -/
theorem bind_eq_ok_unit {ε : Type} {m k : Except ε Unit} :
    (m >>= fun _ => k) = .ok () ↔ m = .ok () ∧ k = .ok () := by
  cases m <;> simp [bind, Except.bind]

/-- A check that is only made on a condition. -/
theorem ite_eq_ok_unit {ε : Type} {p : Prop} [Decidable p] {k : Except ε Unit} :
    (if p then k else pure ()) = .ok () ↔ (p → k = .ok ()) := by
  split <;> simp_all [pure, Except.pure]

/-- **Checked operands are in bounds.** -/
theorem Instruction.inBounds_of_check {n : Bounds} {i : Nat} {ins : Instruction}
    (h : ins.check n i = .ok ()) : ins.InBounds n i := by
  unfold check at h
  unfold InBounds
  cases hl : ins.opcode.layout <;>
    simp only [hl, bind_eq_ok_unit, ite_eq_ok_unit, Bounds.register_eq_ok, Bounds.target_eq_ok,
      Bounds.constant_eq_ok, throw, throwThe, MonadExceptOf.throw, reduceCtorEq, imp_false] at h ⊢
  case empty =>
    by_cases hc : ins.opcode = .callSegment
    · simp [hc, bind, Except.bind] at h
    · rw [if_neg hc, ite_eq_ok_unit, Bounds.target_eq_ok] at h
      exact ⟨hc, h⟩
  case switch => exact ⟨h.1, h.2.1, by omega, by omega⟩
  all_goals exact h

/-! ### The walk over the code -/

/-- One instruction of the walk: its own check, and what is owed behind it. -/
theorem checkFrom_cons {n : Bounds} {i cases : Nat} {ins : Instruction} {rest : List Instruction}
    (h : checkFrom n i cases (ins :: rest) = .ok ()) :
    ins.check n i = .ok () ∧ ∃ owed, checkFrom n (i + 1) owed rest = .ok () ∧
      ((ins.opcode = .caseEntry ∧ cases = owed + 1) ∨
        (ins.opcode ≠ .caseEntry ∧ cases = 0 ∧
          owed = if ins.opcode = .switch then ins.caseCount else 0)) := by
  rw [checkFrom] at h
  by_cases hc : ins.opcode = .caseEntry
  · rw [if_pos hc] at h
    by_cases h0 : cases = 0
    · rw [if_pos h0] at h
      cases h
    · rw [if_neg h0] at h
      split at h
      · cases h
      · rename_i hi
        exact ⟨hi, cases - 1, h, .inl ⟨hc, by omega⟩⟩
  · rw [if_neg hc] at h
    by_cases h0 : cases = 0
    · rw [if_neg (by omega)] at h
      split at h
      · cases h
      · rename_i hi
        exact ⟨hi, _, h, .inr ⟨hc, h0, rfl⟩⟩
    · rw [if_pos h0] at h
      cases h

/-- In code that passes, each instruction does. -/
theorem check_of_checkFrom {n : Bounds} {code : List Instruction} {i cases k : Nat}
    {ins : Instruction} (h : checkFrom n i cases code = .ok ()) (hk : code[k]? = some ins) :
    ins.check n (i + k) = .ok () := by
  induction code generalizing i cases k with
  | nil => simp at hk
  | cons first rest ih =>
    obtain ⟨hfirst, owed, hrest, -⟩ := checkFrom_cons h
    cases k with
    | zero =>
      obtain rfl : first = ins := by simpa using hk
      exact hfirst
    | succ k =>
      rw [show i + (k + 1) = i + 1 + k by omega]
      exact ih hrest (by simpa using hk)

/-- Entries that are owed are there. -/
theorem caseEntry_of_owed {n : Bounds} {code : List Instruction} {i cases k : Nat}
    {ins : Instruction} (h : checkFrom n i cases code = .ok ()) (hk : code[k]? = some ins)
    (hlt : k < cases) : ins.opcode = .caseEntry := by
  induction code generalizing i cases k with
  | nil => simp at hk
  | cons first rest ih =>
    obtain ⟨-, owed, hrest, ⟨hc, howed⟩ | ⟨-, h0, -⟩⟩ := checkFrom_cons h
    · cases k with
      | zero =>
        obtain rfl : first = ins := by simpa using hk
        exact hc
      | succ k => exact ih hrest (by simpa using hk) (by omega)
    · omega

/-- What follows a switch in the walk are its entries. -/
theorem caseEntry_after_switch {n : Bounds} {code : List Instruction} {i cases k j : Nat}
    {sw ins : Instruction} (h : checkFrom n i cases code = .ok ()) (hk : code[k]? = some sw)
    (hsw : sw.opcode = .switch) (hkj : k < j) (hj : j ≤ k + sw.caseCount)
    (hins : code[j]? = some ins) : ins.opcode = .caseEntry := by
  induction code generalizing i cases k j with
  | nil => simp at hk
  | cons first rest ih =>
    obtain ⟨-, owed, hrest, hfirst⟩ := checkFrom_cons h
    obtain ⟨j, rfl⟩ : ∃ m, j = m + 1 := ⟨j - 1, by omega⟩
    cases k with
    | zero =>
      obtain rfl : first = sw := by simpa using hk
      obtain ⟨hc, -⟩ | ⟨-, -, howed⟩ := hfirst
      · rw [hsw] at hc
        cases hc
      · rw [if_pos hsw] at howed
        exact caseEntry_of_owed hrest (by simpa using hins) (by omega)
    | succ k =>
      exact ih hrest (k := k) (j := j) (by simpa using hk) (by omega) (by omega)
        (by simpa using hins)

/-- An entry in the walk was owed from the start, or some switch before it announces it. -/
theorem exists_switch_before {n : Bounds} {code : List Instruction} {i cases j : Nat}
    {ins : Instruction} (h : checkFrom n i cases code = .ok ()) (hj : code[j]? = some ins)
    (hc : ins.opcode = .caseEntry) :
    j < cases ∨ ∃ k sw, k < j ∧ code[k]? = some sw ∧ sw.opcode = .switch ∧
      j ≤ k + sw.caseCount := by
  induction code generalizing i cases j with
  | nil => simp at hj
  | cons first rest ih =>
    obtain ⟨-, owed, hrest, hfirst⟩ := checkFrom_cons h
    cases j with
    | zero =>
      obtain rfl : first = ins := by simpa using hj
      obtain ⟨-, howed⟩ | ⟨hne, -⟩ := hfirst
      · exact .inl (by omega)
      · exact absurd hc hne
    | succ j =>
      obtain hlt | ⟨k, sw, hkj, hk, hsw, hle⟩ := ih hrest (by simpa using hj)
      · obtain ⟨-, howed⟩ | ⟨-, -, howed⟩ := hfirst
        · exact .inl (by omega)
        · by_cases hsw : first.opcode = .switch
          · rw [if_pos hsw] at howed
            exact .inr ⟨0, first, by omega, by simp, hsw, by omega⟩
          · rw [if_neg hsw] at howed
            omega
      · exact .inr ⟨k + 1, sw, by omega, by simpa using hk, hsw, by omega⟩

/-! ### Routines -/

namespace Routine

/-- The bounds a routine was checked against. -/
def bounds (r : Routine) : Bounds := ⟨r.code.size, r.types.size, r.constants.size⟩

/-- The code of a routine passes. -/
theorem checkFrom_toList (r : Routine) : checkFrom r.bounds 0 0 r.code.toList = .ok () := r.checked

/-- **Every instruction of a routine has its operands in bounds.** -/
theorem inBounds (r : Routine) {i : Nat} {ins : Instruction} (h : r.code[i]? = some ins) :
    ins.InBounds r.bounds i := by
  have hi := check_of_checkFrom r.checkFrom_toList (show r.code.toList[i]? = some ins by simpa using h)
  exact Instruction.inBounds_of_check (by simpa using hi)

/-- There is no marker in the code of a routine. -/
theorem opcode_ne_callSegment (r : Routine) {i : Nat} {ins : Instruction}
    (h : r.code[i]? = some ins) : ins.opcode ≠ .callSegment := by
  intro hc
  have hb := r.inBounds h
  simp only [Instruction.InBounds, hc, Opcode.layout] at hb
  exact hb.1 rfl

/-- The case table of a switch lies inside the code. -/
theorem inBounds_of_switch (r : Routine) {i : Nat} {ins : Instruction} (h : r.code[i]? = some ins)
    (hs : ins.opcode = .switch) : r.bounds.IsRegister ins.a.toInt ∧ r.bounds.IsTarget ins.b.toInt ∧
      0 ≤ ins.c.toInt ∧ i + ins.c.toInt < r.code.size := by
  have hb := r.inBounds h
  simp only [Instruction.InBounds, hs, Opcode.layout] at hb
  exact hb

/-- The case entries of a switch lie inside the code. -/
theorem lt_size_of_switch (r : Routine) {i : Nat} {ins : Instruction} (h : r.code[i]? = some ins)
    (hs : ins.opcode = .switch) : i + ins.caseCount < r.code.size := by
  obtain ⟨-, -, hc, hlt⟩ := r.inBounds_of_switch h hs
  unfold Instruction.caseCount countOf
  omega

/-- **The instructions a switch announces are case entries.** -/
theorem caseEntry_of_switch (r : Routine) {i j : Nat} {sw ins : Instruction}
    (h : r.code[i]? = some sw) (hs : sw.opcode = .switch) (hij : i < j)
    (hj : j ≤ i + sw.caseCount) (hins : r.code[j]? = some ins) : ins.opcode = .caseEntry :=
  caseEntry_after_switch r.checkFrom_toList (k := i) (j := j) (by simpa using h) hs hij hj
    (by simpa using hins)

/-- **Every case entry is announced by a switch before it.** -/
theorem exists_switch_of_caseEntry (r : Routine) {j : Nat} {ins : Instruction}
    (h : r.code[j]? = some ins) (hc : ins.opcode = .caseEntry) :
    ∃ i sw, i < j ∧ r.code[i]? = some sw ∧ sw.opcode = .switch ∧ j ≤ i + sw.caseCount := by
  obtain hlt | ⟨i, sw, hij, hi, hsw, hle⟩ :=
    exists_switch_before r.checkFrom_toList (j := j) (by simpa using h) hc
  · omega
  · exact ⟨i, sw, hij, by simpa using hi, hsw, hle⟩

end Routine

end RegisterVM
