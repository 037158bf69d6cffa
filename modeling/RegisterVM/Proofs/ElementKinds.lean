import RegisterVM.Proofs.ArrayData
import RegisterVM.Proofs.RegisterEffects

/-!
# The kinds of elements compiled code accesses

Compiled code takes the layout of an array from the opcode of the access, and never looks at the array. The
operand rules make sure that the register is declared as an array of that kind, but they do not look at the
kind when a constant, a copy, an item of a tuple or the result of generic arithmetic is put into it. Where all
such instructions keep to the declared kinds (`Instruction.KeepsKinds`), every step leaves registers holding
what they are declared to hold (`Step.kinded_step`).
-/

namespace RegisterVM

/-- The kind of elements a register of this type has as an operand of arithmetic. -/
def ValueType.element? : ValueType → Option ElementKind
  | array kind => some kind
  | t => t.scalarTag?.map ScalarTag.element

/-- The kind of elements of register `q`. -/
def Routine.elementAt? (r : Routine) (q : Nat) : Option ElementKind := (r.types[q]?).bind ValueType.element?

/-- What an instruction puts into register `c` has elements of kind `kind`, or none. Of the items of a tuple only
the tags are checked, and the tag of an array says nothing about its elements. -/
def Instruction.Puts (r : Routine) (h : Heap) (ins : Instruction) (kind : ElementKind) : Prop :=
  (∀ k, ins.resultKind? = some k → k.tag.element = kind) ∧
    match ins.opcode with
    | .data => Tag.ofCode? ins.a.toUInt32.toNat = some .enum → kind = .int
    | .getConst | .getConstString => ∀ v, r.constants[placeOf ins.b]? = some v → h.Carries kind v
    | .move | .moveString => r.elementAt? (placeOf ins.a) = some kind
    | .arith _ => ∃ k l, r.elementAt? (placeOf ins.a) = some k ∧ r.elementAt? (placeOf ins.b) = some l ∧ k.join l = kind
    | .listGet k => k = kind
    | .tupleGetAny => ∃ t tag, r.types[placeOf ins.c]? = some t ∧ t.scalarTag? = some tag
    | _ => True

/-- **What an instruction puts into a register has elements of the declared kind.** -/
def Instruction.KeepsKinds (r : Routine) (h : Heap) (ins : Instruction) : Prop :=
  ∀ kind, r.elementAt? (placeOf ins.c) = some kind → ins.Puts r h kind

namespace State

/-- A value may go into register `q`. -/
def Accepts (r : Routine) (q : Nat) (v : Value) (s : State) : Prop :=
  ∀ kind, r.elementAt? q = some kind → s.heap.Carries kind v

/-- **Registers have elements of the declared kinds**, and the heap goes on from `h` and is sound. -/
structure Kinded (r : Routine) (h : Heap) (s : State) : Prop where
  heap : h.SoundAfter s.heap
  registers : ∀ q v, s.frame.registers[q]? = some v → s.Accepts r q v

variable {r : Routine} {h k : Heap} {s : State} {q : Nat} {v : Value}

/-- A value that may go into a register still may when the heap goes on. -/
theorem Accepts.withHeap (hv : s.Accepts r q v) (hk : s.heap.SoundAfter k) : { s with heap := k }.Accepts r q v :=
  fun kind hkind => (hv kind hkind).mono hk.continues

/-- Registers keep to the declared kinds when the heap goes on. -/
theorem Kinded.withHeap (hs : s.Kinded r h) (hk : s.heap.SoundAfter k) : { s with heap := k }.Kinded r h :=
  ⟨hs.heap.trans hk, fun q v hv => (hs.registers q v hv).withHeap hk⟩

/-- A value with elements of the declared kind may go into the register. -/
theorem Accepts.of_carries {kind : ElementKind} (hq : ∀ k, r.elementAt? q = some k → kind = k)
    (hv : s.heap.Carries kind v) : s.Accepts r q v := fun k hk => hq k hk ▸ hv

end State

namespace Exec

variable {r : Routine} {h : Heap} {α : Type} {q : Nat} {v : Value}

/-- An operation on the heap that goes on soundly keeps whatever is kept along. -/
theorem triple_onHeap_sound {J : State → Prop} (hJ : ∀ {s k}, J s → s.heap.SoundAfter k → J { s with heap := k })
    (hsound : ∀ {s}, J s → s.heap.Sound) {m : HeapM α} (hm : ∀ {h}, Keeps (Heap.SoundAfter h) m) :
    Triple J (onHeap m) (fun a s => J s ∧ ∃ h k, m h = .ok a k) fun _ => J := by
  intro s hs
  have hend := hm s.heap (.refl (hsound hs))
  rw [onHeap_eq]
  cases hms : m s.heap with
  | ok a k =>
    rw [hms] at hend
    exact ⟨hJ hs hend, s.heap, k, hms⟩
  | error e k =>
    rw [hms] at hend
    exact hJ hs hend

/-- An action on the heap keeps registers to the declared kinds, and its result is one it can have. -/
theorem triple_onHeap_kinded {m : HeapM α} (hm : ∀ {h}, Keeps (Heap.SoundAfter h) m) :
    Triple (State.Kinded r h) (onHeap m) (fun a s => s.Kinded r h ∧ ∃ h k, m h = .ok a k) fun _ => State.Kinded r h :=
  triple_onHeap_sound (fun hs => hs.withHeap) (fun hs => hs.heap.sound) hm

/-- An action on the heap keeps registers to the declared kinds. -/
theorem kinded_onHeap {m : HeapM α} (hm : ∀ {h}, Keeps (Heap.SoundAfter h) m) :
    Keeps (State.Kinded r h) (onHeap m) :=
  (triple_onHeap_kinded hm).mono (fun _ hs => hs) (fun _ _ hs => hs.1) fun _ _ hs => hs

/-- So does giving up a value. -/
theorem kinded_discard (v : Value) : Keeps (State.Kinded r h) (onHeap (Heap.discard v)) :=
  kinded_onHeap (Heap.keeps_soundAfter_discard v)

/-- A register is set to something it may hold. -/
theorem triple_overwrite_register {P : State → Prop} {f : Value → Value}
    (hf : ∀ s, P s → s.Kinded r h ∧ ∀ v, s.Accepts r q (f v)) :
    Triple P (overwrite (.register q) f) (fun _ => State.Kinded r h) fun _ => State.Kinded r h := by
  refine .modify fun s hs => ⟨(hf s hs).1.heap, fun i v hv => ?_⟩
  have hv : (s.frame.registers.modify q f)[i]? = some v := hv
  rw [Array.getElem?_modify] at hv
  split at hv
  · rename_i heq
    subst heq
    obtain ⟨w, -, rfl⟩ := Option.map_eq_some_iff.1 hv
    exact (hf s hs).2 w
  · exact (hf s hs).1.registers i v hv

section

variable {P : State → Prop} (hP : ∀ s, P s → s.Kinded r h ∧ s.Accepts r q v)

include hP

/-- So does handing a value over that may go into the register. -/
theorem triple_put : Triple P (put (.register q) v) (fun _ => State.Kinded r h) fun _ => State.Kinded r h := by
  refine .bind ((looks_read _).keeps.mono (fun _ hs => hs) (fun _ _ hs => hs) fun _ s hs => (hP s hs).1) fun old => ?_
  refine .bind (triple_overwrite_register fun s hs => ?_) fun _ => kinded_discard old
  exact ⟨(hP s hs).1, fun _ => (hP s hs).2⟩

/-- So does writing it. -/
theorem triple_write : Triple P (write (.register q) v) (fun _ => State.Kinded r h) fun _ => State.Kinded r h := by
  refine .bind ((looks_read _).keeps.mono (fun _ hs => hs) (fun _ _ hs => hs) fun _ s hs => (hP s hs).1) fun old => ?_
  refine .bind ((triple_onHeap_sound (J := fun s => s.Kinded r h ∧ s.Accepts r q v)
    (fun hs hk => ⟨hs.1.withHeap hk, hs.2.withHeap hk⟩) (fun hs => hs.1.heap.sound)
    (Heap.keeps_soundAfter_clone v)).mono hP (fun _ _ hs => hs.1) fun _ _ hs => hs.1) fun _ => ?_
  exact .bind (triple_overwrite_register fun _ hs => ⟨hs.1, fun _ => hs.2⟩) fun _ => kinded_discard old

end

/-- A copy of a value, behind the check of its tag. -/
theorem triple_checkedWrite {P : State → Prop} {expected : Option Tag}
    (hP : ∀ s, P s → s.Kinded r h ∧ (v.hasTag expected = true → s.Accepts r q v)) :
    Triple P (checkTag v expected >>= fun _ => write (.register q) v) (fun _ => State.Kinded r h)
      fun _ => State.Kinded r h := by
  refine .bind
    ((looks_checkTag v expected).triple.mono (fun _ hs => hs) (fun _ _ hs => hs) fun _ s hs => (hP s hs).1) fun _ =>
    triple_write fun s hs => ?_
  exact ⟨(hP s hs.2).1, (hP s hs.2).2 (Step.hasTag_of_checkTag hs.1)⟩

/-- Places outside the register file hold what they like. -/
theorem kinded_overwrite {p : Place} (hp : ∀ i, p ≠ .register i) (f : Value → Value) :
    Keeps (State.Kinded r h) (overwrite p f) := by
  cases p with
  | register i => exact absurd rfl (hp i)
  | receiver i => exact .bind Looks.get.keeps fun _ => kinded_onHeap (Heap.keeps_soundAfter_overwriteSlot _ _ i f)
  | statics i => exact .modify fun _ hs => ⟨hs.heap, hs.registers⟩
  | globals i => exact .modify fun _ hs => ⟨hs.heap, hs.registers⟩
  | outer depth i => exact .modify fun _ hs => ⟨hs.heap, hs.registers⟩
  | item kind q i =>
    exact .bind (looks_register q).keeps fun _ => kinded_onHeap (Heap.keeps_soundAfter_overwriteSlot _ _ i f)

/-- So does writing to a place outside of the registers. -/
theorem kinded_write {p : Place} (hp : ∀ i, p ≠ .register i) (v : Value) : Keeps (State.Kinded r h) (write p v) :=
  .bind (looks_read p).keeps fun old => .bind (kinded_onHeap (Heap.keeps_soundAfter_clone v)) fun _ =>
    .bind (kinded_overwrite hp _) fun _ => kinded_discard old

/-- Arithmetic on registers of known kinds. -/
theorem kinded_compute {m : Value → Value → HeapM Value} (hm : ∀ h x y, Heap.Computes h (m x y) x y) {i j : Nat}
    (hq : ∀ kind, r.elementAt? q = some kind →
      ∃ k l, r.elementAt? i = some k ∧ r.elementAt? j = some l ∧ k.join l = kind) :
    Keeps (State.Kinded r h)
      (register i >>= fun x => register j >>= fun y => onHeap (m x y) >>= fun v => put (.register q) v) := by
  refine Triple.bind (looks_register i).triple fun x => .bind ((looks_register j).triple.mono (fun _ hs => hs)
    (fun _ _ hs => hs) fun _ _ hs => hs.2) fun y => .bind (Q := fun v s => s.Kinded r h ∧ s.Accepts r q v) ?_
      fun v => triple_put fun _ hs => hs
  rintro s ⟨hy, hx, hs⟩
  have hend := hm s.heap x y s.heap (.refl hs.heap.sound)
  rw [onHeap_eq]
  cases hms : m x y s.heap with
  | error e k =>
    rw [hms] at hend
    exact hs.withHeap hend
  | ok v k =>
    rw [hms] at hend
    refine ⟨hs.withHeap hend.1, fun kind hkind => ?_⟩
    obtain ⟨kx, ky, hkx, hky, rfl⟩ := hq kind hkind
    exact hend.2 kx ky (hs.registers i x (register_eq_ok hx) kx hkx) (hs.registers j y (register_eq_ok hy) ky hky)

/-- Two strings joined. -/
theorem kinded_concat (i j q : Nat) : Keeps (State.Kinded r h)
    (register i >>= fun x => register j >>= fun y => onHeap (Heap.concat x y) >>= fun v => put (.register q) v) := by
  refine .bind (looks_register i).keeps fun x => .bind (looks_register j).keeps fun y =>
    Triple.bind (triple_onHeap_kinded (Heap.keeps_soundAfter_concat x y)) fun v => triple_put ?_
  rintro s ⟨hs, -, -, ⟨⟩⟩
  exact ⟨hs, fun _ _ => trivial⟩

/-- A string with a byte replaced. -/
theorem kinded_setChar (x : Value) (i ch : Int64) (q : Nat) : Keeps (State.Kinded r h)
    (onHeap (Heap.setChar x i ch) >>= fun v => overwrite (.register q) fun _ => v) := by
  refine Triple.bind (triple_onHeap_kinded (Heap.keeps_soundAfter_setChar x i ch)) fun v => triple_overwrite_register ?_
  rintro s ⟨hs, _, _, hv⟩
  obtain ⟨id, rfl⟩ := Step.exists_string_of_setChar hv
  exact ⟨hs, fun _ _ _ => trivial⟩

end Exec

/-! ### Instructions -/

/-- A scalar has elements of its own kind. -/
theorem Heap.carries_value (h : Heap) (kind : ScalarKind) (t : ValueType) (w : Words) :
    h.Carries kind.tag.element (kind.value t w) := by
  cases kind with
  | int => cases t <;> rfl
  | _ => rfl

namespace State

variable {r : Routine} {s : State} {q : Nat} {t : ValueType} {v : Value}

/-- An item whose tag was checked against a scalar type. -/
theorem accepts_of_hasTag (ht : r.types[q]? = some t) {tag : ScalarTag} (htag : t.scalarTag? = some tag)
    (hv : v.hasTag t.tag? = true) : s.Accepts r q v := by
  rw [ValueType.tag?_of_scalarTag htag] at hv
  refine .of_carries (fun kind hkind => ?_) (s.heap.carries_of_tag (of_decide_eq_true hv))
  unfold Routine.elementAt? at hkind
  rw [ht, Option.bind_some] at hkind
  cases t <;> cases htag <;> exact Option.some.inj hkind

/-- An item of a list read under a kind. -/
theorem accepts_of_listItemTag (ht : r.types[q]? = some t) {k : ElementKind} (hv : v.tag = t.listItemTag k)
    (hq : ∀ kind, r.elementAt? q = some kind → k = kind) : s.Accepts r q v := by
  by_cases henum : t = .enum
  · subst henum
    exact accepts_of_hasTag ht rfl (decide_eq_true hv)
  · have htag : v.tag = k.scalar.tag.tag := by
      rw [hv]
      unfold ValueType.listItemTag
      split
      · exact absurd rfl henum
      · cases k <;> rfl
    have helement : k.scalar.tag.element = k := by cases k <;> rfl
    exact .of_carries hq (helement ▸ s.heap.carries_of_tag htag)

variable {h : Heap} {ins : Instruction}

/-- A constant the instruction may load. -/
theorem Kinded.accepts_constant (hs : s.Kinded r h) (hins : ins.KeepsKinds r h)
    (hop : ins.opcode = .getConst ∨ ins.opcode = .getConstString) (hv : r.constants[placeOf ins.b]? = some v) :
    s.Accepts r (placeOf ins.c) v := by
  intro kind hkind
  have hputs := (hins kind hkind).2
  rcases hop with hop | hop <;> rw [hop] at hputs <;> exact (hputs v hv).mono hs.heap.continues

/-- A register the instruction may copy. -/
theorem Kinded.accepts_copy (hs : s.Kinded r h) (hins : ins.KeepsKinds r h)
    (hop : ins.opcode = .move ∨ ins.opcode = .moveString) (hv : s.frame.registers[placeOf ins.a]? = some v) :
    s.Accepts r (placeOf ins.c) v := by
  intro kind hkind
  have hputs := (hins kind hkind).2
  rcases hop with hop | hop <;> rw [hop] at hputs <;> exact hs.registers _ v hv kind hputs

/-- An item the instruction may take out of a tuple. -/
theorem accepts_of_tupleItem (hins : ins.KeepsKinds r h) (hop : ins.opcode = .tupleGetAny)
    (ht : r.types[placeOf ins.c]? = some t) (hv : v.hasTag t.tag? = true) : s.Accepts r (placeOf ins.c) v := by
  intro kind hkind
  have hputs := (hins kind hkind).2
  rw [hop] at hputs
  obtain ⟨t', tag, ht', htag⟩ := hputs
  obtain rfl : t' = t := Option.some.inj (ht'.symm.trans ht)
  exact accepts_of_hasTag ht htag hv kind hkind

end State

namespace Step

open Exec

variable {r : Routine} {h : Heap} {ins : Instruction} {x : Int32}

/-- Setting a register to a value that it always accepts. -/
theorem kinded_set {v : Value} (hv : ∀ s : State, s.Accepts r (placeOf x) v) : Keeps (State.Kinded r h) (set x v) :=
  triple_put fun s hs => ⟨hs, hv s⟩

/-- Storing a scalar of the declared kind. -/
theorem kinded_setScalar {kind : ScalarKind} (hkind : ∀ k, r.elementAt? (placeOf x) = some k → kind.tag.element = k)
    (w : Words) : Keeps (State.Kinded r h) (setScalar r x kind w) :=
  .bind (looks_typeOf r x).keeps fun t => kinded_set fun s => .of_carries hkind (s.heap.carries_value kind t w)

/-- Storing an immediate. -/
theorem kinded_data (hins : ins.KeepsKinds r h) (hop : ins.opcode = .data) : Keeps (State.Kinded r h) (data r ins) := by
  have hscalar {tag : Tag} {kind : ScalarKind} (htag : Tag.ofCode? ins.a.toUInt32.toNat = some tag)
      (hkind : tag.immediateKind? = some kind) (k : ElementKind) (hk : r.elementAt? (placeOf ins.c) = some k) :
      kind.tag.element = k := by
    refine (hins k hk).1 kind ?_
    unfold Instruction.resultKind?
    rw [hop]
    dsimp only
    rw [htag]
    exact hkind
  unfold data Machine.data
  split <;> rename_i htag
  · exact kinded_set fun _ _ _ => trivial
  · exact kinded_setScalar (hscalar htag rfl) _
  · exact kinded_setScalar (hscalar htag rfl) _
  · exact kinded_setScalar (hscalar htag rfl) _
  · refine kinded_set fun s kind hkind => ?_
    have hputs := (hins kind hkind).2
    rw [hop] at hputs
    exact (hputs htag).symm
  · exact .throw _

/-- Storing the result of a mathematical function. -/
theorem kinded_math (hc : ∀ k, r.elementAt? (placeOf ins.c) = some k → ScalarKind.float.tag.element = k) :
    Keeps (State.Kinded r h) (match MathFn.ofNumber? ins.a.toInt with
      | some f => words ins.b >>= fun w => applyMath f w.lo >>= fun y => setFloat r ins.c y
      | none => fail .value) := by
  split
  · refine .bind (looks_words _).keeps fun w => .bind ?_ fun y => kinded_setScalar hc _
    exact fun s hs => ⟨hs.heap, hs.registers⟩
  · exact .throw _

/-- A copy of a value, behind the check of its tag against the declared type. -/
theorem kinded_checked {v : Value} {f : ValueType → Option Tag}
    (hv : ∀ (s : State) t, r.types[placeOf x]? = some t → v.hasTag (f t) = true → s.Accepts r (placeOf x) v) :
    Keeps (State.Kinded r h) (typeOf r x >>= fun t => checkTag v (f t) >>= fun _ => copyTo x v) :=
  Triple.bind (looks_typeOf r x).triple fun t => .assuming (fun _ hs => typeOf_eq_ok hs.1) fun ht =>
    triple_checkedWrite fun s hs => ⟨hs.2, hv s t ht⟩

/-- **Instructions that keep to the declared kinds keep the registers so.** -/
theorem kinded_effect (hins : ins.KeepsKinds r h) : Keeps (State.Kinded r h) (effect r ins) := by
  have hresult {kind : ScalarKind} (hkind : ins.resultKind? = some kind) (k : ElementKind)
      (hk : r.elementAt? (placeOf ins.c) = some k) : kind.tag.element = k := (hins k hk).1 kind hkind
  obtain ⟨op, a, b, c, line⟩ := ins
  cases op with
  | nop | goto | test | switch | ret => exact .pure _
  | caseEntry | callSegment => exact .throw _
  | data => exact kinded_data hins rfl
  | getConst | getConstString =>
    exact Triple.bind (looks_constant r b).triple fun v => triple_write fun s hs =>
      ⟨hs.2, hs.2.accepts_constant hins (by simp) (constant_eq_ok hs.1)⟩
  | getConstScalar k => exact .bind (looks_constant r b).keeps fun _ => kinded_setScalar (hresult rfl) _
  | move | moveString =>
    exact Triple.bind (looks_reg a).triple fun v => triple_write fun s hs =>
      ⟨hs.2, hs.2.accepts_copy hins (by simp) (reg_eq_ok hs.1)⟩
  | moveScalar | convert | unary => exact .bind (looks_words a).keeps fun _ => kinded_setScalar (hresult rfl) _
  | intArith op =>
    exact .bind (looks_int a).keeps fun _ => .bind (looks_int b).keeps fun _ => .bind (looks_ofExcept _).keeps fun _ =>
      kinded_setScalar (hresult rfl) _
  | intBits | compareInt =>
    exact .bind (looks_int a).keeps fun _ => .bind (looks_int b).keeps fun _ => kinded_setScalar (hresult rfl) _
  | logic | floatArith | complexArith | compareFloat | compareComplex =>
    exact .bind (looks_words a).keeps fun _ => .bind (looks_words b).keeps fun _ => kinded_setScalar (hresult rfl) _
  | math => exact kinded_math (hresult rfl)
  | compareString rel =>
    exact .bind (looks_reg a).keeps fun _ => .bind (looks_reg b).keeps fun _ => .bind Looks.get.keeps fun _ =>
      kinded_setScalar (hresult rfl) _
  | arith op => exact kinded_compute (fun _ => Heap.computes_genericArith op) fun kind hkind => (hins kind hkind).2
  | assignAll =>
    exact .bind (looks_reg b).keeps fun _ => .bind (looks_checkTag _ _).keeps fun _ =>
      .bind (looks_reg c).keeps fun _ =>
      .bind (looks_reg a).keeps fun _ => kinded_onHeap (Heap.keeps_soundAfter_assignAll _ _)
  | concat => exact kinded_concat _ _ _
  | charAt =>
    exact .bind (looks_reg a).keeps fun _ => .bind (looks_int b).keeps fun _ =>
      .bind (looks_onHeap (Heap.looks_charAt _ _)).keeps fun _ => kinded_setScalar (hresult rfl) _
  | setChar =>
    exact .bind (looks_reg c).keeps fun x => .bind (looks_int b).keeps fun i => .bind (looks_int a).keeps fun ch =>
      kinded_setChar x i ch _
  | size of =>
    exact .bind (looks_reg a).keeps fun _ => .bind (looks_checkTag _ _).keeps fun _ =>
      .bind (looks_reg a).keeps fun _ =>
      .bind (looks_onHeap (Heap.looks_size _)).keeps fun _ => kinded_setScalar (hresult rfl) _
  | arrayGet k =>
    exact .bind (looks_reg a).keeps fun _ => .bind (looks_int b).keeps fun _ =>
      .bind (kinded_onHeap (Heap.keeps_soundAfter_elementBy _ _)) fun _ => kinded_setScalar (hresult rfl) _
  | arraySet k =>
    exact .bind (looks_reg c).keeps fun _ => .bind (looks_int b).keeps fun _ => .bind (looks_words a).keeps fun _ =>
      kinded_onHeap (Heap.keeps_soundAfter_setElementBy _ _ _)
  | arrayGetMulti k =>
    exact .bind (looks_indices a b).keeps fun _ => .bind (looks_reg a).keeps fun _ =>
      .bind (kinded_onHeap (Heap.keeps_soundAfter_elementBy _ _)) fun _ => kinded_setScalar (hresult rfl) _
  | arraySetMulti k =>
    exact .bind (looks_indices c b).keeps fun _ => .bind (looks_reg c).keeps fun _ =>
      .bind (looks_words a).keeps fun _ =>
      kinded_onHeap (Heap.keeps_soundAfter_setElementBy _ _ _)
  | listGet k =>
    refine .bind (looks_reg a).keeps fun _ => .bind (looks_int b).keeps fun _ =>
      .bind (looks_onHeap (Heap.looks_listItem _ _)).keeps fun v => ?_
    exact kinded_checked (f := fun t => some (t.listItemTag k)) fun s t ht hv =>
      State.accepts_of_listItemTag ht (of_decide_eq_true hv) fun kind hkind => (hins kind hkind).2
  | listSet k =>
    exact .bind (looks_reg c).keeps fun _ => .bind (looks_int b).keeps fun _ => .bind (looks_reg a).keeps fun _ =>
      kinded_onHeap (Heap.keeps_soundAfter_listSet _ _ _)
  | tupleGetAny =>
    refine .bind (looks_readItem _ a _).keeps fun v => kinded_checked fun s t ht hv kind hkind => ?_
    exact State.accepts_of_tupleItem hins rfl ht hv kind hkind
  | tupleGet | getField => exact .bind (looks_readItem _ a _).keeps fun _ => kinded_setScalar (hresult rfl) _
  | getVar => exact .bind (looks_read _).keeps fun _ => kinded_setScalar (hresult rfl) _
  | tupleSetAny =>
    exact .bind (looks_reg a).keeps fun _ => .bind (looks_typeOf r c).keeps fun _ =>
      .bind (looks_checkTag _ _).keeps fun _ =>
      kinded_write (p := .item _ _ _) nofun _
  | tupleSet | setField => exact .bind (looks_reg a).keeps fun _ => kinded_write (p := .item _ _ _) nofun _
  | setVar storage k =>
    exact .bind (looks_reg a).keeps fun _ => kinded_write (by cases storage <;> exact nofun) _
  | print =>
    refine .bind (looks_reg a).keeps fun _ =>
      .bind (kinded_onHeap (Heap.keeps_text Heap.keeps_soundAfter_plainArray _)) fun _ => ?_
    exact .modify fun s hs => ⟨hs.heap, hs.registers⟩

/-- **A step keeps registers to the declared kinds.** -/
theorem kinded_step (pc : Nat) (hins : ins.KeepsKinds r h) : Keeps (State.Kinded r h) (step r pc ins) := by
  have heffect := kinded_effect hins
  obtain ⟨op, a, b, c, line⟩ := ins
  cases op with
  | goto => exact .pure _
  | test kind =>
    refine .bind (looks_testHolds kind a).keeps fun holds => ?_
    cases holds <;> exact .pure _
  | switch => exact (looks_dispatch r pc _).keeps
  | ret =>
    change Keeps (State.Kinded r h) (if b = 0 then (pure (.ret .none) : Exec Flow) else
      reg a >>= fun v => onHeap (Heap.clone v) >>= fun w => pure (.ret w))
    split
    · exact .pure _
    · exact .bind (looks_reg a).keeps fun v => .bind (kinded_onHeap (Heap.keeps_soundAfter_clone v)) fun _ => .pure _
  | _ => exact .bind heffect fun _ => .pure _

end Step

end RegisterVM
