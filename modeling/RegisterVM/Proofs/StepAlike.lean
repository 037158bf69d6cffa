import RegisterVM.Proofs.ExecAlike

/-!
# One instruction on states that are alike

An instruction reads the registers its layout names and writes at most one. Executed in two states
alike on what it reads, it does the same in both: it fails for the same reason, or goes on the same
way in states alike on what they were alike on before and on what it wrote (`endsAlike_step`).

Unless the states are alike in the strict sense, what is read as a complex number must not be a
scalar of one word (`Instruction.ReadsWide`).
-/

namespace RegisterVM

/-! ### Operands as places -/

/-- The index registers after `base`. -/
def indexPlaces (base count : Int32) : List Nat :=
  (List.range (countOf count)).map fun k => placeOf (base + Int32.ofNat (k + 1))

namespace Instruction

/-- The registers an instruction reads, at full width. -/
def reads (i : Instruction) : List Nat :=
  match i.opcode.layout with
  | .empty | .caseEntry | .loadC => []
  | .unaryAC | .staticGet => [placeOf i.a]
  | .unaryBC => [placeOf i.b]
  | .binaryABC => [placeOf i.a, placeOf i.b]
  | .staticSet => [placeOf i.a, placeOf i.c]
  | .indexSet | .indexUpdate => [placeOf i.a, placeOf i.b, placeOf i.c]
  | .multiGet => placeOf i.a :: indexPlaces i.a i.b
  | .multiSet => placeOf i.a :: placeOf i.c :: indexPlaces i.c i.b
  | .readA | .storeA | .testA | .switch => [placeOf i.a]
  | .ret => if i.b = 0 then [] else [placeOf i.a]

/-- The registers an instruction writes, at full width. -/
def writes (i : Instruction) : List Nat :=
  match i.opcode.layout with
  | .loadC | .unaryAC | .unaryBC | .binaryABC | .staticGet | .indexUpdate | .multiGet => [placeOf i.c]
  | _ => []

end Instruction

/-- The register an operand names holds no scalar of one word. -/
def State.WideAt (s : State) (x : Int32) : Prop :=
  ∀ v, s.frame.registers[placeOf x]? = some v → ¬v.IsNarrow

/-- The array a register holds, if it is one of complex numbers. -/
def State.HoldsComplexArray (s : State) (x : Int32) : Prop :=
  ∃ id a, s.frame.registers[placeOf x]? = some (.object .array id) ∧
    s.heap.get? id = some (.array a) ∧ a.kind = .complex

/-- What is at a place is no scalar of one word. -/
def State.WidePlace (s : State) (p : Place) : Prop :=
  ∀ v t, Exec.read p s = .ok v t → ¬v.IsNarrow

/-- Whatever an instruction reads as a complex number is no scalar of one word. -/
def Instruction.ReadsWide (ins : Instruction) (s : State) : Prop :=
  match ins.opcode with
  | .moveScalar .complex | .unary .negComplex => s.WideAt ins.a
  | .complexArith _ | .compareComplex _ => s.WideAt ins.a ∧ s.WideAt ins.b
  | .arraySet _ | .arraySetMulti _ => s.HoldsComplexArray ins.c → s.WideAt ins.a
  | .tupleGet .complex => s.WidePlace (.item .tuple (placeOf ins.a) (placeOf ins.b))
  | .getField .complex => s.WidePlace (.item .object (placeOf ins.a) (placeOf ins.b))
  | .getVar storage .complex => s.WidePlace (ins.sourceVariable storage)
  | _ => True

/-! ### Scalars -/

namespace Words.Same

variable {w w' z z' : Words}

/-- Unary operations do not look at a second word that is not part of the operand. -/
theorem unary {op : UnaryOp} (h : Words.Same op.kind w w') : op.apply w = op.apply w' := by
  cases op with
  | negComplex => rw [h.eq_of_complex]
  | notBool => simp only [UnaryOp.apply, h.bool_eq]
  | notInt => simp only [UnaryOp.apply, h.int_eq]
  | negInt => simp only [UnaryOp.apply, h.int_eq]
  | negFloat => simp only [UnaryOp.apply, h.1]
  | bitNot => simp only [UnaryOp.apply, h.int_eq]

/-- Neither do conversions. -/
theorem convert {v : Conversion} (h : Words.Same v.source w w') : v.apply w = v.apply w' := by
  cases v with
  | intOfFloat => simp only [Conversion.apply, h.1]
  | floatOfInt => simp only [Conversion.apply, h.int_eq]
  | intOfBool => simp only [Conversion.apply, h.bool_eq]
  | boolOfInt => simp only [Conversion.apply, h.int_eq]
  | complexOfInt => simp only [Conversion.apply, h.int_eq]
  | complexOfFloat => simp only [Conversion.apply, h.1]

/-- What is stored under a kind depends on the words of the kind only. -/
theorem value {kind : ScalarKind} (h : Words.Same kind w w') (t : ValueType) :
    kind.value t w = kind.value t w' := by
  cases kind with
  | bool => simp only [ScalarKind.value, h.bool_eq]
  | int => simp only [ScalarKind.value, h.int_eq]
  | float => simp only [ScalarKind.value, h.1]
  | complex => rw [h.eq_of_complex]

end Words.Same

namespace Step

open Exec

variable {strict : Bool} {K : Nat → Prop} {s s' : State} {r : Routine}

/-- Registers that are alike are read as values that are alike. -/
theorem ends_reg (h : s.Alike strict K s') {x : Int32} (hx : K (placeOf x)) :
    Ends (fun v v' t t' => v.Alike strict v' ∧ s.frame.registers[placeOf x]? = some v ∧ t = s ∧ t' = s')
      (State.WorldAlike strict) (reg x s) (reg x s') :=
  endsAlike_register h hx

/-- The words of a register, for every reading under which they are the same. -/
theorem ends_allWords (h : s.Alike strict K s') {x : Int32} (hx : K (placeOf x)) :
    Ends (fun w w' t t' => (∀ kind, strict = true ∨ kind ≠ .complex ∨ s.WideAt x →
        Words.Same kind w w') ∧ t = s ∧ t' = s') (State.WorldAlike strict)
      (words x s) (words x s') := by
  refine Ends.bind (ends_reg h hx) ?_
  rintro v v' _ _ ⟨hv, hreg, rfl, rfl⟩
  refine ⟨fun kind hwide => hv.same ?_, rfl, rfl⟩
  exact hwide.imp_right fun h => h.imp_right fun hw => hw v hreg

/-- Their words are the same for the kind they are read as, if a complex number is read only where there is one. -/
theorem ends_words (h : s.Alike strict K s') {x : Int32} (hx : K (placeOf x)) {kind : ScalarKind}
    (hwide : strict = true ∨ kind ≠ .complex ∨ s.WideAt x) :
    Ends (fun w w' t t' => Words.Same kind w w' ∧ t = s ∧ t' = s') (State.WorldAlike strict)
      (words x s) (words x s') :=
  (ends_allWords h hx).mono (fun _ _ _ _ hw => ⟨hw.1 kind hwide, hw.2⟩) fun _ _ hf => hf

/-- They are read as the same integer. -/
theorem ends_int (h : s.Alike strict K s') {x : Int32} (hx : K (placeOf x)) :
    Ends (fun i i' t t' => i = i' ∧ t = s ∧ t' = s') (State.WorldAlike strict) (int x s) (int x s') := by
  have hwords : Ends (fun w w' t t' => Words.Same .int w w' ∧ t = s ∧ t' = s')
      (State.WorldAlike strict) (words x s) (words x s') :=
    ends_words h hx (.inr (.inl (by decide)))
  refine Ends.bind hwords ?_
  rintro w w' _ _ ⟨hw, rfl, rfl⟩
  exact ⟨hw.int_eq, rfl, rfl⟩

/-- The declared type is the same on both sides. -/
theorem ends_typeOf (h : s.Alike strict K s') (x : Int32) :
    Ends (fun t t' u u' => t = t' ∧ u = s ∧ u' = s') (State.WorldAlike strict) (typeOf r x s)
      (typeOf r x s') := by
  unfold typeOf
  cases r.types[placeOf x]? with
  | none => exact ⟨rfl, h.world⟩
  | some t => exact ⟨rfl, rfl, rfl⟩

/-- The constant is the same on both sides. -/
theorem ends_constant (h : s.Alike strict K s') (x : Int32) :
    Ends (fun v v' u u' => v = v' ∧ u = s ∧ u' = s') (State.WorldAlike strict) (constant r x s)
      (constant r x s') := by
  unfold constant
  cases r.constants[placeOf x]? with
  | none => exact ⟨rfl, h.world⟩
  | some v => exact ⟨rfl, rfl, rfl⟩

/-- Storing under a kind words that are the same for the kind. -/
theorem endsAlike_setScalar (h : s.Alike strict K s') (x : Int32) {kind : ScalarKind} {w w' : Words}
    (hw : Words.Same kind w w') :
    EndsAlike strict (fun j => K j ∨ j = placeOf x) (· = ·) (setScalar r x kind w s)
      (setScalar r x kind w' s') := by
  refine Ends.bind (ends_typeOf h x) ?_
  rintro t _ _ _ ⟨rfl, rfl, rfl⟩
  rw [hw.value t]
  exact endsAlike_put h _ (.refl _)

/-- The same integer stored on both sides makes the register alike. -/
theorem endsAlike_setInt (h : s.Alike strict K s') (x : Int32) (i : Int64) :
    EndsAlike strict (fun j => K j ∨ j = placeOf x) (· = ·) (setInt r x i s) (setInt r x i s') :=
  endsAlike_setScalar h x .rfl'

/-- A scalar computed from one register. -/
theorem endsAlike_unary (h : s.Alike strict K s') {a c : Int32} (ha : K (placeOf a))
    (source target : ScalarKind) (hwide : strict = true ∨ source ≠ .complex ∨ s.WideAt a)
    {f : Words → Words} (hf : ∀ w w', Words.Same source w w' → Words.Same target (f w) (f w')) :
    EndsAlike strict (fun j => K j ∨ j = placeOf c) (· = ·)
      ((words a >>= fun w => setScalar r c target (f w)) s)
      ((words a >>= fun w => setScalar r c target (f w)) s') := by
  refine Ends.bind (ends_words h ha hwide) ?_
  rintro w w' _ _ ⟨hw, rfl, rfl⟩
  exact endsAlike_setScalar h c (hf w w' hw)

/-- A scalar computed from two registers of one kind. -/
theorem endsAlike_binary (h : s.Alike strict K s') {a b c : Int32} (ha : K (placeOf a))
    (hb : K (placeOf b)) (source target : ScalarKind)
    (hwide : strict = true ∨ source ≠ .complex ∨ s.WideAt a ∧ s.WideAt b) {f : Words → Words → Words}
    (hf : ∀ w w' z z', Words.Same source w w' → Words.Same source z z' → f w z = f w' z') :
    EndsAlike strict (fun j => K j ∨ j = placeOf c) (· = ·)
      ((words a >>= fun w => words b >>= fun z => setScalar r c target (f w z)) s)
      ((words a >>= fun w => words b >>= fun z => setScalar r c target (f w z)) s') := by
  refine Ends.bind (ends_words h ha (hwide.imp_right fun h => h.imp_right And.left)) ?_
  rintro w w' _ _ ⟨hw, rfl, rfl⟩
  refine Ends.bind (ends_words h hb (hwide.imp_right fun h => h.imp_right And.right)) ?_
  rintro z z' _ _ ⟨hz, rfl, rfl⟩
  rw [hf w w' z z' hw hz]
  exact endsAlike_setScalar h c .rfl'

/-- A scalar computed from two integers. -/
theorem endsAlike_intBinary (h : s.Alike strict K s') {a b c : Int32} (ha : K (placeOf a))
    (hb : K (placeOf b)) (target : ScalarKind) (f : Int64 → Int64 → Words) :
    EndsAlike strict (fun j => K j ∨ j = placeOf c) (· = ·)
      ((int a >>= fun i => int b >>= fun j => setScalar r c target (f i j)) s)
      ((int a >>= fun i => int b >>= fun j => setScalar r c target (f i j)) s') := by
  refine Ends.bind (ends_int h ha) ?_
  rintro i _ _ _ ⟨rfl, rfl, rfl⟩
  refine Ends.bind (ends_int h hb) ?_
  rintro j _ _ _ ⟨rfl, rfl, rfl⟩
  exact endsAlike_setScalar h c .rfl'

/-- The index registers of an element access. -/
theorem ends_indices (h : s.Alike strict K s') {base count : Int32}
    (hread : ∀ i ∈ indexPlaces base count, K i) :
    Ends (fun is is' t t' => is = is' ∧ t = s ∧ t' = s') (State.WorldAlike strict)
      (indices base count s) (indices base count s') := by
  have hone (k : Nat) (hk : K (placeOf (base + Int32.ofNat (k + 1)))) :
      Ends (fun i i' t t' => i = i' ∧ t = s ∧ t' = s') (State.WorldAlike strict)
        ((following base (k + 1) >>= int) s) ((following base (k + 1) >>= int) s') := by
    unfold following
    split
    · exact ends_int h hk
    · exact ⟨rfl, h.world⟩
  have hlist : ∀ ks : List Nat, (∀ k ∈ ks, K (placeOf (base + Int32.ofNat (k + 1)))) →
      Ends (fun is is' t t' => is = is' ∧ t = s ∧ t' = s') (State.WorldAlike strict)
        ((ks.mapM fun k => following base (k + 1) >>= int) s)
        ((ks.mapM fun k => following base (k + 1) >>= int) s') := by
    intro ks
    induction ks with
    | nil => exact fun _ => ⟨rfl, rfl, rfl⟩
    | cons k ks ih =>
      intro hks
      rw [List.mapM_cons]
      refine Ends.bind (hone k (hks k List.mem_cons_self)) ?_
      rintro i _ _ _ ⟨rfl, rfl, rfl⟩
      refine Ends.bind (ih fun k hk => hks k (List.mem_cons_of_mem _ hk)) ?_
      rintro is _ _ _ ⟨rfl, rfl, rfl⟩
      exact ⟨rfl, rfl, rfl⟩
  exact hlist _ fun k hk => hread _ (List.mem_map_of_mem hk)

/-! ### Instructions -/

/-- An action that does the same in both states, after which they are also alike on `written`. -/
def Respects (strict : Bool) (K : Nat → Prop) (written : List Nat) (s s' : State) (m : Exec Unit) :
    Prop :=
  EndsAlike strict (fun j => K j ∨ j ∈ written) (· = ·) (m s) (m s')

namespace Respects

/-- An action after which one more register is alike. -/
theorem of_write {m : Exec Unit} {i : Nat}
    (h : EndsAlike strict (fun j => K j ∨ j = i) (· = ·) (m s) (m s')) :
    Respects strict K [i] s s' m := by
  simpa only [Respects, List.mem_singleton] using h

/-- An action that writes no register. -/
theorem of_keep {m : Exec Unit} (h : EndsAlike strict K (· = ·) (m s) (m s')) :
    Respects strict K [] s s' m := by
  simpa only [Respects, List.not_mem_nil, or_false] using h

/-- Both fail alike. -/
theorem throw (h : s.Alike strict K s') (written : List Nat) (f : Failure) :
    Respects strict K written s s' (throw f) := ⟨rfl, h.world⟩

end Respects

/-- An immediate. -/
theorem respects_data (h : s.Alike strict K s') (ins : Instruction) :
    Respects strict K [placeOf ins.c] s s' (data r ins) := by
  unfold data Machine.data
  split
  · exact .of_write (endsAlike_put h _ (.refl _))
  · exact .of_write (endsAlike_setScalar h _ .rfl')
  · exact .of_write (endsAlike_setScalar h _ .rfl')
  · exact .of_write (endsAlike_setScalar h _ .rfl')
  · exact .of_write (endsAlike_put h _ (.refl _))
  · exact .throw h _ _

/-- A value stored as it is. -/
theorem respects_copy (h : s.Alike strict K s') {a : Int32} (ha : K (placeOf a)) (c : Int32) :
    Respects strict K [placeOf c] s s' (reg a >>= fun v => copyTo c v) := by
  refine .of_write (Ends.bind (ends_reg h ha) ?_)
  rintro v v' _ _ ⟨hv, -, rfl, rfl⟩
  exact endsAlike_write_register h _ hv

/-- A constant copied into a register. -/
theorem respects_copyConstant (h : s.Alike strict K s') (b c : Int32) :
    Respects strict K [placeOf c] s s' (constant r b >>= fun v => copyTo c v) := by
  refine .of_write (Ends.bind (ends_constant h b) ?_)
  rintro v _ _ _ ⟨rfl, rfl, rfl⟩
  exact endsAlike_write_register h _ (.refl _)

/-- Arithmetic on integers, which may fail on both sides. -/
theorem respects_intArith (h : s.Alike strict K s') (op : ArithOp) {a b : Int32} (ha : K (placeOf a))
    (hb : K (placeOf b)) (c : Int32) :
    Respects strict K [placeOf c] s s'
      (int a >>= fun i => int b >>= fun j => ofExcept (op.int i j) >>= fun k => setInt r c k) := by
  refine .of_write (Ends.bind (ends_int h ha) ?_)
  rintro i _ _ _ ⟨rfl, rfl, rfl⟩
  refine Ends.bind (ends_int h hb) ?_
  rintro j _ _ _ ⟨rfl, rfl, rfl⟩
  cases op.int i j with
  | ok k => exact endsAlike_setInt h c k
  | error e => exact ⟨rfl, h.world⟩

/-- A mathematical function, which may draw from the generator on both sides. -/
theorem respects_math (h : s.Alike strict K s') (f : MathFn) {b : Int32} (hb : K (placeOf b))
    (c : Int32) :
    Respects strict K [placeOf c] s s'
      (words b >>= fun w => applyMath f w.lo >>= fun y => setFloat r c y) := by
  have hwords : Ends (fun w w' t t' => Words.Same .float w w' ∧ t = s ∧ t' = s')
      (State.WorldAlike strict) (words b s) (words b s') :=
    ends_words h hb (.inr (.inl (by decide)))
  refine .of_write (Ends.bind hwords ?_)
  rintro w w' s s' ⟨hw, rfl, rfl⟩
  have hmath : EndsAlike strict K (· = ·) (applyMath f w.lo s) (applyMath f w'.lo s') := by
    rw [← hw.1]
    refine ⟨congrArg (fun g => (f.apply w.lo g).1) h.world.random, h.registers, ?_⟩
    exact { h.world with random := congrArg (fun g => (f.apply w.lo g).2) h.world.random }
  refine Ends.bind hmath ?_
  rintro y _ t t' ⟨rfl, ht⟩
  exact endsAlike_setScalar ht c .rfl'

/-- A comparison of strings. -/
theorem respects_compareString (h : s.Alike strict K s') (rel : Relation) {a b : Int32}
    (ha : K (placeOf a)) (hb : K (placeOf b)) (c : Int32) :
    Respects strict K [placeOf c] s s'
      (reg a >>= fun x => reg b >>= fun y => get >>= fun t =>
        setBool r c (rel.ordering (t.heap.compareStrings x y))) := by
  refine .of_write (Ends.bind (ends_reg h ha) ?_)
  rintro x x' _ _ ⟨hx, -, rfl, rfl⟩
  refine Ends.bind (ends_reg h hb) ?_
  rintro y y' s s' ⟨hy, -, rfl, rfl⟩
  have hcompare := Heap.compareStrings_eq h.world.heap hx hy
  change EndsAlike _ _ _ (setBool r c _ s) (setBool r c _ s')
  rw [hcompare]
  exact endsAlike_setScalar h c .rfl'

/-- A heap operation on two registers whose result is handed to a third. -/
theorem respects_heapBinary (h : s.Alike strict K s') {a b : Int32} (ha : K (placeOf a))
    (hb : K (placeOf b)) (c : Int32) {m : Value → Value → HeapM Value}
    (hm : ∀ x x' y y', Value.Alike strict x x' → Value.Alike strict y y' →
      Heap.Agree strict (· = ·) (m x y) (m x' y')) :
    Respects strict K [placeOf c] s s'
      (reg a >>= fun x => reg b >>= fun y => onHeap (m x y) >>= fun v => set c v) := by
  refine .of_write (Ends.bind (ends_reg h ha) ?_)
  rintro x x' _ _ ⟨hx, -, rfl, rfl⟩
  refine Ends.bind (ends_reg h hb) ?_
  rintro y y' _ _ ⟨hy, -, rfl, rfl⟩
  refine Ends.bind (endsAlike_agree h (hm x x' y y' hx hy)) ?_
  rintro v _ t t' ⟨rfl, ht⟩
  exact endsAlike_put ht _ (.refl _)

/-- An item stored in a register whose declared type says which tag it has to carry. -/
theorem endsAlike_copyChecked (h : s.Alike strict K s') {v v' : Value} (hv : v.Alike strict v')
    (c : Int32) (expected : ValueType → Option Tag) :
    EndsAlike strict (fun j => K j ∨ j = placeOf c) (· = ·)
      ((typeOf r c >>= fun t => checkTag v (expected t) >>= fun _ => copyTo c v) s)
      ((typeOf r c >>= fun t => checkTag v' (expected t) >>= fun _ => copyTo c v') s') := by
  refine Ends.bind (ends_typeOf h c) ?_
  rintro t _ _ _ ⟨rfl, rfl, rfl⟩
  refine Ends.bind (endsAlike_checkTag h hv _) fun _ _ t t' ⟨_, ht⟩ => ?_
  exact endsAlike_write_register ht _ hv

/-- A scalar a heap operation computes from a register and an index. -/
theorem respects_heapIndex (h : s.Alike strict K s') {a b : Int32} (ha : K (placeOf a))
    (hb : K (placeOf b)) (c : Int32) (kind : ScalarKind) {α : Type} {m : Value → Int64 → HeapM α}
    (f : α → Words)
    (hm : ∀ x x' i, Value.Alike strict x x' → Heap.Agree strict (· = ·) (m x i) (m x' i)) :
    Respects strict K [placeOf c] s s'
      (reg a >>= fun x => int b >>= fun i => onHeap (m x i) >>= fun y =>
        setScalar r c kind (f y)) := by
  refine .of_write (Ends.bind (ends_reg h ha) ?_)
  rintro x x' _ _ ⟨hx, -, rfl, rfl⟩
  refine Ends.bind (ends_int h hb) ?_
  rintro i _ _ _ ⟨rfl, rfl, rfl⟩
  refine Ends.bind (endsAlike_agree h (hm x x' i hx)) ?_
  rintro y _ t t' ⟨rfl, ht⟩
  exact endsAlike_setScalar ht c .rfl'

/-- An assignment to all elements of an array. -/
theorem respects_assignAll (h : s.Alike strict K s') {a b c : Int32} (ha : K (placeOf a))
    (hb : K (placeOf b)) (hc : K (placeOf c)) :
    Respects strict K [] s s'
      (reg b >>= fun v => checkTag v (some .none) >>= fun _ => reg c >>= fun x => reg a >>= fun y =>
        onHeap (Heap.assignAll x y)) := by
  refine .of_keep (Ends.bind (ends_reg h hb) ?_)
  rintro v v' _ _ ⟨hv, -, rfl, rfl⟩
  refine Ends.bind (endsAlike_checkTag h hv _) fun _ _ t t' ⟨_, ht⟩ => ?_
  refine Ends.bind (ends_reg ht hc) ?_
  rintro x x' _ _ ⟨hx, -, rfl, rfl⟩
  refine Ends.bind (ends_reg ht ha) ?_
  rintro y y' _ _ ⟨hy, -, rfl, rfl⟩
  exact endsAlike_agree ht (Heap.agree_assignAll hx hy)

/-- A byte of a string replaced. -/
theorem respects_setChar (h : s.Alike strict K s') {a b c : Int32} (ha : K (placeOf a))
    (hb : K (placeOf b)) (hc : K (placeOf c)) :
    Respects strict K [placeOf c] s s'
      (reg c >>= fun x => int b >>= fun i => int a >>= fun ch => onHeap (Heap.setChar x i ch) >>= fun v =>
        overwrite (.register (placeOf c)) fun _ => v) := by
  refine .of_write (Ends.bind (ends_reg h hc) ?_)
  rintro x x' _ _ ⟨hx, -, rfl, rfl⟩
  refine Ends.bind (ends_int h hb) ?_
  rintro i _ _ _ ⟨rfl, rfl, rfl⟩
  refine Ends.bind (ends_int h ha) ?_
  rintro ch _ _ _ ⟨rfl, rfl, rfl⟩
  refine Ends.bind (endsAlike_agree h (Heap.agree_setChar hx i ch)) fun v v' t t' ⟨hv, ht⟩ => ?_
  exact endsAlike_overwrite_register ht fun _ _ _ _ => hv

/-- A size. -/
theorem respects_size (h : s.Alike strict K s') {a : Int32} (ha : K (placeOf a)) (c : Int32)
    (of : Sized) :
    Respects strict K [placeOf c] s s'
      (reg a >>= fun v => checkTag v (some (sizedTag of)) >>= fun _ => reg a >>= fun v =>
        onHeap (Heap.size v) >>= fun n => setInt r c n) := by
  refine .of_write (Ends.bind (ends_reg h ha) ?_)
  rintro v v' _ _ ⟨hv, -, rfl, rfl⟩
  refine Ends.bind (endsAlike_checkTag h hv _) fun _ _ t t' ⟨_, ht⟩ => ?_
  refine Ends.bind (ends_reg ht ha) ?_
  rintro v v' _ _ ⟨hv, -, rfl, rfl⟩
  refine Ends.bind (endsAlike_agree ht (Heap.agree_size hv)) ?_
  rintro n _ u u' ⟨rfl, hu⟩
  exact endsAlike_setInt hu c n

/-- Words stored into the array a register holds. -/
theorem endsAlike_setElement (h : s.Alike strict K s') {a c : Int32} (ha : K (placeOf a))
    (hwide : strict = true ∨ (s.HoldsComplexArray c → s.WideAt a)) {x x' : Value}
    (hx : x.Alike strict x') (hreg : s.frame.registers[placeOf c]? = some x)
    (place : Extents → Except ErrorCode Nat) :
    EndsAlike strict K (· = ·) ((words a >>= fun w => onHeap (Heap.setElementBy x place w)) s)
      ((words a >>= fun w => onHeap (Heap.setElementBy x' place w)) s') := by
  refine Ends.bind (ends_allWords h ha) ?_
  rintro w w' s s' ⟨hw, rfl, rfl⟩
  refine endsAlike_onHeap h (Heap.ends_setElementBy h.world.heap hx place fun id arr hv harr => hw _ ?_)
  refine hwide.imp_right fun hwide => ?_
  by_cases hkind : arr.kind = .complex
  · exact .inr (hwide ⟨id, arr, hv ▸ hreg, harr, hkind⟩)
  · refine .inl ?_
    cases hk : arr.kind with
    | complex => exact absurd hk hkind
    | int => decide
    | float => decide

/-- An element stored. If it is complex, the register has to hold a complex number on both sides. -/
theorem respects_arraySet (h : s.Alike strict K s') {a b c : Int32} (ha : K (placeOf a))
    (hb : K (placeOf b)) (hc : K (placeOf c))
    (hwide : strict = true ∨ (s.HoldsComplexArray c → s.WideAt a)) :
    Respects strict K [] s s'
      (reg c >>= fun x => int b >>= fun i => words a >>= fun w => onHeap (Heap.arraySet x i w)) := by
  refine .of_keep (Ends.bind (ends_reg h hc) ?_)
  rintro x x' s s' ⟨hx, hreg, rfl, rfl⟩
  refine Ends.bind (ends_int h hb) ?_
  rintro i _ s s' ⟨rfl, rfl, rfl⟩
  exact endsAlike_setElement h ha hwide hx hreg _

/-- An element read by several indices. -/
theorem respects_arrayGetMulti (h : s.Alike strict K s') {a b : Int32} (ha : K (placeOf a))
    (his : ∀ i ∈ indexPlaces a b, K i) (c : Int32) (kind : ScalarKind) :
    Respects strict K [placeOf c] s s'
      (indices a b >>= fun is => reg a >>= fun x => onHeap (Heap.arrayGetMulti x is) >>= fun v =>
        setScalar r c kind v.words) := by
  refine .of_write (Ends.bind (ends_indices h his) ?_)
  rintro is _ _ _ ⟨rfl, rfl, rfl⟩
  refine Ends.bind (ends_reg h ha) ?_
  rintro x x' _ _ ⟨hx, -, rfl, rfl⟩
  refine Ends.bind (endsAlike_agree h (Heap.agree_elementBy hx _)) ?_
  rintro v _ t t' ⟨rfl, ht⟩
  exact endsAlike_setScalar ht c .rfl'

/-- An element stored by several indices. -/
theorem respects_arraySetMulti (h : s.Alike strict K s') {a b c : Int32} (ha : K (placeOf a))
    (hc : K (placeOf c)) (his : ∀ i ∈ indexPlaces c b, K i)
    (hwide : strict = true ∨ (s.HoldsComplexArray c → s.WideAt a)) :
    Respects strict K [] s s'
      (indices c b >>= fun is => reg c >>= fun x => words a >>= fun w =>
        onHeap (Heap.arraySetMulti x is w)) := by
  refine .of_keep (Ends.bind (ends_indices h his) ?_)
  rintro is _ s s' ⟨rfl, rfl, rfl⟩
  refine Ends.bind (ends_reg h hc) ?_
  rintro x x' s s' ⟨hx, hreg, rfl, rfl⟩
  exact endsAlike_setElement h ha hwide hx hreg _

/-- An item of a list. -/
theorem respects_listGet (h : s.Alike strict K s') {a b : Int32} (ha : K (placeOf a))
    (hb : K (placeOf b)) (c : Int32) (expected : ValueType → Option Tag) :
    Respects strict K [placeOf c] s s'
      (reg a >>= fun x => int b >>= fun i => onHeap (Heap.listItem x i) >>= fun item =>
        typeOf r c >>= fun t => checkTag item (expected t) >>= fun _ => copyTo c item) := by
  refine .of_write (Ends.bind (ends_reg h ha) ?_)
  rintro x x' _ _ ⟨hx, -, rfl, rfl⟩
  refine Ends.bind (ends_int h hb) ?_
  rintro i _ _ _ ⟨rfl, rfl, rfl⟩
  refine Ends.bind (endsAlike_agree h (Heap.agree_listItem hx i)) fun item item' t t' ⟨hitem, ht⟩ => ?_
  exact endsAlike_copyChecked ht hitem c expected

/-- A slot outside the register file read as a scalar. -/
theorem respects_slotGet (h : s.Alike strict K s') {p : Place} (hp : ∀ i ∈ p.base?, K i) (c : Int32)
    (kind : ScalarKind) (hwide : strict = true ∨ kind ≠ .complex ∨ s.WidePlace p) :
    Respects strict K [placeOf c] s s'
      (read p >>= fun v => setScalar r c kind v.words) := by
  have hread := (endsAlike_read h hp).and_left fun v t hv => hv
  refine .of_write (Ends.bind hread fun v v' t t' ⟨⟨hv, ht⟩, hok⟩ => ?_)
  exact endsAlike_setScalar ht c (hv.same (hwide.imp_right fun h => h.imp_right fun hw => hw v t hok))

/-- A register stored in a slot outside the register file. -/
theorem respects_slotSet (h : s.Alike strict K s') {a : Int32} (ha : K (placeOf a)) {p : Place}
    (hp : ∀ i ∈ p.base?, K i) (hreg : ∀ i, p ≠ .register i) :
    Respects strict K [] s s' (reg a >>= fun v => write p v) := by
  refine .of_keep (Ends.bind (ends_reg h ha) ?_)
  rintro v v' _ _ ⟨hv, -, rfl, rfl⟩
  exact endsAlike_write_place h hp hreg hv

/-- An item of a tuple of any kind. -/
theorem respects_tupleGetAny (h : s.Alike strict K s') {a : Int32} (ha : K (placeOf a)) (i : Nat)
    (c : Int32) :
    Respects strict K [placeOf c] s s'
      (read (.item .tuple (placeOf a) i) >>= fun item => typeOf r c >>= fun t =>
        checkTag item t.tag? >>= fun _ => copyTo c item) := by
  have hbase : ∀ j ∈ (Place.item .tuple (placeOf a) i).base?, K j := by
    rintro j ⟨⟩
    exact ha
  refine .of_write (Ends.bind (endsAlike_read h hbase) fun item item' t t' ⟨hitem, ht⟩ => ?_)
  exact endsAlike_copyChecked ht hitem c ValueType.tag?

/-- An item of a tuple replaced by any value. -/
theorem respects_tupleSetAny (h : s.Alike strict K s') {a c : Int32} (ha : K (placeOf a))
    (hc : K (placeOf c)) (i : Nat) :
    Respects strict K [] s s'
      (reg a >>= fun v => typeOf r c >>= fun t => checkTag v (t.itemTag? i) >>= fun _ =>
        write (.item .tuple (placeOf c) i) v) := by
  refine .of_keep (Ends.bind (ends_reg h ha) ?_)
  rintro v v' _ _ ⟨hv, -, rfl, rfl⟩
  refine Ends.bind (ends_typeOf h c) ?_
  rintro t _ _ _ ⟨rfl, rfl, rfl⟩
  refine Ends.bind (endsAlike_checkTag h hv _) fun _ _ t t' ⟨_, ht⟩ => ?_
  refine endsAlike_write_place ht ?_ (fun _ => Place.noConfusion) hv
  rintro j ⟨⟩
  exact hc

/-- An item of a list replaced. -/
theorem respects_listSet (h : s.Alike strict K s') {a b c : Int32} (ha : K (placeOf a))
    (hb : K (placeOf b)) (hc : K (placeOf c)) :
    Respects strict K [] s s'
      (reg c >>= fun x => int b >>= fun i => reg a >>= fun v => onHeap (Heap.listSet x i v)) := by
  refine .of_keep (Ends.bind (ends_reg h hc) ?_)
  rintro x x' _ _ ⟨hx, -, rfl, rfl⟩
  refine Ends.bind (ends_int h hb) ?_
  rintro i _ _ _ ⟨rfl, rfl, rfl⟩
  refine Ends.bind (ends_reg h ha) ?_
  rintro v v' _ _ ⟨hv, -, rfl, rfl⟩
  exact endsAlike_agree h (Heap.agree_listSet hx i hv)

/-- A line printed. -/
theorem respects_print (h : s.Alike strict K s') {a : Int32} (ha : K (placeOf a)) :
    Respects strict K [] s s'
      (reg a >>= fun v => onHeap (Heap.text v) >>= fun text =>
        modify fun ⟨frame, names, heap, output, random⟩ =>
          ⟨frame, names, heap, output ++ text ++ "\n", random⟩) := by
  refine .of_keep (Ends.bind (ends_reg h ha) ?_)
  rintro v v' _ _ ⟨hv, -, rfl, rfl⟩
  refine Ends.bind (endsAlike_agree h (Heap.agree_text hv)) ?_
  rintro text _ t t' ⟨rfl, ht⟩
  refine ⟨rfl, ht.registers, { ht.world with output := ?_ }⟩
  exact congrArg (· ++ text ++ "\n") ht.world.output

/-- **What an instruction does respects being alike**, if the registers it reads are alike and complex operands are
complex. -/
theorem respects_effect (h : s.Alike strict K s') {ins : Instruction} (hread : ∀ i ∈ ins.reads, K i)
    (hwide : strict = true ∨ ins.ReadsWide s) :
    Respects strict K ins.writes s s' (effect r ins) := by
  obtain ⟨op, a, b, c, line⟩ := ins
  have hunary : op.layout = .unaryAC → K (placeOf a) := fun hop => by
    simpa [Instruction.reads, hop] using hread
  have hbinary : op.layout = .binaryABC → K (placeOf a) ∧ K (placeOf b) := fun hop => by
    simpa [Instruction.reads, hop] using hread
  have hstore : op.layout = .staticSet → K (placeOf a) ∧ K (placeOf c) := fun hop => by
    simpa [Instruction.reads, hop] using hread
  have hthree : op.layout = .indexSet ∨ op.layout = .indexUpdate →
      K (placeOf a) ∧ K (placeOf b) ∧ K (placeOf c) := by
    rintro (hop | hop) <;> simpa [Instruction.reads, hop] using hread
  cases op with
  | nop | goto | test | switch | ret => exact .of_keep (endsAlike_pure h rfl)
  | caseEntry | callSegment => exact .throw h _ _
  | data => exact respects_data h _
  | getConst | getConstString => exact respects_copyConstant h b c
  | getConstScalar k =>
    refine .of_write (Ends.bind (ends_constant h b) ?_)
    rintro v _ _ _ ⟨rfl, rfl, rfl⟩
    exact endsAlike_setScalar h c .rfl'
  | move | moveString => exact respects_copy h (hunary rfl) c
  | moveScalar k =>
    refine .of_write (endsAlike_unary h (hunary rfl) k k ?_ fun _ _ hw => hw)
    exact hwide.imp_right fun hw => not_or_of_imp (by rintro rfl; exact hw)
  | convert v =>
    refine .of_write (endsAlike_unary h (hunary rfl) v.source v.target (.inr (.inl ?_)) fun w w' hw => ?_)
    · cases v <;> decide
    · rw [hw.convert]
      exact .rfl'
  | unary op =>
    refine .of_write (endsAlike_unary h (hunary rfl) op.kind op.kind ?_ fun w w' hw => ?_)
    · by_cases hop : op = .negComplex
      · subst hop
        exact hwide.imp_right .inr
      · refine .inr (.inl ?_)
        cases op <;> first | exact absurd rfl hop | decide
    · rw [hw.unary]
      exact .rfl'
  | intArith op => exact respects_intArith h op (hbinary rfl).1 (hbinary rfl).2 c
  | intBits op => exact .of_write (endsAlike_intBinary h (hbinary rfl).1 (hbinary rfl).2 .int _)
  | logic op =>
    refine .of_write (endsAlike_binary h (hbinary rfl).1 (hbinary rfl).2 .bool .bool ?_ ?_)
    · exact .inr (.inl (by decide))
    · intro w w' z z' hw hz
      rw [hw.bool_eq, hz.bool_eq]
  | floatArith op =>
    refine .of_write (endsAlike_binary h (hbinary rfl).1 (hbinary rfl).2 .float .float ?_ ?_)
    · exact .inr (.inl (by decide))
    · intro w w' z z' hw hz
      rw [hw.1, hz.1]
  | math =>
    have hb : K (placeOf b) := hread _ (List.mem_singleton_self _)
    unfold effect Machine.effect
    dsimp only
    split
    · exact respects_math h _ hb c
    · exact .throw h _ _
  | complexArith op =>
    refine .of_write (endsAlike_binary h (hbinary rfl).1 (hbinary rfl).2 .complex .complex ?_ ?_)
    · exact hwide.imp_right .inr
    · intro w w' z z' hw hz
      rw [hw.eq_of_complex, hz.eq_of_complex]
  | compareInt rel => exact .of_write (endsAlike_intBinary h (hbinary rfl).1 (hbinary rfl).2 .bool _)
  | compareFloat rel =>
    refine .of_write (endsAlike_binary h (hbinary rfl).1 (hbinary rfl).2 .float .bool ?_ ?_)
    · exact .inr (.inl (by decide))
    · intro w w' z z' hw hz
      rw [hw.1, hz.1]
  | compareComplex rel =>
    refine .of_write (endsAlike_binary h (hbinary rfl).1 (hbinary rfl).2 .complex .bool ?_ ?_)
    · exact hwide.imp_right .inr
    · intro w w' z z' hw hz
      rw [hw.eq_of_complex, hz.eq_of_complex]
  | compareString rel => exact respects_compareString h rel (hbinary rfl).1 (hbinary rfl).2 c
  | arith op =>
    exact respects_heapBinary h (hbinary rfl).1 (hbinary rfl).2 c
      fun _ _ _ _ => Heap.agree_genericArith op
  | concat =>
    exact respects_heapBinary h (hbinary rfl).1 (hbinary rfl).2 c fun _ _ _ _ => Heap.agree_concat
  | assignAll =>
    obtain ⟨ha, hb, hc⟩ := hthree (.inl rfl)
    exact respects_assignAll h ha hb hc
  | charAt =>
    exact respects_heapIndex h (hbinary rfl).1 (hbinary rfl).2 c .int _
      fun _ _ i hx => Heap.agree_charAt hx i
  | setChar =>
    obtain ⟨ha, hb, hc⟩ := hthree (.inr rfl)
    exact respects_setChar h ha hb hc
  | size of => exact respects_size h (hunary rfl) c of
  | arrayGet k =>
    exact respects_heapIndex h (hbinary rfl).1 (hbinary rfl).2 c k.scalar Value.words
      fun _ _ i hx => Heap.agree_elementBy hx _
  | arraySet k =>
    obtain ⟨ha, hb, hc⟩ := hthree (.inl rfl)
    exact respects_arraySet h ha hb hc hwide
  | arrayGetMulti k =>
    refine respects_arrayGetMulti h (hread _ List.mem_cons_self) ?_ c k.scalar
    exact fun i hi => hread i (List.mem_cons_of_mem _ hi)
  | arraySetMulti k =>
    obtain ⟨ha, hc, his⟩ : K (placeOf a) ∧ K (placeOf c) ∧ ∀ i ∈ indexPlaces c b, K i := by
      simpa only [Instruction.reads, Opcode.layout, List.forall_mem_cons] using hread
    exact respects_arraySetMulti h ha hc his hwide
  | listGet k =>
    exact respects_listGet h (hbinary rfl).1 (hbinary rfl).2 c fun t => some (t.listItemTag k)
  | listSet k =>
    obtain ⟨ha, hb, hc⟩ := hthree (.inl rfl)
    exact respects_listSet h ha hb hc
  | tupleGetAny => exact respects_tupleGetAny h (hread _ (List.mem_singleton_self _)) _ c
  | tupleSetAny => exact respects_tupleSetAny h (hstore rfl).1 (hstore rfl).2 _
  | tupleGet k | getField k =>
    refine respects_slotGet (p := .item _ (placeOf a) (placeOf b)) h ?_ c k ?_
    · rintro _ ⟨⟩
      exact hread _ (List.mem_singleton_self _)
    · exact hwide.imp_right fun hw => not_or_of_imp (by rintro rfl; exact hw)
  | tupleSet k | setField k =>
    refine respects_slotSet (p := .item _ (placeOf c) (placeOf b)) h (hstore rfl).1 ?_ fun _ => Place.noConfusion
    rintro _ ⟨⟩
    exact (hstore rfl).2
  | getVar storage k =>
    refine respects_slotGet h ?_ c k ?_
    · cases storage <;> rintro _ ⟨⟩
    · exact hwide.imp_right fun hw => not_or_of_imp (by rintro rfl; exact hw)
  | setVar storage k =>
    have ha : K (placeOf a) := hread _ (List.mem_singleton_self _)
    refine respects_slotSet h ha ?_ ?_
    · cases storage <;> rintro _ ⟨⟩
    · cases storage <;> exact fun _ => Place.noConfusion
  | print => exact respects_print h (hread _ (List.mem_singleton_self _))

/-! ### Control -/

/-- A test comes out the same. -/
theorem ends_testHolds (h : s.Alike strict K s') (kind : TestKind) {x : Int32} (hx : K (placeOf x)) :
    Ends (fun b b' t t' => b = b' ∧ t = s ∧ t' = s') (State.WorldAlike strict)
      (testHolds kind x s) (testHolds kind x s') := by
  refine Ends.bind (ends_reg h hx) ?_
  rintro v v' s s' ⟨hv, -, rfl, rfl⟩
  cases kind with
  | bool => exact ⟨by rw [Words.bool, hv.lo_eq, Words.bool], rfl, rfl⟩
  | int => exact ⟨by rw [Words.bool, hv.lo_eq, Words.bool], rfl, rfl⟩
  | float => exact ⟨by rw [hv.lo_eq], rfl, rfl⟩
  | any => exact ⟨Heap.truthy_eq h.world.heap hv, rfl, rfl⟩

/-- A case table is searched with the same outcome. -/
theorem ends_caseTarget (h : s.Alike strict K s') (d : Int64) (entries : List Instruction) :
    Ends (fun j j' t t' => j = j' ∧ t = s ∧ t' = s') (State.WorldAlike strict)
      (caseTarget? r d entries s) (caseTarget? r d entries s') := by
  induction entries with
  | nil => exact ⟨rfl, rfl, rfl⟩
  | cons entry rest ih =>
    refine Ends.bind (ends_constant h entry.a) ?_
    rintro k _ s s' ⟨rfl, rfl, rfl⟩
    split
    · exact ⟨rfl, rfl, rfl⟩
    · exact ih

end Step

/-- Control goes the same way, and a returned value is alike. -/
inductive Flow.Alike (strict : Bool) : Flow → Flow → Prop
  | next : Alike strict .next .next
  | jump (target : Nat) : Alike strict (.jump target) (.jump target)
  | ret {v v' : Value} (value : v.Alike strict v') : Alike strict (.ret v) (.ret v')

section

open Exec Step

variable {strict : Bool} {K : Nat → Prop} {s s' : State} {r : Routine}

/-- Transfers of control go the same way. -/
theorem endsAlike_dispatch (h : s.Alike strict K s') (i : Nat) {ins : Instruction}
    (ha : K (placeOf ins.a)) :
    EndsAlike strict K (Flow.Alike strict) (dispatch r i ins s) (dispatch r i ins s') := by
  refine Ends.bind (ends_reg h ha) ?_
  rintro v v' s s' ⟨hv, -, rfl, rfl⟩
  unfold select
  dsimp only
  split
  · exact endsAlike_throw h _
  · rw [← hv.int?_eq]
    cases v.int? with
    | none => exact endsAlike_pure h (.jump _)
    | some d =>
      refine Ends.bind (ends_caseTarget h d _) ?_
      rintro j _ _ _ ⟨rfl, rfl, rfl⟩
      exact endsAlike_pure h (.jump _)

/-- A return, written out. -/
theorem step_of_ret (i : Nat) {ins : Instruction} (h : ins.opcode = .ret) : step r i ins =
    if ins.b = 0 then pure (.ret .none)
    else reg ins.a >>= fun v => onHeap (Heap.clone v) >>= fun v => pure (.ret v) := by
  unfold step Machine.step
  rw [h]
  rfl

/-- **One instruction on states alike on what it reads**: the same failure, or control goes the same
way in states that are alike also on what it wrote. -/
theorem endsAlike_step (h : s.Alike strict K s') (i : Nat) {ins : Instruction}
    (hread : ∀ i ∈ ins.reads, K i) (hwide : strict = true ∨ ins.ReadsWide s) :
    EndsAlike strict (fun j => K j ∨ j ∈ ins.writes) (Flow.Alike strict) (step r i ins s)
      (step r i ins s') := by
  have heffect : EndsAlike strict (fun j => K j ∨ j ∈ ins.writes) (· = ·) (effect r ins s)
    (effect r ins s') := respects_effect h hread hwide
  have hkeep : ins.writes = [] → ∀ j, K j ∨ j ∈ ins.writes → K j := fun hnone j hj =>
    hj.resolve_right (by simp [hnone])
  obtain ⟨op, a, b, c, line⟩ := ins
  cases op with
  | goto => exact endsAlike_pure (h.mono (hkeep rfl)) (.jump _)
  | test kind =>
    refine Ends.bind (ends_testHolds h kind (hread _ (List.mem_singleton_self _))) ?_
    rintro holds _ _ _ ⟨rfl, rfl, rfl⟩
    cases holds with
    | true => exact endsAlike_pure (h.mono (hkeep rfl)) .next
    | false => exact endsAlike_pure (h.mono (hkeep rfl)) (.jump _)
  | switch =>
    refine (endsAlike_dispatch h i (hread _ (List.mem_singleton_self _))).mono ?_ fun _ _ hf => hf
    exact fun _ _ _ _ ⟨hflow, ht⟩ => ⟨hflow, ht.mono (hkeep rfl)⟩
  | ret =>
    by_cases hb : b = 0
    · rw [step_of_ret i rfl, if_pos hb]
      exact endsAlike_pure (h.mono (hkeep rfl)) (.ret (.refl _))
    · have ha : K (placeOf a) := hread _ (by simp [Instruction.reads, Opcode.layout, hb])
      rw [step_of_ret i rfl, if_neg hb]
      refine Ends.bind (ends_reg h ha) ?_
      rintro v v' _ _ ⟨hv, -, rfl, rfl⟩
      refine Ends.bind (endsAlike_agree h (Heap.agree_clone hv)) fun _ _ t t' ⟨hv, ht⟩ => ?_
      exact endsAlike_pure (ht.mono (hkeep rfl)) (.ret hv)
  | _ => exact Ends.bind heffect fun _ _ _ _ ⟨_, ht⟩ => ⟨.next, ht⟩

end

end RegisterVM
