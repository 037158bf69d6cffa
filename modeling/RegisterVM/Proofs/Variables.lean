import RegisterVM.Proofs.Conformance
import RegisterVM.Proofs.Lowering

/-!
# Variables and registers

While compiled code runs, the interpreter's register file is spread over variables and slots.
`Mirrors r plan V K s a` says what an activation `a` of compiled code has of an interpreter's state `s`:
the variables in `V` and the slots in `K` are current, every planned register of the interpreter holds a
scalar of its tag, and everything outside the register file is alike.

| operation | afterwards current |
| --- | --- |
| assign a variable | the variable; the slot too if it is stored through |
| store a variable into its slot | the slot, if the variable was |
| write a slot and reload it | both |
-/

namespace RegisterVM

/-! ### Actions and the register file -/

namespace Exec

/-- An action that leaves the register file alone, whether or not it fails. -/
structure KeepsRegisters {α : Type} (m : Exec α) : Prop where
  ok : ∀ {s a t}, m s = .ok a t → t.frame.registers = s.frame.registers
  error : ∀ {s e t}, m s = .error e t → t.frame.registers = s.frame.registers

namespace KeepsRegisters

variable {α β : Type}

/-- In sequence, registers are kept if both actions keep them. -/
theorem bind {m : Exec α} {f : α → Exec β} (hm : KeepsRegisters m) (hf : ∀ a, KeepsRegisters (f a)) :
    KeepsRegisters (m >>= f) := by
  constructor
  · intro s b t h
    obtain ⟨a, u, hu, ht⟩ := exists_of_bind_eq_ok h
    rw [(hf a).ok ht, hm.ok hu]
  · intro s e t h
    change EStateM.bind m f s = _ at h
    unfold EStateM.bind at h
    cases hs : m s with
    | ok a u =>
      rw [hs] at h
      rw [(hf a).error h, hm.ok hs]
    | error e' u =>
      rw [hs] at h
      cases h
      exact hm.error hs

/-- Returning keeps registers. -/
theorem pure (a : α) : KeepsRegisters (pure a : Exec α) := by
  constructor <;> rintro _ _ _ ⟨⟩
  rfl

/-- So does failing. -/
theorem throw (f : Failure) : KeepsRegisters (throw f : Exec α) := by
  constructor <;> rintro _ _ _ ⟨⟩
  rfl

/-- So does reading the state. -/
theorem get : KeepsRegisters (MonadState.get : Exec State) := by
  constructor <;> rintro _ _ _ ⟨⟩
  rfl

/-- So does a change of anything else. -/
theorem modify {f : State → State} (hf : ∀ s, (f s).frame.registers = s.frame.registers) :
    KeepsRegisters (modify f : Exec Unit) := by
  constructor <;> rintro _ _ _ ⟨⟩
  exact hf _

/-- So does an action on the heap. -/
theorem onHeap (m : HeapM α) : KeepsRegisters (onHeap m) := by
  constructor
  all_goals
    intro s x t h
    rw [onHeap_eq] at h
    cases hm : m s.heap <;> rw [hm] at h <;> cases h
    rfl

/-- So does reading a register. -/
theorem register (i : Nat) : KeepsRegisters (register i) := by
  refine .bind .get fun s => ?_
  cases s.frame.registers[i]? with
  | none => exact .throw _
  | some v => exact .pure v

/-- So does reading a row of slots. -/
theorem slotOf (slots : Array Value) (i : Nat) : KeepsRegisters (slotOf slots i) := by
  unfold Exec.slotOf
  cases slots[i]? with
  | none => exact .throw _
  | some v => exact .pure v

/-- So does reading a place. -/
theorem read (p : Place) : KeepsRegisters (read p) := by
  cases p with
  | register i => exact .register i
  | receiver i => exact .bind .get fun s => .onHeap _
  | statics i => exact .bind .get fun s => .slotOf _ _
  | globals i => exact .bind .get fun s => .slotOf _ _
  | outer depth i =>
    refine .bind .get fun s => ?_
    cases s.frame.outer[depth]? with
    | none => exact .throw _
    | some registers => exact .slotOf _ _
  | item kind q i => exact .bind (.register q) fun v => .onHeap _

/-- Overwriting a place that is no register keeps registers. -/
theorem overwrite {p : Place} (hreg : ∀ i, p ≠ .register i) (f : Value → Value) :
    KeepsRegisters (overwrite p f) := by
  cases p with
  | register i => exact absurd rfl (hreg i)
  | receiver i => exact .bind .get fun s => .onHeap _
  | statics i => exact .modify fun _ => rfl
  | globals i => exact .modify fun _ => rfl
  | outer depth i => exact .modify fun _ => rfl
  | item kind q i => exact .bind (.register q) fun v => .onHeap _

/-- Storing into a place that is no register keeps registers. -/
theorem write {p : Place} (hreg : ∀ i, p ≠ .register i) (v : Value) : KeepsRegisters (write p v) :=
  .bind (.read p) fun _ => .bind (.onHeap _) fun _ => .bind (.overwrite hreg _) fun _ => .onHeap _

end KeepsRegisters

/-- An action that sets one register and does nothing else to the register file. -/
def SetsRegister (m : Exec Unit) (i : Nat) (v : Value) : Prop :=
  ∀ s, i < s.frame.registers.size →
    ∃ t, m s = .ok () t ∧ t.frame.registers = s.frame.registers.modify i fun _ => v

/-- A register of the frame can be read. -/
theorem register_of_lt {s : State} {i : Nat} (h : i < s.frame.registers.size) :
    ∃ v, register i s = .ok v s := by
  rw [register_eq, Array.getElem?_eq_getElem h]
  exact ⟨_, rfl⟩

/-- Overwriting a register puts the value there. -/
theorem setsRegister_overwrite (i : Nat) (v : Value) :
    SetsRegister (overwrite (.register i) fun _ => v) i v := fun _ _ => ⟨_, rfl, rfl⟩

/-- So does handing the value over. -/
theorem setsRegister_put (i : Nat) (v : Value) : SetsRegister (put (.register i) v) i v := by
  intro s hi
  obtain ⟨old, hold⟩ := register_of_lt hi
  refine ⟨_, bind_of_ok (m := register i) hold, rfl⟩

/-- So does storing a copy. -/
theorem setsRegister_write (i : Nat) (v : Value) : SetsRegister (write (.register i) v) i v := by
  intro s hi
  obtain ⟨old, hold⟩ := register_of_lt hi
  refine ⟨_, bind_of_ok (m := register i) hold, rfl⟩

end Exec

/-- One register set. -/
def State.setRegister (s : State) (i : Nat) (v : Value) : State :=
  { s with frame := { s.frame with registers := s.frame.registers.modify i fun _ => v } }

/-- Setting a register leaves the others as they are. -/
theorem State.registers_setRegister (s : State) (i : Nat) (v : Value) (j : Nat) :
    (s.setRegister i v).frame.registers[j]? =
      if i = j then (s.frame.registers[j]?).map fun _ => v else s.frame.registers[j]? :=
  Array.getElem?_modify

/-- A scalar is replaced without an account of references. -/
theorem Exec.put_of_scalar {s : State} {i : Nat} {tag : ScalarTag} {w : Words}
    (hold : s.frame.registers[i]? = some (.scalar tag w)) (v : Value) :
    Exec.put (.register i) v s = .ok () (s.setRegister i v) := by
  have hread : Exec.register i s = .ok (.scalar tag w) s := by rw [register_eq, hold]
  exact bind_of_ok (m := Exec.register i) hread

/-! ### Scalars under their tags -/

/-- A scalar stored in a register has the tag of its type. -/
theorem ValueType.value_eq {t : ValueType} {tag : ScalarTag} (h : t.scalarTag? = some tag) (w : Words) :
    tag.kind.value t w = .scalar tag (tag.kind.value t w).words := by
  cases t <;> cases h <;> rfl

/-- What is stored under a kind reads as it was, if a truth value was zero or one. -/
theorem ScalarKind.same_value {kind : ScalarKind} (t : ValueType) {w w' : Words}
    (h : Words.Same kind w w') (htruth : kind = .bool → w'.IsTruth) :
    Words.Same kind w (kind.value t w').words := by
  obtain ⟨hlo, hhi⟩ := h
  cases kind with
  | bool =>
    refine ⟨?_, by rintro ⟨⟩⟩
    rw [hlo]
    rcases htruth rfl with h0 | h1
    · simp [value, Value.ofBool, Value.words, Words.ofBool, Words.bool, h0]
    · simp [value, Value.ofBool, Value.words, Words.ofBool, Words.bool, h1]
  | int =>
    refine ⟨?_, by rintro ⟨⟩⟩
    rw [hlo]
    cases t <;> rfl
  | float => exact ⟨hlo, by rintro ⟨⟩⟩
  | complex => exact ⟨hlo, hhi⟩

/-- The word of a truth value is a truth value. -/
theorem Words.isTruth_ofBool (b : Bool) : (single (ofBool b)).IsTruth := by
  cases b
  · exact .inl rfl
  · exact .inr rfl

/-- A value with a scalar tag is a scalar. -/
theorem Value.exists_scalar_of_tag {v : Value} {tag : ScalarTag} (h : v.tag = tag.tag) :
    ∃ w, v = .scalar tag w := by
  cases v with
  | none => cases tag <;> cases h
  | object kind id => cases kind <;> cases tag <;> cases h
  | scalar t w => cases t <;> cases tag <;> first | exact ⟨w, rfl⟩ | cases h

/-- A scalar stored over a slot is alike to what the interpreter has. -/
theorem Value.alike_restored {tag : ScalarTag} {w w' : Words} (h : Words.Same tag.kind w' w)
    (old : Value) : Value.Alike false (.scalar tag w) (old.restored tag w') := by
  by_cases htag : tag = .complex
  · subst htag
    rw [Words.Same.eq_of_complex h]
    exact .refl _
  · have hrestored : old.restored tag w' = .scalar tag ⟨w'.lo, old.words.hi⟩ := by
      cases tag <;> first | rfl | exact absurd rfl htag
    rw [hrestored]
    exact .scalar rfl htag h.1.symm

/-- A slot into which a scalar was stored holds a scalar. -/
theorem Value.isScalar_restored (old : Value) (tag : ScalarTag) (w : Words) :
    (old.restored tag w).IsScalar := by
  cases tag <;> trivial

/-- The words of a scalar, seen through a value that is alike. -/
theorem Value.Alike.same_of_scalar {tag : ScalarTag} {w : Words} {v : Value}
    (h : Value.Alike false (.scalar tag w) v) : Words.Same tag.kind v.words w := by
  cases h with
  | refl => exact .rfl'
  | scalar _ narrow lo =>
    refine ⟨lo.symm, fun hkind => ?_⟩
    cases tag <;> first | exact absurd rfl narrow | cases hkind

namespace Native

/-- The value of a variable. -/
def Activation.var (a : Activation) (q : Reg) : Words := a.vars.getD q.toNat ⟨0, 0⟩

/-- An action on the state leaves the variables as they are. -/
theorem onState_eq {α : Type} (m : Exec α) (a : Activation) : onState m a =
    match m a.state with
    | .ok x s => .ok x ⟨a.vars, s⟩
    | .error e s => .error e ⟨a.vars, s⟩ := rfl

/-- Storing a scalar into a slot. -/
theorem onState_storeAt {a : Activation} {i : Nat} {v : Value}
    (hv : a.state.frame.registers[i]? = some v) (tag : ScalarTag) (w : Words) :
    onState (storeAt (.register i) tag w) a = .ok () ⟨a.vars, { a.state with
      frame := { a.state.frame with
        registers := a.state.frame.registers.modify i fun old => old.restored tag w } }⟩ := by
  have hread : Exec.read (.register i) a.state = .ok v a.state := by rw [Exec.read, Exec.register_eq, hv]
  have hstore : storeAt (.register i) tag w a.state =
      Exec.overwrite (.register i) (fun old => old.restored tag w) a.state := bind_of_ok hread
  rw [onState_eq, hstore]
  rfl

/-- A planned register has a variable. -/
theorem Plan.lt_width {plan : Plan} {q : Reg} {x : RegPlan} (h : plan.register? q = some x) :
    q.toNat < plan.width := by
  obtain ⟨⟨q', x'⟩, hfind, -⟩ := Option.map_eq_some_iff.1 h
  obtain rfl : q' = q := by simpa using List.find?_some hfind
  have hmem := List.mem_of_find?_eq_some hfind
  have hfold : ∀ (xs : List (Reg × RegPlan)) (n : Nat), (q'.toNat < n ∨ (q', x') ∈ xs) →
      q'.toNat < xs.foldl (fun n y => max n (y.1.toNat + 1)) n := by
    intro xs
    induction xs with
    | nil => exact fun n h => h.resolve_right (by simp)
    | cons y ys ih =>
      intro n h
      refine ih _ ?_
      rcases h with h | h
      · exact .inl (lt_of_lt_of_le h (Nat.le_max_left _ _))
      · rcases List.mem_cons.1 h with rfl | h
        · exact .inl (lt_of_lt_of_le (Nat.lt_succ_self _) (Nat.le_max_right _ _))
        · exact .inr h
  exact hfold plan.registers 0 (.inr hmem)

/-- Setting a variable leaves the others as they are. -/
theorem Activation.var_set {a : Activation} {q : Reg} (hq : q.toNat < a.vars.size) (w : Words) (s : State)
    (q' : Reg) :
    Activation.var ⟨a.vars.setIfInBounds q.toNat w, s⟩ q' = if q' = q then w else a.var q' := by
  unfold Activation.var
  rw [Array.getD_eq_getD_getElem?, Array.getElem?_setIfInBounds]
  by_cases h : q' = q
  · rw [if_pos h, if_pos (by rw [h]), if_pos hq, Option.getD_some]
  · rw [if_neg h, if_neg fun heq => h (UInt16.toNat_inj.1 heq.symm), Array.getD_eq_getD_getElem?]

/-- Operations done in order. -/
def performAll (constants : Array Value) (ops : List Op) : NativeM Unit := ops.forM (Op.perform constants)

section

variable {constants : Array Value} {a b : Activation}

/-- Operations are done one after another, as long as they succeed. -/
theorem performAll_cons {op : Op} (h : op.perform constants a = .ok () b) (ops : List Op) :
    performAll constants (op :: ops) a = performAll constants ops b := bind_of_ok h

/-- The first operation replaced by what it comes to. -/
theorem performAll_cons_eq {op : Op} {m : NativeM Unit} (h : op.perform constants a = m a) (ops : List Op) :
    performAll constants (op :: ops) a = (m >>= fun _ => performAll constants ops) a :=
  bind_eq_of_eq h _

/-- Operations joined are done one after another. -/
theorem performAll_append {ops : List Op} (h : performAll constants ops a = .ok () b) (ops' : List Op) :
    performAll constants (ops ++ ops') a = performAll constants ops' b := by
  induction ops generalizing a with
  | nil =>
    cases h
    rfl
  | cons op ops ih =>
    obtain ⟨_, u, hop, hrest⟩ := exists_of_bind_eq_ok h
    exact (performAll_cons hop _).trans (ih hrest)

end

/-! ### The relation -/

/-- **What an activation has of an interpreter's state**: current variables `V` and slots `K`. -/
structure Mirrors (r : Routine) (plan : Plan) (V K : Nat → Prop) (s : State) (a : Activation) : Prop where
  size : s.frame.registers.size = r.types.size
  width : plan.width ≤ a.vars.size
  vars : ∀ q x, plan.register? q = some x → ∃ w,
    s.frame.registers[q.toNat]? = some (.scalar x.tag w) ∧ (V q.toNat → Words.Same x.kind (a.var q) w)
  alike : s.Alike false K a.state

/-- What is left after a failure: everything outside the register file is alike, and the slots are
there. -/
def Fails (r : Routine) (s : State) (a : Activation) : Prop :=
  s.WorldAlike false a.state ∧ a.state.frame.registers.size = r.types.size

namespace Mirrors

variable {r : Routine} {plan : Plan} {V K V' K' : Nat → Prop} {s : State} {a : Activation}
  {q : Reg} {x : RegPlan}

/-- An activation still mirrors a state if less is asked to be current. -/
theorem mono (h : Mirrors r plan V K s a) (hV : ∀ i, V' i → V i) (hK : ∀ i, K' i → K i) :
    Mirrors r plan V' K' s a := by
  refine ⟨h.size, h.width, fun q x hx => ?_, h.alike.mono hK⟩
  obtain ⟨w, hw, hvar⟩ := h.vars q x hx
  exact ⟨w, hw, fun hq => hvar (hV _ hq)⟩

/-- Compiled code has the registers of the routine for slots. -/
theorem slots (h : Mirrors r plan V K s a) : a.state.frame.registers.size = r.types.size :=
  h.alike.registers.size_eq.symm.trans h.size

/-- Where both fail, the states they fail in are alike. -/
theorem fails (h : Mirrors r plan V K s a) : Fails r s a := ⟨h.alike.world, h.slots⟩

/-- A slot that is current. -/
theorem slot (h : Mirrors r plan V K s a) (hq : q.toNat < r.types.size) (hK : K q.toNat) :
    ∃ v v', s.frame.registers[q.toNat]? = some v ∧ Native.slot q a = .ok v' a ∧ v.Alike false v' := by
  have hv := Array.getElem?_eq_getElem (h.size ▸ hq)
  obtain ⟨v', hv', -⟩ := h.alike.registers.exists_of_some hv
  refine ⟨_, v', hv, ?_, h.alike.alike_of_registers hK hv hv'⟩
  rw [Native.slot, onState_eq, Exec.register_eq, hv']

/-- An action that leaves the register files alone. -/
theorem ends_onState (h : Mirrors r plan V K s a) {α β : Type} {m : Exec α} {m' : Exec β}
    {R : α → β → Prop} (hm : EndsAlike false K R (m s) (m' a.state)) (hkeep : m.KeepsRegisters)
    (hkeep' : m'.KeepsRegisters) :
    Ends (fun x y t b => R x y ∧ Mirrors r plan V K t b) (Fails r) (m s) (onState m' a) := by
  rw [onState_eq]
  cases hs : m s with
  | ok x t =>
    cases hs' : m' a.state with
    | error e u =>
      rw [hs, hs'] at hm
      exact hm.elim
    | ok y u =>
      rw [hs, hs'] at hm
      have hregs := hkeep.ok hs
      exact ⟨hm.1, hregs ▸ h.size, h.width, hregs ▸ h.vars, hm.2⟩
  | error e t =>
    cases hs' : m' a.state with
    | ok y u =>
      rw [hs, hs'] at hm
      exact hm.elim
    | error e' u =>
      rw [hs, hs'] at hm
      exact ⟨hm.1, hm.2, by rw [hkeep'.error hs', h.slots]⟩

/-- Actions on heaps that are alike leave an activation that mirrors the state. -/
theorem ends_onHeap (h : Mirrors r plan V K s a) {α β : Type} {m : HeapM α} {m' : HeapM β}
    {R : α → β → Prop} (hm : Ends (fun x y k k' => R x y ∧ k.Alike false k') (Heap.Alike false)
      (m s.heap) (m' a.state.heap)) :
    Ends (fun x y t b => R x y ∧ Mirrors r plan V K t b) (Fails r) (Exec.onHeap m s)
      (Native.onHeap m' a) :=
  h.ends_onState (Exec.endsAlike_onHeap h.alike hm) (.onHeap m) (.onHeap m')

/-! ### Changing variables and slots -/

/-- The interpreter sets a register that compiled code has nowhere. -/
theorem forget (h : Mirrors r plan V K s a) (hx : plan.register? q = some x) (w : Words) :
    Mirrors r plan (fun i => V i ∧ i ≠ q.toNat) (fun i => K i ∧ i ≠ q.toNat)
      (s.setRegister q.toNat (.scalar x.tag w)) a := by
  refine ⟨?_, h.width, fun q' x' hx' => ?_, h.alike.registers.modify_left ?_ ?_, { h.alike.world with }⟩
  · exact Array.size_modify.trans h.size
  · obtain ⟨w₀, hw₀, hvar⟩ := h.vars q' x' hx'
    rw [State.registers_setRegister]
    by_cases hq : q' = q
    · subst hq
      rw [hx, Option.some.injEq] at hx'
      subst hx'
      rw [if_pos rfl, hw₀]
      exact ⟨w, rfl, fun hV => absurd rfl hV.2⟩
    · rw [if_neg fun heq => hq (UInt16.toNat_inj.1 heq.symm)]
      exact ⟨w₀, hw₀, fun hV => hvar hV.1⟩
  · intro v v' hv hvv
    refine .inr ⟨fun hK => hK.2 rfl, trivial, ?_⟩
    obtain ⟨w₀, hw₀, -⟩ := h.vars q x hx
    rw [hw₀, Option.some.injEq] at hv
    subst hv
    exact hvv.elim (fun halike => halike.isScalar_iff.1 trivial) fun hdead => hdead.2.2
  · rintro i v v' hi (hv | ⟨hK, hscalar⟩)
    · exact .inl hv
    · exact .inr ⟨fun hi' => hK hi'.1, hscalar⟩

/-- The interpreter sets a register, compiled code its variable. -/
theorem assign (h : Mirrors r plan V K s a) (hx : plan.register? q = some x) {w w' : Words}
    (hw : Words.Same x.kind w' w) :
    Mirrors r plan (fun i => V i ∨ i = q.toNat) (fun i => K i ∧ i ≠ q.toNat)
      (s.setRegister q.toNat (.scalar x.tag w)) ⟨a.vars.setIfInBounds q.toNat w', a.state⟩ := by
  have hforget := h.forget hx w
  refine ⟨hforget.size, ?_, fun q' x' hx' => ?_, hforget.alike⟩
  · rw [Array.size_setIfInBounds]
    exact h.width
  · obtain ⟨w₀, hw₀, hvar⟩ := hforget.vars q' x' hx'
    refine ⟨w₀, hw₀, fun hV => ?_⟩
    rw [Activation.var_set (lt_of_lt_of_le (Plan.lt_width hx) h.width)]
    by_cases hq : q' = q
    · subst hq
      obtain ⟨w₁, hw₁, -⟩ := h.vars q' x hx
      rw [State.registers_setRegister, if_pos rfl, hw₁, Option.map_some, Option.some.injEq] at hw₀
      rw [hx, Option.some.injEq] at hx'
      subst hx'
      cases hw₀
      rwa [if_pos rfl]
    · have hne : q'.toNat ≠ q.toNat := fun heq => hq (UInt16.toNat_inj.1 heq)
      rw [if_neg hq]
      exact hvar ⟨hV.resolve_right hne, hne⟩

/-- Storing a variable into its slot makes the slot as current as the variable. -/
theorem storeBack (h : Mirrors r plan V K s a) (constants : Array Value)
    (hx : plan.register? q = some x) :
    ∃ b, (Site.storeBack q x).perform constants a = .ok () b ∧ b.vars = a.vars ∧
      Mirrors r plan V (fun i => if i = q.toNat then V i else K i) s b := by
  obtain ⟨w, hw, hvar⟩ := h.vars q x hx
  obtain ⟨v, hv, -⟩ := h.alike.registers.exists_of_some hw
  refine ⟨_, onState_storeAt hv x.tag (a.var q), rfl, h.size, h.width, h.vars, ?_, { h.alike.world with }⟩
  refine h.alike.registers.modify_right (fun u u' hu huu => ?_) fun i u u' hi huu => ?_
  · rw [hw, Option.some.injEq] at hu
    subst hu
    by_cases hV : V q.toNat
    · exact .inl (Value.alike_restored (hvar hV) u')
    · exact .inr ⟨by simpa using hV, trivial, Value.isScalar_restored _ _ _⟩
  · rcases huu with hu | ⟨hK, hscalar⟩
    · exact .inl hu
    · exact .inr ⟨by simpa [hi] using hK, hscalar⟩

/-- Making a slot current before an operation reads it. -/
theorem sync (h : Mirrors r plan V K s a) (constants : Array Value)
    (hq : ∀ x, plan.register? q = some x → V q.toNat ∧ (plan.syncOps q = [] → K q.toNat))
    (hslot : plan.register? q = none → K q.toNat) :
    ∃ b, performAll constants (plan.syncOps q) a = .ok () b ∧ b.vars = a.vars ∧
      Mirrors r plan V (fun i => K i ∨ i = q.toNat) s b := by
  have hnone : plan.syncOps q = [] → K q.toNat := fun hops => by
    cases hx : plan.register? q with
    | none => exact hslot hx
    | some x => exact (hq x hx).2 hops
  have hstored : ∀ x, plan.register? q = some x → plan.syncOps q = [Site.storeBack q x] →
      ∃ b, performAll constants (plan.syncOps q) a = .ok () b ∧ b.vars = a.vars ∧
        Mirrors r plan V (fun i => K i ∨ i = q.toNat) s b := fun x hx hops => by
    obtain ⟨b, hb, hvars, hmirrors⟩ := h.storeBack constants hx
    refine ⟨b, by rw [hops]; exact performAll_cons hb _, hvars, hmirrors.mono (fun _ hV => hV) ?_⟩
    rintro i (hi | rfl)
    · split
      · rename_i heq
        exact heq ▸ (hq x hx).1
      · exact hi
    · rw [if_pos rfl]
      exact (hq x hx).1
  by_cases hops : plan.syncOps q = []
  · refine ⟨a, by rw [hops]; rfl, rfl, h.mono (fun _ hV => hV) ?_⟩
    rintro i (hi | rfl)
    · exact hi
    · exact hnone hops
  · unfold Plan.syncOps at hops
    split at hops
    · rename_i tag d hx
      exact hstored _ hx (by rw [Plan.syncOps, hx])
    · rename_i tag flush hx
      exact hstored _ hx (by rw [Plan.syncOps, hx])
    · exact absurd rfl hops

/-- Both sides set a register to values that are alike; compiled code then picks it up if it has a
variable. -/
theorem setReload (h : Mirrors r plan V K s a) (constants : Array Value) (hq : q.toNat < r.types.size)
    {m m' : Exec Unit} {v v' : Value}
    (hm : EndsAlike false (fun i => K i ∨ i = q.toNat) (· = ·) (m s) (m' a.state))
    (hset : m.SetsRegister q.toNat v) (hset' : m'.SetsRegister q.toNat v') (hv : v.Alike false v')
    (hscalar : ∀ x, plan.register? q = some x → ∃ w, v = .scalar x.tag w) :
    ∃ t b, m s = .ok () t ∧
      (onState m' >>= fun _ => performAll constants (plan.reloadOps q)) a = .ok () b ∧
      Mirrors r plan (fun i => V i ∨ i = q.toNat) (fun i => K i ∨ i = q.toNat) t b := by
  obtain ⟨t, ht, htregs⟩ := hset s (h.size ▸ hq)
  obtain ⟨u, hu, huregs⟩ := hset' a.state (h.slots ▸ hq)
  rw [ht, hu] at hm
  have hmid : onState m' a = .ok () ⟨a.vars, u⟩ := by rw [onState_eq, hu]
  have hreg : ∀ i, t.frame.registers[i]? =
      if q.toNat = i then (s.frame.registers[i]?).map fun _ => v else s.frame.registers[i]? := fun i => by
    rw [htregs, Array.getElem?_modify]
  have hsize : t.frame.registers.size = r.types.size := by rw [htregs, Array.size_modify, h.size]
  cases hx : plan.register? q with
  | none =>
    refine ⟨t, ⟨a.vars, u⟩, ht, ?_, hsize, h.width, fun q' x' hx' => ?_, hm.2⟩
    · rw [bind_of_ok hmid, Plan.reloadOps, hx]
      rfl
    · obtain ⟨w, hw, hvar⟩ := h.vars q' x' hx'
      have hne : q'.toNat ≠ q.toNat := fun heq => by
        rw [UInt16.toNat_inj.1 heq, hx] at hx'
        cases hx'
      rw [hreg, if_neg (Ne.symm hne)]
      exact ⟨w, hw, fun hV => hvar (hV.resolve_right hne)⟩
  | some x =>
    obtain ⟨w, rfl⟩ := hscalar x hx
    have hslot : Native.slot q ⟨a.vars, u⟩ = .ok v' ⟨a.vars, u⟩ := by
      have hu' : u.frame.registers[q.toNat]? = some v' := by
        rw [huregs, Array.getElem?_modify, if_pos rfl, Array.getElem?_eq_getElem (h.slots ▸ hq)]
        rfl
      rw [Native.slot, onState_eq, Exec.register_eq, hu']
    have hreload : (Op.reload q).perform constants ⟨a.vars, u⟩ =
        .ok () ⟨a.vars.setIfInBounds q.toNat v'.words, u⟩ := bind_of_ok hslot
    refine ⟨t, ⟨a.vars.setIfInBounds q.toNat v'.words, u⟩, ht, ?_, hsize, ?_, fun q' x' hx' => ?_, hm.2⟩
    · rw [bind_of_ok hmid, Plan.reloadOps, hx]
      exact performAll_cons hreload _
    · rw [Array.size_setIfInBounds]
      exact h.width
    · obtain ⟨w₀, hw₀, hvar⟩ := h.vars q' x' hx'
      rw [Activation.var_set (lt_of_lt_of_le (Plan.lt_width hx) h.width), hreg, hw₀]
      by_cases heq : q' = q
      · subst heq
        rw [hx, Option.some.injEq] at hx'
        subst hx'
        rw [if_pos rfl, if_pos rfl]
        exact ⟨w, rfl, fun _ => hv.same_of_scalar⟩
      · have hne : q'.toNat ≠ q.toNat := fun h => heq (UInt16.toNat_inj.1 h)
        rw [if_neg heq, if_neg (Ne.symm hne)]
        exact ⟨w₀, rfl, fun hV => hvar (hV.resolve_right hne)⟩

/-! ### Entering and leaving -/

/-- Before any variable is loaded. -/
theorem start {config : Config} (hplan : IsPlan r config plan) (hs : s.Typed r) {u : State}
    (h : s.Alike false K u) :
    Mirrors r plan (fun _ => False) K s ⟨Array.replicate plan.width ⟨0, 0⟩, u⟩ := by
  refine ⟨hs.size, Array.size_replicate.symm.le, fun q x hx => ?_, h⟩
  obtain ⟨-, htag, -⟩ := hplan.register?_eq_some_iff.1 hx
  obtain ⟨t, ht, htag⟩ := Option.bind_eq_some_iff.1 htag
  obtain ⟨w, hw, -⟩ := hs.exists_scalar ht htag
  exact ⟨w, hw, False.elim⟩

/-- What holds at the first or at another of the listed registers. -/
theorem ite_of_mem_cons {P Q : Nat → Prop} {i j : Nat} {is : List Nat}
    (h : if i ∈ j :: is then P i else Q i) : if i ∈ is then P i else if i = j then P i else Q i := by
  by_cases hmem : i ∈ is
  · rw [if_pos hmem]
    rwa [if_pos (List.mem_cons_of_mem _ hmem)] at h
  · rw [if_neg hmem]
    by_cases heq : i = j
    · rw [if_pos heq]
      rwa [if_pos (heq ▸ List.mem_cons_self)] at h
    · rw [if_neg heq]
      rwa [if_neg fun h => (List.mem_cons.1 h).elim heq hmem] at h

/-- Variables loaded from their slots are as current as the slots. -/
theorem load (h : Mirrors r plan V K s a) (qs : List Reg)
    (hqs : ∀ q ∈ qs, ∃ x, plan.register? q = some x) :
    ∃ b, (qs.forM fun q => Native.slot q >>= fun v => setVar q v.words) a = .ok () b ∧
      b.state = a.state ∧
      Mirrors r plan (fun i => if i ∈ qs.map UInt16.toNat then K i else V i) K s b := by
  induction qs generalizing a V with
  | nil => exact ⟨a, rfl, rfl, h.mono (fun i hi => by simpa using hi) fun _ hK => hK⟩
  | cons q qs ih =>
    obtain ⟨x, hx⟩ := hqs q List.mem_cons_self
    obtain ⟨w, hw, hvar⟩ := h.vars q x hx
    obtain ⟨v, hv, halike⟩ := h.alike.registers.exists_of_some hw
    have hslot : Native.slot q a = .ok v a := by rw [Native.slot, onState_eq, Exec.register_eq, hv]
    have hone : Mirrors r plan (fun i => if i = q.toNat then K i else V i) K s
        ⟨a.vars.setIfInBounds q.toNat v.words, a.state⟩ := by
      refine ⟨h.size, by rw [Array.size_setIfInBounds]; exact h.width, fun q' x' hx' => ?_, h.alike⟩
      obtain ⟨w', hw', hvar'⟩ := h.vars q' x' hx'
      rw [Activation.var_set (lt_of_lt_of_le (Plan.lt_width hx) h.width)]
      by_cases heq : q' = q
      · subst heq
        rw [hx, Option.some.injEq] at hx'
        subst hx'
        refine ⟨w, hw, fun hK => ?_⟩
        rw [if_pos rfl] at hK ⊢
        exact (h.alike.alike_of_registers hK hw hv).same_of_scalar
      · rw [if_neg heq]
        refine ⟨w', hw', fun hV => hvar' ?_⟩
        rwa [if_neg fun h => heq (UInt16.toNat_inj.1 h)] at hV
    obtain ⟨b, hb, hstate, hmirrors⟩ := ih hone fun q hq => hqs q (List.mem_cons_of_mem _ hq)
    refine ⟨b, ?_, hstate, hmirrors.mono (fun i hi => ?_) fun _ hK => hK⟩
    · have hstep : (Native.slot q >>= fun v => setVar q v.words) a =
          .ok () ⟨a.vars.setIfInBounds q.toNat v.words, a.state⟩ := bind_of_ok hslot
      exact (bind_of_ok hstep).trans hb
    · exact ite_of_mem_cons hi

/-- Slots stored from their variables are as current as the variables. -/
theorem flush (h : Mirrors r plan V K s a) (xs : List (Reg × ScalarTag))
    (hxs : ∀ y ∈ xs, ∃ x, plan.register? y.1 = some x ∧ x.tag = y.2) :
    ∃ b, (xs.forM fun (q, tag) => var q >>= fun w => onState (storeAt (.register q.toNat) tag w)) a =
        .ok () b ∧
      Mirrors r plan V (fun i => if i ∈ xs.map (·.1.toNat) then V i else K i) s b := by
  induction xs generalizing a K with
  | nil => exact ⟨a, rfl, h.mono (fun _ hV => hV) fun i hi => by simpa using hi⟩
  | cons y xs ih =>
    obtain ⟨x, hx, htag⟩ := hxs y List.mem_cons_self
    obtain ⟨b, hb, -, hone⟩ := h.storeBack #[] hx
    obtain ⟨c, hc, hmirrors⟩ := ih hone fun y hy => hxs y (List.mem_cons_of_mem _ hy)
    refine ⟨c, ?_, hmirrors.mono (fun _ hV => hV) fun i hi => ?_⟩
    · obtain ⟨q, tag⟩ := y
      cases htag
      exact (bind_of_ok hb).trans hc
    · exact ite_of_mem_cons hi

end Mirrors

end Native

end RegisterVM
