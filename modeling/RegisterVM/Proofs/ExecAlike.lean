import RegisterVM.Machine.Step
import RegisterVM.Proofs.HeapAlike

/-!
# Actions on states that are alike

Two machine states are alike on a set `K` of registers when everything outside the register file is
alike and so are the registers in `K`; a register outside `K` may hold different scalars. Reading a
register of `K`, working on the heap and storing the same thing in both states keep them alike, and a
register that is written joins `K` (`State.Alike.put`, `State.Alike.write`).

When an action fails, what it leaves is only compared outside the registers.
-/

namespace RegisterVM

/-- What two states hold in a register: values that are alike, or any scalars if the register does
not matter. -/
def RegisterAlike (strict : Bool) (K : Nat → Prop) (i : Nat) (v v' : Value) : Prop :=
  v.Alike strict v' ∨ ¬K i ∧ v.IsScalar ∧ v'.IsScalar

/-- Everything outside the register file is alike. -/
structure State.WorldAlike (strict : Bool) (s s' : State) : Prop where
  receiver : s.frame.receiver.Alike strict s'.frame.receiver
  outer : Pointwise (fun _ => SlotsAlike strict) s.frame.outer s'.frame.outer
  statics : SlotsAlike strict s.names.statics s'.names.statics
  globals : SlotsAlike strict s.names.globals s'.names.globals
  heap : s.heap.Alike strict s'.heap
  output : s.output = s'.output
  random : s.random = s'.random

/-- States that are alike on the registers `K`. -/
structure State.Alike (strict : Bool) (K : Nat → Prop) (s s' : State) : Prop where
  registers : Pointwise (RegisterAlike strict K) s.frame.registers s'.frame.registers
  world : s.WorldAlike strict s'

/-- A scalar refers to no object. -/
theorem Value.IsScalar.ref?_eq_none {v : Value} (h : v.IsScalar) : v.ref? = Option.none := by
  cases v with
  | none => rfl
  | scalar => rfl
  | object => exact h.elim

/-- Registers that are alike refer to the same object. -/
theorem RegisterAlike.ref?_eq {strict : Bool} {K : Nat → Prop} {i : Nat} {v v' : Value}
    (h : RegisterAlike strict K i v v') : v.ref? = v'.ref? := by
  rcases h with h | ⟨-, h, h'⟩
  · exact h.ref?_eq
  · rw [h.ref?_eq_none, h'.ref?_eq_none]

namespace State.Alike

variable {strict : Bool} {K L : Nat → Prop} {s s' : State}

/-- States that are alike in some registers are so in fewer. -/
theorem mono (h : s.Alike strict K s') (hL : ∀ i, L i → K i) : s.Alike strict L s' :=
  ⟨h.registers.mono fun i _ _ hv => hv.imp_right fun ⟨hk, hs⟩ => ⟨fun hl => hk (hL i hl), hs⟩, h.world⟩

/-- A register that matters. -/
theorem alike_of_registers (h : s.Alike strict K s') {i : Nat} (hi : K i) {v v' : Value}
    (hv : s.frame.registers[i]? = some v) (hv' : s'.frame.registers[i]? = some v') :
    v.Alike strict v' := by
  obtain ⟨w, hw, hvw⟩ := h.registers.exists_of_some hv
  rw [hv', Option.some.injEq] at hw
  subst hw
  exact hvw.resolve_right fun hk => hk.1 hi

end State.Alike

/-- The register through which a place is reached. -/
def Place.base? : Place → Option Nat
  | .register i | .item _ i _ => some i
  | _ => none

/-- Two actions end alike: with results related by `R` in states alike on `K`, or with the same
failure in states alike outside the registers. -/
abbrev EndsAlike (strict : Bool) (K : Nat → Prop) {α β : Type} (R : α → β → Prop) :
    EStateM.Result Failure State α → EStateM.Result Failure State β → Prop :=
  Ends (fun a b s s' => R a b ∧ s.Alike strict K s') (State.WorldAlike strict)

namespace Exec

variable {strict : Bool} {K : Nat → Prop} {s s' : State} {α β : Type} {R : α → β → Prop}

/-- Returning ends alike. -/
theorem endsAlike_pure (h : s.Alike strict K s') {a : α} {b : β} (hab : R a b) :
    EndsAlike strict K R ((pure a : Exec α) s) ((pure b : Exec β) s') := ⟨hab, h⟩

/-- Throwing ends alike. -/
theorem endsAlike_throw (h : s.Alike strict K s') (f : Failure) :
    EndsAlike strict K R ((throw f : Exec α) s) ((throw f : Exec β) s') := ⟨rfl, h.world⟩

/-! ### Registers -/

/-- What reading a register does, by what the register holds. -/
theorem register_eq (s : State) (i : Nat) : register i s =
    match s.frame.registers[i]? with
    | some v => .ok v s
    | none => .error (.fault (.register i)) s := by
  change (match s.frame.registers[i]? with
    | some v => (pure v : Exec Value)
    | none => (throw (Failure.fault (.register i)) : Exec Value)) s = _
  cases s.frame.registers[i]? <;> rfl

/-- Reading a register in which the states are alike. -/
theorem endsAlike_register (h : s.Alike strict K s') {i : Nat} (hi : K i) :
    Ends (fun v v' t t' => v.Alike strict v' ∧ s.frame.registers[i]? = some v ∧ t = s ∧ t' = s')
      (State.WorldAlike strict) (register i s) (register i s') := by
  rw [register_eq, register_eq]
  cases hv : s.frame.registers[i]? with
  | none =>
    rw [h.registers.eq_none hv]
    exact ⟨rfl, h.world⟩
  | some v =>
    obtain ⟨v', hv', -⟩ := h.registers.exists_of_some hv
    rw [hv']
    exact ⟨h.alike_of_registers hi hv hv', rfl, rfl, rfl⟩

/-- The old contents of a register, whether or not they matter. -/
theorem ends_oldRegister (h : s.Alike strict K s') (i : Nat) :
    Ends (fun v v' t t' => v.ref? = v'.ref? ∧ t = s ∧ t' = s') (State.WorldAlike strict)
      (register i s) (register i s') := by
  rw [register_eq, register_eq]
  cases hv : s.frame.registers[i]? with
  | none =>
    rw [h.registers.eq_none hv]
    exact ⟨rfl, h.world⟩
  | some v =>
    obtain ⟨v', hv', hvv⟩ := h.registers.exists_of_some hv
    rw [hv']
    exact ⟨hvv.ref?_eq, rfl, rfl⟩

/-! ### The heap -/

/-- What an action on the heap does to the state. -/
theorem onHeap_eq (m : HeapM α) (s : State) : onHeap m s =
    match m s.heap with
    | .ok a k => .ok a { s with heap := k }
    | .error e k => .error (.code e) { s with heap := k } := rfl

/-- Actions that end alike on the heap do so on the state. -/
theorem endsAlike_onHeap (h : s.Alike strict K s') {m : HeapM α} {m' : HeapM β}
    (hm : Ends (fun a b k k' => R a b ∧ k.Alike strict k') (Heap.Alike strict)
      (m s.heap) (m' s'.heap)) :
    EndsAlike strict K R (onHeap m s) (onHeap m' s') := by
  have hworld : ∀ {k k' : Heap}, k.Alike strict k' →
      State.WorldAlike strict { s with heap := k } { s' with heap := k' } := fun hk =>
    { h.world with heap := hk }
  rw [onHeap_eq, onHeap_eq]
  cases hs : m s.heap with
  | ok a k =>
    cases hs' : m' s'.heap with
    | ok b k' =>
      rw [hs, hs'] at hm
      exact ⟨hm.1, h.registers, hworld hm.2⟩
    | error e k' =>
      rw [hs, hs'] at hm
      exact hm.elim
  | error e k =>
    cases hs' : m' s'.heap with
    | ok b k' =>
      rw [hs, hs'] at hm
      exact hm.elim
    | error e' k' =>
      rw [hs, hs'] at hm
      exact ⟨congrArg Failure.code hm.1, hworld hm.2⟩

/-- A heap operation that does the same on all heaps that are alike. -/
theorem endsAlike_agree (h : s.Alike strict K s') {m : HeapM α} {m' : HeapM β}
    (hm : Heap.Agree strict R m m') : EndsAlike strict K R (onHeap m s) (onHeap m' s') :=
  endsAlike_onHeap h (hm _ _ h.world.heap)

/-- A tag check passes or fails on values that are alike. -/
theorem checkTag_cases {v v' : Value} (hv : v.Alike strict v') (expected : Option Tag) :
    (v.hasTag expected = true ∧ checkTag v expected = pure () ∧ checkTag v' expected = pure ()) ∨
      (checkTag v expected = throw (.code .value) ∧ checkTag v' expected = throw (.code .value)) := by
  unfold checkTag
  rw [← hv.hasTag_eq]
  by_cases h : v.hasTag expected = true
  · rw [if_pos h]
    exact .inl ⟨h, rfl, rfl⟩
  · rw [if_neg h]
    exact .inr ⟨rfl, rfl⟩

/-- Checking tags of values that are alike. -/
theorem endsAlike_checkTag (h : s.Alike strict K s') {v v' : Value} (hv : v.Alike strict v')
    (expected : Option Tag) :
    EndsAlike strict K (· = ·) (checkTag v expected s) (checkTag v' expected s') := by
  rcases checkTag_cases hv expected with ⟨-, hleft, hright⟩ | ⟨hleft, hright⟩ <;> rw [hleft, hright]
  · exact endsAlike_pure h rfl
  · exact endsAlike_throw h _

/-! ### Places -/

/-- Reading a slot of rows that are alike. -/
theorem endsAlike_slotOf (h : s.Alike strict K s') {xs ys : Array Value}
    (hxy : SlotsAlike strict xs ys) (i : Nat) :
    EndsAlike strict K (Value.Alike strict) (slotOf xs i s) (slotOf ys i s') := by
  unfold slotOf
  have hi := hxy i
  revert hi
  generalize xs[i]? = x, ys[i]? = y
  rintro (hv | -)
  · exact endsAlike_pure h hv
  · exact endsAlike_throw h _

/-- Reading a place whose register is alike. -/
theorem endsAlike_read (h : s.Alike strict K s') {p : Place} (hp : ∀ i ∈ p.base?, K i) :
    EndsAlike strict K (Value.Alike strict) (read p s) (read p s') := by
  cases p with
  | register i =>
    refine (endsAlike_register h (hp i rfl)).mono ?_ fun _ _ hf => hf
    rintro v v' _ _ ⟨hv, -, rfl, rfl⟩
    exact ⟨hv, h⟩
  | receiver i => exact endsAlike_agree h (Heap.agree_readSlot .object h.world.receiver i)
  | statics i => exact endsAlike_slotOf h h.world.statics i
  | globals i => exact endsAlike_slotOf h h.world.globals i
  | outer depth i =>
    have hget (t : State) : (get : Exec State) t = .ok t t := rfl
    unfold read
    dsimp only
    rw [bind_of_ok (hget s), bind_of_ok (hget s')]
    have hd := h.world.outer depth
    revert hd
    generalize s.frame.outer[depth]? = xs, s'.frame.outer[depth]? = ys
    rintro (hxy | -)
    · exact endsAlike_slotOf h hxy i
    · exact ⟨rfl, h.world⟩
  | item kind r i =>
    refine Ends.bind (endsAlike_register h (hp r rfl)) ?_
    rintro v v' _ _ ⟨hv, -, rfl, rfl⟩
    exact endsAlike_agree h (Heap.agree_readSlot kind hv i)

/-- A register overwritten with values that are alike matters from then on. -/
theorem endsAlike_overwrite_register (h : s.Alike strict K s') {i : Nat} {f g : Value → Value}
    (hfg : ∀ v v', s.frame.registers[i]? = some v → RegisterAlike strict K i v v' →
      (f v).Alike strict (g v')) :
    EndsAlike strict (fun j => K j ∨ j = i) (· = ·) (overwrite (.register i) f s)
      (overwrite (.register i) g s') := by
  refine ⟨rfl, h.registers.modify (fun v v' hv hvv => .inl (hfg v v' hv hvv)) ?_, ?_⟩
  · rintro j v v' hj (hv | ⟨hk, hscalar⟩)
    · exact .inl hv
    · exact .inr ⟨by simp [hk, hj], hscalar⟩
  · exact { h.world with }

/-- Other places keep the registers as they are. -/
theorem endsAlike_overwrite_place (h : s.Alike strict K s') {p : Place} (hp : ∀ i ∈ p.base?, K i)
    (hreg : ∀ i, p ≠ .register i) {f g : Value → Value}
    (hfg : ∀ v v', v.Alike strict v' → (f v).Alike strict (g v')) :
    EndsAlike strict K (· = ·) (overwrite p f s) (overwrite p g s') := by
  have hslots : ∀ {xs ys : Array Value} (i : Nat), SlotsAlike strict xs ys →
      SlotsAlike strict (xs.modify i f) (ys.modify i g) := fun i hxy =>
    hxy.modify (fun v v' _ hv => hfg v v' hv) fun _ _ _ _ hv => hv
  cases p with
  | register i => exact absurd rfl (hreg i)
  | receiver i => exact endsAlike_agree h (Heap.agree_overwriteSlot .object h.world.receiver i hfg)
  | statics i => exact ⟨rfl, h.registers, { h.world with statics := hslots i h.world.statics }⟩
  | globals i => exact ⟨rfl, h.registers, { h.world with globals := hslots i h.world.globals }⟩
  | outer depth i =>
    refine ⟨rfl, h.registers, { h.world with outer := ?_ }⟩
    exact h.world.outer.modify (fun _ _ _ hxy => hslots i hxy) fun _ _ _ _ hxy => hxy
  | item kind r i =>
    refine Ends.bind (endsAlike_register h (hp r rfl)) ?_
    rintro v v' _ _ ⟨hv, -, rfl, rfl⟩
    exact endsAlike_agree h (Heap.agree_overwriteSlot kind hv i hfg)

/-- **A register that gets values that are alike matters from then on.** -/
theorem endsAlike_put (h : s.Alike strict K s') (i : Nat) {v v' : Value} (hv : v.Alike strict v') :
    EndsAlike strict (fun j => K j ∨ j = i) (· = ·) (put (.register i) v s)
      (put (.register i) v' s') := by
  refine Ends.bind (ends_oldRegister h i) ?_
  rintro old old' _ _ ⟨hold, rfl, rfl⟩
  refine Ends.bind (endsAlike_overwrite_register h fun _ _ _ _ => hv) fun _ _ t t' ⟨_, ht⟩ => ?_
  exact endsAlike_agree ht (Heap.agree_discard hold)

/-- Writing a register makes the states alike in it. -/
theorem endsAlike_write_register (h : s.Alike strict K s') (i : Nat) {v v' : Value}
    (hv : v.Alike strict v') :
    EndsAlike strict (fun j => K j ∨ j = i) (· = ·) (write (.register i) v s)
      (write (.register i) v' s') := by
  refine Ends.bind (ends_oldRegister h i) ?_
  rintro old old' _ _ ⟨hold, rfl, rfl⟩
  refine Ends.bind (endsAlike_agree h (Heap.agree_clone hv)) fun _ _ t t' ⟨_, ht⟩ => ?_
  refine Ends.bind (endsAlike_overwrite_register ht fun _ _ _ _ => hv) fun _ _ t t' ⟨_, ht⟩ => ?_
  exact endsAlike_agree ht (Heap.agree_discard hold)

/-- Writing to a place outside of the registers. -/
theorem endsAlike_write_place (h : s.Alike strict K s') {p : Place} (hp : ∀ i ∈ p.base?, K i)
    (hreg : ∀ i, p ≠ .register i) {v v' : Value} (hv : v.Alike strict v') :
    EndsAlike strict K (· = ·) (write p v s) (write p v' s') := by
  refine Ends.bind (endsAlike_read h hp) fun old old' t t' ⟨hold, ht⟩ => ?_
  refine Ends.bind (endsAlike_agree ht (Heap.agree_clone hv)) fun _ _ t t' ⟨_, ht⟩ => ?_
  refine Ends.bind (endsAlike_overwrite_place ht hp hreg fun _ _ _ => hv) fun _ _ t t' ⟨_, ht⟩ => ?_
  exact endsAlike_agree ht (Heap.agree_discard hold.ref?_eq)

end Exec

end RegisterVM
