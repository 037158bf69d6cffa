import RegisterVM.Proofs.CountedOperations

/-!
# Value slots and the references they hold

The roots of the heap are the values a state holds in its registers and variables, and the values `held` by whoever
works on the state: constants, and values that have been made and not been put anywhere yet. `State.Counted` says that
with these roots every reference is counted.

What a place holds is `State.value?`. Overwriting a place exchanges the old value for the new one among the values held
(`exists_overwrite`), so putting a value into a place and giving up what was there keeps the counts.
-/

namespace RegisterVM

/-- The values of the registers and variables of a state. -/
def State.values (s : State) : List Value := s.frame.values ++ s.names.statics.toList ++ s.names.globals.toList

/-- The objects a state refers to, and those the values `held` refer to, once for each reference. -/
def State.roots (s : State) (held : List Value) : List ObjectId := (held ++ s.values).filterMap Value.ref?

/-- **Every reference from slots, from the values `held` and from objects is counted.** -/
def State.Counted (s : State) (held : List Value) : Prop := s.heap.Counted (s.roots held)

/-- Slot `i` of the object of kind `kind` a value refers to. -/
def Heap.slot? (h : Heap) (kind : ObjectKind) (v : Value) (i : Nat) : Option Value :=
  match v with
  | .object k id => if k = kind then (h.get? id).bind fun o => o.slots[i]? else none
  | _ => none

/-- What a place holds. -/
def State.value? (s : State) : Place → Option Value
  | .register i => s.frame.registers[i]?
  | .receiver i => s.heap.slot? .object s.frame.receiver i
  | .statics i => s.names.statics[i]?
  | .globals i => s.names.globals[i]?
  | .outer depth i => s.frame.outer[depth]?.bind fun registers => registers[i]?
  | .item kind r i => s.frame.registers[r]?.bind fun v => s.heap.slot? kind v i

/-- The places that are not inside an object. -/
def Place.IsSlot : Place → Prop
  | .register _ | .statics _ | .globals _ | .outer _ _ => True
  | .receiver _ | .item _ _ _ => False

/-- A state with another value in a slot. -/
def State.fill (s : State) (p : Place) (v : Value) : State :=
  match p with
  | .register i => { s with frame := { s.frame with registers := s.frame.registers.modify i fun _ => v } }
  | .statics i => { s with names := { s.names with statics := s.names.statics.modify i fun _ => v } }
  | .globals i => { s with names := { s.names with globals := s.names.globals.modify i fun _ => v } }
  | .outer depth i =>
    { s with frame := { s.frame with outer := s.frame.outer.modify depth (·.modify i fun _ => v) } }
  | .receiver _ | .item _ _ _ => s

/-- A state that differs from `s` in the heap only, which satisfies `P`. -/
def State.Over (s : State) (P : Heap → Prop) (t : State) : Prop := t = { s with heap := t.heap } ∧ P t.heap

/-- A value that is held adds its reference to the roots. -/
theorem State.roots_cons (s : State) (v : Value) (held : List Value) : s.roots (v :: held) = v.refs ++ s.roots held :=
  Value.filterMap_ref?_cons v _

/-! ### Reading -/

namespace Heap

/-- Reading a slot gives what is in it, and fails if there is no such slot. -/
theorem triple_readSlot_slot? (h : Heap) (kind : ObjectKind) (v : Value) (i : Nat) : Triple (· = h) (readSlot kind v i)
    (fun w k => k = h ∧ h.slot? kind v i = some w) fun _ k => k = h ∧ h.slot? kind v i = none := by
  unfold readSlot slotsOf objectOf slot?
  cases v with
  | none => exact .throw fun _ hk => ⟨hk, rfl⟩
  | scalar => exact .throw fun _ hk => ⟨hk, rfl⟩
  | object k id =>
    refine .bind (Q := fun p k' => k' = h ∧ k = kind ∧ ∃ o, h.get? id = some o ∧ p.2 = o.slots)
      (.bind (Q := fun p k' => k' = h ∧ k = kind ∧ h.get? id = some p.2) (.bind .get fun h' => ?_) fun ⟨_, o⟩ => ?_)
      fun ⟨_, slots⟩ => ?_
    · refine .assuming (fun _ hk => hk.1.trans hk.2) ?_
      rintro rfl
      cases ho : h'.get? id with
      | none => exact .throw fun _ hk => ⟨hk.2, by simp [ho]⟩
      | some o =>
        dsimp only
        split
        · rename_i hkind
          exact .pure fun _ hk => ⟨hk.2, hkind, rfl⟩
        · exact .throw fun _ hk => ⟨hk.2, rfl⟩
    · exact .pure fun _ hk => ⟨hk.1, hk.2.1, o, hk.2.2, rfl⟩
    · dsimp only
      cases hslot : slots[i]? with
      | none =>
        refine .throw ?_
        rintro _ ⟨hk, rfl, o, ho, rfl⟩
        exact ⟨hk, by rw [if_pos rfl, ho]; exact hslot⟩
      | some item =>
        refine .pure ?_
        rintro _ ⟨hk, rfl, o, ho, rfl⟩
        exact ⟨hk, by rw [if_pos rfl, ho]; exact hslot⟩

end Heap

namespace Exec

variable {s t : State} {held : List Value} {p q : Place} {v w : Value}

/-- An action on the heap leaves the rest of the state as it is. -/
theorem triple_over_onHeap {α : Type} {m : HeapM α} {P E : Heap → Prop} {Q : α → Heap → Prop}
    (hm : Triple P m Q fun _ => E) :
    Triple (s.Over P) (onHeap m) (fun a t => s.Over (Q a) t) fun f t => (∃ e, f = .code e) ∧ s.Over E t := by
  rintro t ⟨hrest, ht⟩
  have hend := hm t.heap ht
  rw [onHeap_eq]
  cases hs : m t.heap with
  | ok a k =>
    rw [hs] at hend
    exact ⟨by rw [hrest], hend⟩
  | error e k =>
    rw [hs] at hend
    exact ⟨⟨e, rfl⟩, by rw [hrest], hend⟩

/-- What a heap operation does to the heap, it does to the heap of a state. -/
theorem triple_over_onHeapRun {α : Type} {m : HeapRun α} {P E : Heap → Prop} {Q : α → Heap → Prop}
    (hm : Triple P m Q fun _ => E) :
    Triple (s.Over P) (onHeapRun m) (fun a t => s.Over (Q a) t) fun _ t => s.Over E t := by
  rintro t ⟨hrest, ht⟩
  have hend := hm t.heap ht
  unfold onHeapRun
  cases hs : m t.heap with
  | ok a k =>
    rw [hs] at hend
    simp only [hs]
    exact ⟨by rw [hrest], hend⟩
  | error e k =>
    rw [hs] at hend
    simp only [hs]
    exact ⟨by rw [hrest], hend⟩

/-- Reading a place gives what is at it, and fails if there is no such place. -/
theorem triple_read_value? (s : State) (p : Place) : Triple (· = s) (read p) (fun v t => t = s ∧ s.value? p = some v)
    fun _ t => t = s ∧ s.value? p = none := by
  have hslotOf (slots : Array Value) (i : Nat) : Triple (· = s) (slotOf slots i)
      (fun v t => t = s ∧ slots[i]? = some v) fun _ t => t = s ∧ slots[i]? = none := by
    unfold slotOf
    cases slots[i]? with
    | none => exact .throw fun _ ht => ⟨ht, rfl⟩
    | some v => exact .pure fun _ ht => ⟨ht, rfl⟩
  have hregister (i : Nat) : Triple (· = s) (register i)
      (fun v t => t = s ∧ s.frame.registers[i]? = some v) fun _ t => t = s ∧ s.frame.registers[i]? = none := by
    intro t ht
    rw [register_eq, ht]
    cases s.frame.registers[i]? with
    | none => exact ⟨rfl, rfl⟩
    | some v => exact ⟨rfl, rfl⟩
  have hreadSlot (kind : ObjectKind) (v : Value) (i : Nat) : Triple (· = s) (onHeap (Heap.readSlot kind v i))
      (fun w t => t = s ∧ s.heap.slot? kind v i = some w) fun _ t => t = s ∧ s.heap.slot? kind v i = none := by
    intro t ht
    have hend := Heap.triple_readSlot_slot? s.heap kind v i s.heap rfl
    rw [onHeap_eq, ht]
    cases hm : Heap.readSlot kind v i s.heap with
    | ok w k =>
      rw [hm] at hend
      exact ⟨by rw [hend.1], hend.2⟩
    | error e k =>
      rw [hm] at hend
      exact ⟨by rw [hend.1], hend.2⟩
  cases p with
  | register i => exact hregister i
  | receiver i =>
    refine .bind .get fun s' => .assuming (fun _ ht => ht.1.trans ht.2) ?_
    rintro rfl
    exact (hreadSlot _ _ _).mono (fun _ ht => ht.2) (fun _ _ ht => ht) fun _ _ ht => ht
  | statics i =>
    refine .bind .get fun s' => .assuming (fun _ ht => ht.1.trans ht.2) ?_
    rintro rfl
    exact (hslotOf _ _).mono (fun _ ht => ht.2) (fun _ _ ht => ht) fun _ _ ht => ht
  | globals i =>
    refine .bind .get fun s' => .assuming (fun _ ht => ht.1.trans ht.2) ?_
    rintro rfl
    exact (hslotOf _ _).mono (fun _ ht => ht.2) (fun _ _ ht => ht) fun _ _ ht => ht
  | outer depth i =>
    refine .bind .get fun s' => .assuming (fun _ ht => ht.1.trans ht.2) ?_
    rintro rfl
    have hvalue : s'.value? (.outer depth i) = s'.frame.outer[depth]?.bind fun registers => registers[i]? := rfl
    rw [hvalue]
    cases s'.frame.outer[depth]? with
    | none => exact .throw fun _ ht => ⟨ht.2, rfl⟩
    | some registers => exact (hslotOf registers i).mono (fun _ ht => ht.2) (fun _ _ ht => ht) fun _ _ ht => ht
  | item kind r i =>
    have hvalue : s.value? (.item kind r i) = s.frame.registers[r]?.bind fun v => s.heap.slot? kind v i := rfl
    rw [hvalue]
    refine .bind
      ((hregister r).mono (fun _ ht => ht) (fun _ _ ht => ht) fun _ _ ht => ⟨ht.1, by rw [ht.2]; rfl⟩) fun v =>
      .assuming (fun _ ht => ht.2) fun hv => ?_
    rw [hv]
    exact (hreadSlot kind v i).mono (fun _ ht => ht.1) (fun _ _ ht => ht) fun _ _ ht => ht

/-- Reading a place that has a value. -/
theorem read_of_value? (h : s.value? p = some v) : read p s = .ok v s := by
  have hend := triple_read_value? s p s rfl
  cases hread : read p s with
  | ok w t =>
    rw [hread] at hend
    obtain ⟨rfl, hw⟩ := hend
    rw [Option.some.inj (h.symm.trans hw)]
  | error f t =>
    rw [hread] at hend
    exact absurd (h.symm.trans hend.2) (by simp)

end Exec

/-! ### Filling slots -/

namespace State

variable {s t : State} {held : List Value} {p q : Place} {v w old : Value}

/-- The value of a slot is one of the values of the state. -/
theorem mem_values (hp : p.IsSlot) (hv : s.value? p = some v) : v ∈ s.values := by
  unfold values Frame.values
  cases p with
  | register i => simp [Array.mem_of_getElem? (show s.frame.registers[i]? = some v from hv)]
  | statics i => simp [Array.mem_of_getElem? (show s.names.statics[i]? = some v from hv)]
  | globals i => simp [Array.mem_of_getElem? (show s.names.globals[i]? = some v from hv)]
  | outer depth i =>
    obtain ⟨registers, houter, hregister⟩ := Option.bind_eq_some_iff.1 hv
    have hmem : v ∈ s.frame.outer.toList.flatMap Array.toList :=
      List.mem_flatMap.2 ⟨registers, (Array.mem_of_getElem? houter).val, (Array.mem_of_getElem? hregister).val⟩
    simp [hmem]
  | receiver i => exact hp.elim
  | item kind r i => exact hp.elim

/-- What a slot of the state refers to is a root. -/
theorem ref?_mem_roots (hv : v ∈ s.values) {id : ObjectId} (hid : v.ref? = some id) (held : List Value) :
    id ∈ s.roots held :=
  List.mem_filterMap.2 ⟨v, List.mem_append_right _ hv, hid⟩

/-- The values in slots of the state are live. -/
theorem Counted.live_of_mem (hs : s.Counted held) (hv : v ∈ s.values) : s.heap.Live v :=
  fun _ hid => hs.isSome_of_mem_roots (ref?_mem_roots hv hid held)

end State

/-- A slot belongs to an object that is there. -/
theorem Heap.exists_of_slot? {h : Heap} {kind : ObjectKind} {v w : Value} {i : Nat} (hw : h.slot? kind v i = some w) :
    ∃ id o, v = .object kind id ∧ h.get? id = some o ∧ o.slots[i]? = some w := by
  cases v with
  | object k id =>
    unfold slot? at hw
    dsimp only at hw
    split at hw
    · rename_i hkind
      obtain ⟨o, ho, hslot⟩ := Option.bind_eq_some_iff.1 hw
      exact ⟨id, o, by rw [hkind], ho, hslot⟩
    · cases hw
  | _ => cases hw

namespace State

variable {s t : State} {held : List Value} {p q : Place} {v w old : Value}

/-- What a place holds is there. -/
theorem Counted.live (hs : s.Counted held) (hv : s.value? p = some v) : s.heap.Live v := by
  have hitem {kind : ObjectKind} {target : Value} {i : Nat} (hslot : s.heap.slot? kind target i = some v) :
      s.heap.Live v := by
    obtain ⟨id, o, -, ho, hv⟩ := Heap.exists_of_slot? hslot
    exact Heap.Counted.live_of_mem_slots hs ho (Array.mem_of_getElem? hv)
  cases p with
  | receiver i => exact hitem hv
  | item kind r i =>
    obtain ⟨target, -, hslot⟩ := Option.bind_eq_some_iff.1 hv
    exact hitem hslot
  | register i => exact hs.live_of_mem (mem_values (p := .register i) trivial hv)
  | statics i => exact hs.live_of_mem (mem_values (p := .statics i) trivial hv)
  | globals i => exact hs.live_of_mem (mem_values (p := .globals i) trivial hv)
  | outer depth i => exact hs.live_of_mem (mem_values (p := .outer depth i) trivial hv)

/-- Filling a slot exchanges the reference it held for another. -/
theorem count_values_fill (hp : p.IsSlot) (hold : s.value? p = some old) (v : Value) (j : ObjectId) :
    ((s.fill p v).values.filterMap Value.ref?).count j + old.refs.count j =
      (s.values.filterMap Value.ref?).count j + v.refs.count j := by
  have hmodify {slots : Array Value} {i : Nat} (hslot : slots[i]? = some old) :
      ((slots.modify i fun _ => v).toList.filterMap Value.ref?).count j + old.refs.count j =
        (slots.toList.filterMap Value.ref?).count j + v.refs.count j := by
    rw [modify_eq_setIfInBounds hslot]
    exact count_refs_setIfInBounds hslot v j
  unfold values Frame.values fill
  cases p with
  | register i =>
    have := hmodify (show s.frame.registers[i]? = some old from hold)
    simp only [List.filterMap_append, Value.filterMap_ref?_cons, List.cons_append, List.count_append]
    omega
  | statics i =>
    have := hmodify (show s.names.statics[i]? = some old from hold)
    simp only [List.filterMap_append, Value.filterMap_ref?_cons, List.cons_append, List.count_append]
    omega
  | globals i =>
    have := hmodify (show s.names.globals[i]? = some old from hold)
    simp only [List.filterMap_append, Value.filterMap_ref?_cons, List.cons_append, List.count_append]
    omega
  | outer depth i =>
    obtain ⟨registers, houter, hregister⟩ := Option.bind_eq_some_iff.1 hold
    have hfile := hmodify hregister
    have hfiles := count_flatMap_set (fun file : Array Value => file.toList.filterMap Value.ref?)
      (l := s.frame.outer.toList) (i := depth) (by simpa using houter) (registers.modify i fun _ => v) j
    dsimp only
    rw [modify_eq_setIfInBounds houter, Array.toList_setIfInBounds]
    simp only [List.filterMap_append, Value.filterMap_ref?_cons, List.cons_append, List.count_append,
      List.filterMap_flatMap]
    omega
  | receiver i => exact hp.elim
  | item kind r i => exact hp.elim

/-- Filling a place outside of objects does not touch the heap. -/
@[simp] theorem heap_fill (s : State) (p : Place) (v : Value) : (s.fill p v).heap = s.heap := by
  cases p <;> rfl

/-- Filling a place adds the references of the value to what the others refer to. -/
theorem count_roots_fill (hp : p.IsSlot) (hold : s.value? p = some old) (v : Value) (held : List Value) (j : ObjectId) :
    ((s.fill p v).roots held).count j = v.refs.count j + ((s.fill p .none).roots held).count j := by
  have hv := count_values_fill hp hold v j
  have hnone := count_values_fill hp hold .none j
  simp only [roots, List.filterMap_append, List.count_append]
  change _ = _ + 0 at hnone
  omega

/-- Taking the value out of a slot leaves it among the values held. -/
theorem Counted.take (hs : s.Counted held) (hp : p.IsSlot) (hold : s.value? p = some old) :
    s.heap.Counted (old.refs ++ (s.fill p .none).roots held) := by
  refine Heap.Counted.congr hs fun j => ?_
  have := count_values_fill hp hold .none j
  change _ = _ + 0 at this
  simp only [roots, List.filterMap_append, List.count_append]
  omega

/-- **Filling a place** hands a held value over to it, and the old value is held from then on. -/
theorem Counted.fill (hs : s.Counted (v :: held)) (hp : p.IsSlot) (hold : s.value? p = some old) :
    (s.fill p v).Counted (old :: held) := by
  unfold Counted at hs ⊢
  rw [heap_fill]
  refine hs.congr fun j => ?_
  have := count_values_fill hp hold v j
  rw [roots_cons, roots_cons]
  simp only [roots, List.filterMap_append, List.count_append]
  omega

/-- Putting a value into a slot that was taken out of it. -/
theorem counted_fill (hp : p.IsSlot) (hold : s.value? p = some old) {k : Heap}
    (hk : k.Counted (v.refs ++ (s.fill p .none).roots held)) : (State.fill { s with heap := k } p v).Counted held := by
  have hroots : (State.fill { s with heap := k } p v).roots held = (s.fill p v).roots held := by
    cases p <;> rfl
  unfold Counted
  rw [heap_fill, hroots]
  refine hk.congr fun j => ?_
  rw [count_roots_fill hp hold, List.count_append]

end State

/-! ### Places of a heap that has grown -/

/-- Slots of live objects stay while slots are kept. -/
theorem Heap.slot?_of_keepsSlots {h k : Heap} (hk : h.KeepsSlots k) {kind : ObjectKind} {v w : Value} {i : Nat}
    (hv : k.Live v) (hw : h.slot? kind v i = some w) : k.slot? kind v i = some w := by
  obtain ⟨id, o, rfl, ho, hslot⟩ := exists_of_slot? hw
  obtain ⟨o', ho'⟩ := Option.isSome_iff_exists.1 (hv id rfl)
  have hslots := hk.slots_eq id o' (lt_size_of_get? ho) ho'
  rw [ho, Option.map_some, Option.some.injEq] at hslots
  unfold slot?
  dsimp only
  rw [if_pos rfl, ho', Option.bind_some, ← hslots, hslot]

namespace State

variable {s : State} {k : Heap} {held : List Value} {p : Place} {v : Value}

/-- Only what is in the heap counts for the value at a place. -/
theorem value?_congr (hk : ∀ id, k.get? id = s.heap.get? id) (p : Place) :
    State.value? { s with heap := k } p = s.value? p := by
  have hslot (kind : ObjectKind) (target : Value) (i : Nat) : k.slot? kind target i = s.heap.slot? kind target i := by
    cases target with
    | object kind' id =>
      unfold Heap.slot?
      dsimp only
      rw [hk]
    | _ => rfl
  cases p with
  | receiver i => exact hslot _ _ i
  | item kind r i =>
    unfold value?
    dsimp only
    cases s.frame.registers[r]? with
    | none => rfl
    | some target => exact hslot kind target i
  | _ => rfl

/-- Places keep what they hold as long as the objects they are in keep their slots. -/
theorem value?_of_keepsSlots (hk : s.heap.KeepsSlots k) (hlive : ∀ v ∈ s.values, k.Live v) (hv : s.value? p = some v) :
    State.value? { s with heap := k } p = some v := by
  cases p with
  | receiver i => exact Heap.slot?_of_keepsSlots hk (hlive _ (by simp [values, Frame.values])) hv
  | item kind r i =>
    obtain ⟨target, hregister, hslot⟩ := Option.bind_eq_some_iff.1 hv
    have hmem : target ∈ s.values := mem_values (p := .register r) trivial hregister
    exact Option.bind_eq_some_iff.2 ⟨target, hregister, Heap.slot?_of_keepsSlots hk (hlive _ hmem) hslot⟩
  | _ => exact hv

/-- Values at places stay while the heap grows. -/
theorem value?_of_grown (hk : s.heap.Grown (s.roots held) k) (hv : s.value? p = some v) :
    State.value? { s with heap := k } p = some v :=
  value?_of_keepsSlots hk.slots
    (fun _ hw _ hid => hk.counted.isSome_of_mem_roots (ref?_mem_roots hw hid held)) hv

end State

/-! ### Overwriting places -/

namespace Heap

/-- The slots of an object that is there. -/
theorem slotsOf_eq {h : Heap} {id : ObjectId} {o : Object} (ho : h.get? id = some o) (kind : ObjectKind) :
    slotsOf kind (.object kind id) h = .ok (id, o.slots) h := by
  have hobject : objectOf kind (.object kind id) h = .ok (id, o) h := by
    have hget : (get : HeapM Heap) h = .ok h h := rfl
    refine (bind_of_ok hget).trans ?_
    rw [ho]
    dsimp only
    rw [if_pos rfl]
    rfl
  exact bind_of_ok hobject

/-- Overwriting a slot that is there changes the object it belongs to. -/
theorem overwriteSlot_eq {h : Heap} {kind : ObjectKind} {id : ObjectId} {o : Object} (ho : h.get? id = some o) {i : Nat}
    (hi : i < o.slots.size) (f : Value → Value) : overwriteSlot kind (.object kind id) i f h =
      .ok () (h.modifyObject id fun o => o.withSlots (o.slots.modify i f)) := by
  refine (bind_of_ok (slotsOf_eq ho kind)).trans ?_
  dsimp only
  rw [if_pos hi]
  rfl

/-- Overwriting a slot hands a reference over, and the old one is held from then on. -/
theorem exists_overwriteSlot {h : Heap} {kind : ObjectKind} {target old : Value} {i : Nat}
    (hold : h.slot? kind target i = some old) (v : Value) :
    ∃ k, overwriteSlot kind target i (fun _ => v) h = .ok () k ∧
      ∀ roots, h.Counted (v.refs ++ roots) → k.Counted (old.refs ++ roots) := by
  obtain ⟨id, o, rfl, ho, hslot⟩ := exists_of_slot? hold
  refine ⟨_, overwriteSlot_eq ho (Array.getElem?_eq_some_iff.1 hslot).1 _,
    fun roots hh => hh.modifyObject ho fun j => ?_⟩
  have := Object.count_references_withSlots hslot v j
  rw [modify_eq_setIfInBounds hslot, List.count_append, List.count_append]
  omega

end Heap

namespace Exec

variable {s t : State} {held : List Value} {p : Place} {v old : Value}

/-- Overwriting a place outside of objects fills it. -/
theorem overwrite_eq (hp : p.IsSlot) (v : Value) : overwrite p (fun _ => v) s = .ok () (s.fill p v) := by
  cases p with
  | receiver i => exact hp.elim
  | item kind r i => exact hp.elim
  | _ => rfl

/-- **Overwriting a place** exchanges the value it held for the one it gets. -/
theorem exists_overwrite (hold : s.value? p = some old) (v : Value) : ∃ t, overwrite p (fun _ => v) s = .ok () t ∧
    ∀ held, s.Counted (v :: held) → t.Counted (old :: held) := by
  have hitem {kind : ObjectKind} {target : Value} {i : Nat} (hslot : s.heap.slot? kind target i = some old) :
      ∃ t, onHeap (Heap.overwriteSlot kind target i fun _ => v) s = .ok () t ∧
        ∀ held, s.Counted (v :: held) → t.Counted (old :: held) := by
    obtain ⟨k, hk, hcounted⟩ := Heap.exists_overwriteSlot hslot v
    refine ⟨{ s with heap := k }, by rw [onHeap_eq, hk], fun held hs => ?_⟩
    unfold State.Counted at hs ⊢
    rw [State.roots_cons] at hs ⊢
    exact hcounted _ hs
  cases p with
  | receiver i => exact hitem hold
  | item kind r i =>
    obtain ⟨target, hregister, hslot⟩ := Option.bind_eq_some_iff.1 hold
    obtain ⟨t, ht, hcounted⟩ := hitem hslot
    refine ⟨t, (bind_of_ok (a := target) (t := s) ?_).trans ht, hcounted⟩
    rw [register_eq, hregister]
  | register i =>
    exact ⟨_, overwrite_eq (p := .register i) trivial v, fun _ hs => hs.fill (p := .register i) trivial hold⟩
  | statics i => exact ⟨_, overwrite_eq (p := .statics i) trivial v, fun _ hs => hs.fill (p := .statics i) trivial hold⟩
  | globals i => exact ⟨_, overwrite_eq (p := .globals i) trivial v, fun _ hs => hs.fill (p := .globals i) trivial hold⟩
  | outer depth i =>
    exact ⟨_, overwrite_eq (p := .outer depth i) trivial v, fun _ hs => hs.fill (p := .outer depth i) trivial hold⟩

/-- A value that is given up. -/
theorem counted_discard (hs : s.Counted (v :: held)) : State.Counted { s with heap := s.heap.dropValue v } held := by
  unfold State.Counted at hs
  rw [State.roots_cons] at hs
  exact hs.dropValue

/-- **A value handed over to a place** takes the room of the value it held. -/
theorem exists_put (hold : s.value? p = some old) (v : Value) : ∃ t, put p v s = .ok () t ∧
    ∀ held, s.Counted (v :: held) → t.Counted held := by
  obtain ⟨t, ht, hcounted⟩ := exists_overwrite hold v
  exact ⟨_, (bind_of_ok (read_of_value? hold)).trans ((bind_of_ok ht).trans rfl),
    fun held hs => counted_discard (hcounted held hs)⟩

/-- **A copy stored at a place** does so too. It fails only if the place is not there, and then nothing has happened. -/
theorem triple_write_counted (s : State) (p : Place) (v : Value) : Triple (· = s) (write p v)
    (fun _ t => ∀ held, s.Counted held → s.heap.Live v → s.heap.Room 1 → t.Counted held) fun _ t => t = s := by
  cases hold : s.value? p with
  | none =>
    refine .bind (Q := fun _ _ => False) ((triple_read_value? s p).mono (fun _ ht => ht) ?_ fun _ _ ht => ht.1)
      fun _ _ hf => hf.elim
    exact fun v t ht => absurd (hold.symm.trans ht.2) (by simp)
  | some old =>
    have hclone : onHeap (Heap.clone v) s = .ok v { s with heap := s.heap.retainValue v } := rfl
    have hsame : State.value? { s with heap := s.heap.retainValue v } p = some old :=
      (State.value?_congr (Heap.get?_retainValue s.heap v) p).trans hold
    obtain ⟨u, hu, hcounted⟩ := exists_overwrite hsame v
    have hwrite : write p v s = .ok () { u with heap := u.heap.dropValue old } :=
      (bind_of_ok (read_of_value? hold)).trans ((bind_of_ok hclone).trans ((bind_of_ok hu).trans rfl))
    intro t ht
    rw [ht, hwrite]
    intro held hs hv hroom
    refine counted_discard (hcounted held ?_)
    unfold State.Counted
    rw [State.roots_cons]
    exact Heap.Counted.retainValue hs hv hroom

end Exec

end RegisterVM
