import RegisterVM.Proofs.ElementKinds
import RegisterVM.Proofs.SegmentSafety

/-!
# Element accesses of compiled code

Compiled code takes the layout of an array from the opcode of the access and never looks at the array. In a
routine whose instructions keep to the declared kinds of elements that is enough: compiled operations put the
same things into registers as the instructions they stand for (`Emitted.kinded`), so wherever a run is in a
segment, the array of an access has elements of the kind of the opcode, and an index that passes the check
names words of its data. In other routines compiled code reads the words of another element.
-/

namespace RegisterVM

namespace Native

/-- An action of compiled code that keeps registers to the declared kinds. -/
abbrev Kinded (r : Routine) (h : Heap) {α : Type} (m : NativeM α) : Prop :=
  Within (fun a : Activation => a.state.Kinded r h) (fun _ => True) m

/-- Actions on the state in sequence. -/
theorem onState_bind {α β : Type} (m : Exec α) (f : α → Exec β) :
    onState (m >>= f) = onState m >>= fun x => onState (f x) := by
  funext a
  change onState (m >>= f) a = EStateM.bind (onState m) _ a
  unfold EStateM.bind
  rw [onState_eq, onState_eq]
  cases hm : m a.state with
  | ok x s =>
    rw [bind_of_ok hm]
    rfl
  | error e s =>
    rw [bind_of_error hm]

section

variable {r : Routine} {h : Heap} {α : Type} {config : Config} {plan : Plan} {ins : Instruction} {i : Nat}

/-- An action of the interpreter does so in compiled code. -/
theorem kinded_onState {m : Exec α} (hm : Keeps (State.Kinded r h) m) : Kinded r h (onState m) :=
  within_onState (.of_keeps hm fun _ => trivial)

/-- Reading a slot keeps registers to the declared kinds. -/
theorem kinded_slot (x : Reg) : Kinded r h (slot x) := kinded_onState (Exec.looks_register _).keeps

/-- So does an action on the heap. -/
theorem kinded_onHeap {m : HeapM α} (hm : ∀ {h}, Keeps (Heap.SoundAfter h) m) : Kinded r h (onHeap m) :=
  kinded_onState (Exec.kinded_onHeap hm)

/-- So does evaluating an expression. -/
theorem kinded_eval {e : Expr} (he : e.InReach r.types.size) : Kinded r h (eval e) :=
  within_eval (fun _ => trivial) (fun _ => .of_keeps (Exec.looks_read _).keeps fun _ => trivial)
    (fun hm => .of_keeps (Exec.kinded_onHeap hm) fun _ => trivial) (fun _ _ _ hs => ⟨hs.heap, hs.registers⟩) he

/-- A scalar stored under the declared type of its register. -/
theorem kinded_storeAt {q : Nat} {tag : ScalarTag} (htag : (r.types[q]?).bind ValueType.scalarTag? = some tag)
    (w : Words) :
    Keeps (State.Kinded r h) (storeAt (.register q) tag w) := by
  refine .bind (Exec.looks_read _).keeps fun _ => Exec.triple_overwrite_register fun s hs => ⟨hs, fun old => ?_⟩
  obtain ⟨t, ht, htag⟩ := Option.bind_eq_some_iff.1 htag
  refine State.accepts_of_hasTag ht htag ?_
  rw [ValueType.tag?_of_scalarTag htag]
  cases tag <;> rfl

/-- **Emitted operations keep registers to the declared kinds**, as the instruction does. -/
theorem Emitted.kinded {op : Op} (hop : Emitted r plan ins op) (hregs : r.types.size ≤ UInt16.size)
    (hplan : IsPlan r config plan) (hi : r.code[i]? = some ins) (hins : ins.KeepsKinds r h) :
    Kinded r h (op.perform r.constants) := by
  have hbounds := r.inBounds hi
  have hreg {x : Int32} (hx : r.bounds.IsRegister x.toInt) : (Reg.ofOperand x).toNat = placeOf x :=
    Routine.toNat_ofOperand hregs hx
  obtain ⟨opcode, a, b, c, line⟩ := ins
  cases hop with
  | assign reach => exact .bind (kinded_eval reach) fun _ => within_setVar _ _
  | storeBack planned =>
    obtain ⟨-, htag, -⟩ := hplan.register?_eq_some_iff.1 planned
    exact .bind (within_var _) fun w => kinded_onState (kinded_storeAt htag w)
  | reload planned => exact .bind (kinded_slot _) fun _ => within_setVar _ _
  | store other reach =>
    exact .bind (within_var _) fun w =>
      kinded_onState (.bind (Exec.looks_read _).keeps fun _ => Exec.kinded_overwrite other _)
  | check reach => exact .bind (kinded_slot _) fun _ => kinded_onState (Exec.looks_checkTag _ _).keeps
  | loadConstant opcode =>
    have hc : (Reg.ofOperand c).toNat = placeOf c := by rcases opcode with rfl | rfl <;> exact hreg hbounds.1
    unfold Op.perform
    dsimp only [Instruction.rc]
    rw [hc]
    split
    · rename_i v hv
      have haccepts (s : State) (hs : s.Kinded r h) := hs.accepts_constant hins opcode hv
      exact kinded_onState (Exec.triple_write fun s hs => ⟨hs, haccepts s hs⟩)
    · exact .throw trivial
  | move opcode =>
    obtain ⟨ha, hc⟩ : (Reg.ofOperand a).toNat = placeOf a ∧ (Reg.ofOperand c).toNat = placeOf c := by
      rcases opcode with rfl | rfl <;> exact ⟨hreg hbounds.1, hreg hbounds.2⟩
    unfold Op.perform
    dsimp only [Instruction.rc, Instruction.ra]
    rw [ha, hc]
    simp only [← onState_bind]
    have haccepts (s : State) (v : Value) (hs : s.Kinded r h) (hv : Step.reg a s = .ok v s) :=
      hs.accepts_copy hins opcode (Step.reg_eq_ok hv)
    exact kinded_onState (Triple.bind (Step.looks_reg a).triple fun v =>
      Exec.triple_checkedWrite fun s hs => ⟨hs.2, fun _ => haccepts s v hs.2 hs.1⟩)
  | arith opcode =>
    cases opcode
    obtain ⟨ha, hb, hc⟩ := hbounds
    unfold Op.perform slot onHeap
    dsimp only [Instruction.rc, Instruction.ra, Instruction.rb]
    rw [hreg ha, hreg hb, hreg hc]
    simp only [← onState_bind]
    exact kinded_onState
      (Exec.kinded_compute (fun _ => Heap.computes_arrayArith _) fun kind hkind => (hins kind hkind).2)
  | assignAll opcode =>
    exact .bind (kinded_slot _) fun _ => .bind (kinded_slot _) fun _ =>
      kinded_onHeap (Heap.keeps_soundAfter_assignAll _ _)
  | concat opcode =>
    unfold Op.perform slot onHeap
    simp only [← onState_bind]
    exact kinded_onState (Exec.kinded_concat _ _ _)
  | setChar opcode =>
    refine .bind (kinded_slot _) fun v => .bind (within_var _) fun i => .bind (within_var _) fun ch => ?_
    unfold onHeap
    rw [← onState_bind]
    exact kinded_onState (Exec.kinded_setChar v _ _ _)
  | setElement opcode =>
    exact .bind (within_var _) fun _ => .bind (within_var _) fun _ => .bind (kinded_slot _) fun _ =>
      kinded_onHeap (Heap.keeps_soundAfter_setWordsBy _ _ _ _)
  | setElementMulti opcode =>
    exact .bind (.mapM fun y _ => within_var y) fun _ => .bind (within_var _) fun _ => .bind (kinded_slot _) fun _ =>
      kinded_onHeap (Heap.keeps_soundAfter_setWordsBy _ _ _ _)
  | listGet opcode =>
    cases opcode
    obtain ⟨-, -, hc⟩ := hbounds
    have ht := Array.getElem?_eq_getElem (Routine.placeOf_lt hc)
    refine .bind (kinded_slot _) fun list => .bind (within_var _) fun n =>
      .bind (kinded_onState (Exec.looks_onHeap (Heap.looks_listItem _ _)).keeps) fun v => ?_
    dsimp only [Instruction.rc]
    rw [hreg hc, Array.getD_eq_getD_getElem?, ht, Option.getD_some, ← onState_bind]
    refine kinded_onState (Exec.triple_checkedWrite fun s hs => ⟨hs, fun hv => ?_⟩)
    exact State.accepts_of_listItemTag ht (of_decide_eq_true hv) fun kind hkind => (hins kind hkind).2
  | listSet opcode =>
    exact .bind (kinded_slot _) fun _ => .bind (within_var _) fun _ => .bind (kinded_slot _) fun _ =>
      kinded_onHeap (Heap.keeps_soundAfter_listSet _ _ _)
  | tupleGetAny opcode =>
    cases opcode
    have hc := hbounds.2
    have ht := Array.getElem?_eq_getElem (Routine.placeOf_lt hc)
    refine .bind (kinded_onState (Exec.looks_read _).keeps) fun v => ?_
    dsimp only [Instruction.rc]
    rw [hreg hc, Array.getD_eq_getD_getElem?, ht, Option.getD_some, ← onState_bind]
    exact kinded_onState (Exec.triple_checkedWrite fun s hs => ⟨hs, State.accepts_of_tupleItem hins rfl ht⟩)
  | tupleSetAny opcode =>
    exact .bind (kinded_onState (Exec.looks_read _).keeps) fun _ =>
      .bind (kinded_onState (Exec.looks_checkTag _ _).keeps) fun _ =>
      kinded_onState (Exec.kinded_write (p := .item _ _ _) nofun _)

end

end Native

/-- **What instructions keep of the kinds of elements, compiled code keeps as well.** -/
theorem secures_kinded {r : Routine} (hregs : r.types.size ≤ UInt16.size) (c : Compiler) {h : Heap}
    (hkinds : ∀ ins ∈ r.code, ins.KeepsKinds r h) : Secures r c (State.Kinded r h) fun _ => True where
  step hi _ := .of_keeps (Step.kinded_step _ (hkinds _ (Array.mem_of_getElem? hi))) fun _ => trivial
  enter _ _ _ := .of_keeps (Exec.looks_register _).keeps fun _ => trivial
  perform hplan hi hform := hform.within hi
    (fun hop => hop.kinded hregs hplan hi (hkinds _ (Array.mem_of_getElem? hi))) Native.kinded_eval
  flush hplan x hx w := by
    obtain ⟨defined, hx⟩ := (Native.mem_flushedRegisters hplan).1 hx
    obtain ⟨-, htag, -⟩ := hplan.register?_eq_some_iff.1 hx
    exact .of_keeps (Native.kinded_storeAt htag w) fun _ => trivial

/-- The kind of elements and the register an element access names. -/
def Instruction.access? (ins : Instruction) : Option (ElementKind × Nat) :=
  match ins.opcode with
  | .arrayGet kind | .arrayGetMulti kind => some (kind, placeOf ins.a)
  | .arraySet kind | .arraySetMulti kind => some (kind, placeOf ins.c)
  | _ => none

/-- The operand rules ask for an array of the kind of the access. -/
theorem Routine.elementAt?_of_access {r : Routine} {k : Classifier} {ins : Instruction} {kind : ElementKind} {q : Nat}
    (heligible : k.isEligible r.types ins = true) (haccess : ins.access? = some (kind, q)) :
    r.elementAt? q = some kind := by
  obtain ⟨ws, hws, hall⟩ := Native.exists_wants heligible
  have helement {x : Int32} (hmem : (x.toInt, .array kind) ∈ ws) : r.elementAt? (placeOf x) = some kind := by
    obtain ⟨t, ht, hadmits⟩ := (Option.any_eq_true _ _).1 (hall _ _ hmem)
    unfold typeAt? at ht
    split at ht
    · cases ht
    · unfold elementAt?
      rw [placeOf_of_nonneg (by omega), ht]
      cases t with
      | array k => exact congrArg some (of_decide_eq_true hadmits)
      | _ => cases hadmits
  obtain ⟨op, a, b, c, line⟩ := ins
  cases op with
  | arrayGet =>
    cases haccess
    cases hws
    exact helement (.tail _ (.head _))
  | arraySet =>
    cases haccess
    cases hws
    exact helement (.head _)
  | arrayGetMulti =>
    cases haccess
    obtain ⟨-, ⟨⟩⟩ := Option.ite_none_left_eq_some.1 hws
    exact helement (.tail _ (.head _))
  | arraySetMulti =>
    cases haccess
    obtain ⟨-, ⟨⟩⟩ := Option.ite_none_left_eq_some.1 hws
    exact helement (.head _)
  | _ => cases haccess

/-- The kind of elements under which compiled code is about to access an array, and the array itself: the
instruction is in the segment, and what its register holds passes the tag check and can be copied out. -/
def Running.accessed? (r : Routine) (x : Running) : Option (ElementKind × PlainArray) :=
  match x.mode with
  | .compiled _ segment i _ =>
    if segment.code.range.contains i then do
      let (kind, q) ← (← r.code[i]?).access?
      let v ← x.state.frame.registers[q]?
      match Heap.plainArray v x.state.heap with
      | .ok (_, a) _ => some (kind, a)
      | .error _ _ => none
    else none
  | _ => none

/-- Where an access is about to happen, control is at an instruction of a segment, and its register holds an array. -/
theorem Running.exists_of_accessed? {r : Routine} {x : Running} {kind : ElementKind} {a : PlainArray}
    (h : x.accessed? r = some (kind, a)) : ∃ pc segment i vars ins q v id k, x.mode = .compiled pc segment i vars ∧
      i ∈ segment.code.range ∧ r.code[i]? = some ins ∧ ins.access? = some (kind, q) ∧
        x.state.frame.registers[q]? = some v ∧ Heap.plainArray v x.state.heap = .ok (id, a) k := by
  unfold accessed? at h
  split at h
  · rename_i pc segment i vars hmode
    obtain ⟨hi, h⟩ := Option.ite_none_right_eq_some.1 h
    obtain ⟨ins, hins, h⟩ := Option.bind_eq_some_iff.1 h
    obtain ⟨⟨kind', q⟩, haccess, h⟩ := Option.bind_eq_some_iff.1 h
    obtain ⟨v, hv, h⟩ := Option.bind_eq_some_iff.1 h
    split at h
    · rename_i id a' k hplain
      cases h
      rw [IndexRange.contains, Bool.and_eq_true, decide_eq_true_eq, decide_eq_true_eq] at hi
      exact ⟨pc, segment, i, vars, ins, q, v, id, k, hmode, hi, hins, haccess, hv, hplain⟩
    · cases h
  · cases h

/-- **What an access finds in registers of the declared kinds**: an array of the kind it was compiled for, with
the words of every element that passes the check. -/
theorem State.Kinded.inside {r : Routine} {h k : Heap} {s : State} (hs : s.Kinded r h) {q : Nat} {kind : ElementKind}
    (hq : r.elementAt? q = some kind) {v : Value} (hv : s.frame.registers[q]? = some v) {id : ObjectId} {a : PlainArray}
    (ha : Heap.plainArray v s.heap = .ok (id, a) k) :
    a.kind = kind ∧ ∀ n, ((∃ i, a.flatIndex i = .ok n) ∨ ∃ is, a.flatMultiIndex is = .ok n) →
      (n + 1) * kind.words ≤ a.words.size := by
  obtain ⟨-, -, hsound, hkind⟩ := (Heap.triple_plainArray v).ok (.refl hs.heap.sound) ha
  obtain rfl : a.kind = kind := hkind kind (hs.registers q v hv kind hq)
  refine ⟨rfl, fun n hn => hsound.inside ?_⟩
  rcases hn with ⟨i, hi⟩ | ⟨is, his⟩
  · exact hsound.count_eq ▸ Extents.lt_of_flatIndex hi
  · exact hsound.layout.lt_volume_of_flatMultiIndex his

/-- **Compiled accesses see the kind of elements they were compiled for**, in a routine whose instructions keep to
the declared kinds: wherever a run that starts with such registers and a sound heap comes to an element access of
a segment, the array that passes the checks has elements of the kind of the opcode, and the words of an element
whose index passes the check are in its data. -/
theorem Published.accessed_inside (r : Routine) (hregs : r.types.size ≤ 65536) (c : Compiler) {start : State}
    (hheap : start.heap.Sound) (hregisters : ∀ q v, start.frame.registers[q]? = some v → start.Accepts r q v)
    (hkinds : ∀ ins ∈ r.code, ins.KeepsKinds r start.heap) {x : Running} {kind : ElementKind} {a : PlainArray}
    (hvisits : ((fresh r).compile c).2.image.Visits r start x) (haccessed : x.accessed? r = some (kind, a)) :
    a.kind = kind ∧ ∀ n, ((∃ i, a.flatIndex i = .ok n) ∨ ∃ is, a.flatMultiIndex is = .ok n) →
      (n + 1) * kind.words ≤ a.words.size := by
  obtain ⟨pc, segment, i, vars, ins, q, v, id, k, hmode, hi, hins, haccess, hv, hplain⟩ :=
    Running.exists_of_accessed? haccessed
  obtain ⟨hplaced, hs⟩ :=
    (secures_kinded hregs c hkinds).visited (executes_compile r c).2 ⟨.refl hheap, hregisters⟩ hvisits
  cases hplaced with
  | interpreting => cases hmode
  | compiled found isPlan lowered =>
    cases hmode
    rw [lowered.range] at hi
    have hcase : ins.opcode ≠ .caseEntry := by
      intro hop
      rw [Instruction.access?, hop] at haccess
      cases haccess
    have heligible := (SegmentFinder.soundRange_of_mem_find r hregs found).eligible i hi ins hins hcase
    exact hs.inside (Routine.elementAt?_of_access heligible haccess) hv hplain

/-- The machine after `n` steps of a run that does not end before. -/
def Image.after (m : Image) (r : Routine) : Nat → Running → Option Running
  | 0, x => some x
  | n + 1, x =>
    match m.advance r x with
    | .next y => after m r n y
    | .halt _ => none

/-- What comes after a machine a run visits is visited, too. -/
theorem Image.Visits.after {m : Image} {r : Routine} {start : State} {n : Nat} {x y : Running}
    (hx : m.Visits r start x) (hy : m.after r n x = some y) : m.Visits r start y := by
  induction n generalizing x with
  | zero =>
    cases hy
    exact hx
  | succ n ih =>
    unfold Image.after at hy
    split at hy
    · rename_i z hz
      exact ih (hx.next hz) hy
    · cases hy

/-- Adds to every element of an array and takes one out. -/
def Routine.raises : Routine where
  name := "raises"
  code := #[⟨.arith .add, 0, 1, 2, 0⟩, ⟨.arrayGet .int, 2, 1, 3, 0⟩]
  types := #[.array .int, .int, .array .int, .int]
  constants := #[]
  checked := by decide

/-- The access finds the array the addition has made. -/
theorem Published.accessed_inside_raises :
    let start : State := ⟨⟨#[.object .array 0, .ofInt 1, .none, .ofInt 0], .none, #[]⟩, {},
      ⟨#[some ⟨1, .ofPlain (.ofShape .int [2] #[10, 20])⟩]⟩, "", default⟩
    Routine.raises.types.size ≤ 65536 ∧ start.heap.Sound ∧
      (∀ q v, start.frame.registers[q]? = some v → start.Accepts .raises q v) ∧
      (∀ ins ∈ Routine.raises.code, ins.KeepsKinds .raises start.heap) ∧
      ∃ x, ((Published.fresh .raises).compile {}).2.image.Visits .raises start x ∧
        x.accessed? .raises = some (.int, .ofShape .int [2] #[11, 21]) ∧ (1 + 1) * ElementKind.int.words ≤ 2 := by
  intro start
  have hregs : Routine.raises.types.size ≤ 65536 := by decide
  have hheap : start.heap.Sound := by
    intro id a ha
    have hid : id < 1 := Heap.lt_size_of_get? ha
    interval_cases id
    cases ha
    exact PlainArray.Sound.object (a := .ofShape .int [2] #[10, 20]) (PlainArray.sound_ofShape rfl rfl) _
  have hregisters : ∀ q v, start.frame.registers[q]? = some v → start.Accepts .raises q v := by
    intro q v hv kind hkind
    obtain ⟨hq, -⟩ := Array.getElem?_eq_some_iff.1 hv
    have hq : q < 4 := hq
    interval_cases q <;> cases hv <;> cases hkind
    · exact Heap.KindAt.of_get? (a := ⟨.ofShape [2], .int, .plain #[10, 20], trivial⟩) rfl
    · rfl
    · trivial
    · rfl
  have hkinds : ∀ ins ∈ Routine.raises.code, ins.KeepsKinds .raises start.heap := by
    intro ins hins kind hkind
    have hins : ins ∈ [⟨.arith .add, 0, 1, 2, 0⟩, ⟨.arrayGet .int, 2, 1, 3, 0⟩] := Array.mem_def.1 hins
    rcases List.mem_pair.1 hins with rfl | rfl <;> cases hkind
    · exact ⟨nofun, .int, .int, rfl, rfl, rfl⟩
    · refine ⟨?_, trivial⟩
      rintro _ ⟨⟩
      rfl
  obtain ⟨x, hx, haccessed⟩ : ∃ x, ((Published.fresh .raises).compile {}).2.image.after .raises 2
      ⟨.interpreting 0, start⟩ = some x ∧ x.accessed? .raises = some (.int, .ofShape .int [2] #[11, 21]) :=
    Option.bind_eq_some_iff.1 (by cbv)
  have hvisits := Image.Visits.start.after hx
  have hinside := (accessed_inside .raises hregs {} hheap hregisters hkinds hvisits haccessed).2 1 (.inl ⟨1, by decide⟩)
  exact ⟨hregs, hheap, hregisters, hkinds, x, hvisits, haccessed, hinside⟩

/-- Copies an array of complex numbers into a register for integers and takes an integer out. -/
def Routine.recasts : Routine where
  name := "recasts"
  code := #[⟨.move, 0, 0, 1, 0⟩, ⟨.arrayGet .int, 1, 2, 3, 0⟩, ⟨.ret, 3, 1, 0, 0⟩]
  types := #[.array .complex, .array .int, .int, .int]
  constants := #[]
  checked := by decide

/-- **A copy carries an array of another kind into a register.** Every instruction is eligible, and at the start
the registers hold what they are declared to hold. Compiled code then accesses an array of complex numbers as
integers: where the interpreter reads element one, it reads the second word of element zero. -/
theorem Published.accessed_recasts :
    let start : State := ⟨⟨#[.object .array 0, .none, .ofInt 1, .ofInt 0], .none, #[]⟩, {},
      ⟨#[some ⟨1, .ofPlain (.ofShape .complex [2] #[1, 2, 3, 4])⟩]⟩, "", default⟩
    let compiled := ((Published.fresh .recasts).compile {}).2
    start.heap.Sound ∧ (∀ q v, start.frame.registers[q]? = some v → start.Accepts .recasts q v) ∧
      (∀ ins ∈ Routine.recasts.code, Classifier.standard.isEligible Routine.recasts.types ins = true) ∧
      (∃ x, compiled.image.Visits .recasts start x ∧
        x.accessed? .recasts = some (.int, .ofShape .complex [2] #[1, 2, 3, 4])) ∧
      ((Published.fresh .recasts).run 5 start).map (·.result) = some (.ok (.ofInt 3)) ∧
      (compiled.run 5 start).map (·.result) = some (.ok (.ofInt 2)) := by
  intro start compiled
  have hheap : start.heap.Sound := by
    intro id a ha
    have hid : id < 1 := Heap.lt_size_of_get? ha
    interval_cases id
    cases ha
    exact PlainArray.Sound.object (a := .ofShape .complex [2] #[1, 2, 3, 4]) (PlainArray.sound_ofShape rfl rfl) _
  have hregisters : ∀ q v, start.frame.registers[q]? = some v → start.Accepts .recasts q v := by
    intro q v hv kind hkind
    obtain ⟨hq, -⟩ := Array.getElem?_eq_some_iff.1 hv
    have hq : q < 4 := hq
    interval_cases q <;> cases hv <;> cases hkind
    · exact Heap.KindAt.of_get? (a := ⟨.ofShape [2], .complex, .plain #[1, 2, 3, 4], trivial⟩) rfl
    · trivial
    · rfl
    · rfl
  have hcompiled : (fun p : Published => ((p.image.after .recasts 2 ⟨.interpreting 0, start⟩).bind
      (Running.accessed? .recasts), (p.run 5 start).map (·.result))) ((Published.fresh .recasts).compile {}).2 =
        (some (.int, .ofShape .complex [2] #[1, 2, 3, 4]), some (.ok (.ofInt 2))) := by cbv
  obtain ⟨haccessed, hrun⟩ := Prod.mk.inj hcompiled
  obtain ⟨x, hx, haccessed⟩ := Option.bind_eq_some_iff.1 haccessed
  exact ⟨hheap, hregisters, by decide, ⟨x, Image.Visits.start.after hx, haccessed⟩, by decide +kernel, hrun⟩

end RegisterVM
