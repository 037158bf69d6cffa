import RegisterVM.Proofs.StepAlike

/-!
# The registers a step accesses

Which registers an instruction reads and writes cannot be told from what it does to the state: a difference of a
register with itself is zero whatever the register holds. So instructions are also executed by actions that keep a log
(`Traced`). Such an action gets at the register file through the accesses of a `Machine` only, which log the register;
everything else it does, it does without a register file (`Traced.blind`).

Without its log, `Traced.step` is `step`. The log of a step that completes has exactly the registers of the operands,
at full width, and that of a step that fails no others (`Traced.Follows.step`).
-/

namespace RegisterVM

/-! ### Actions with a log -/

/-- One access to the register file. -/
inductive Access where
  | read (i : Nat)
  | write (i : Nat)
deriving DecidableEq, Repr

/-- A state and the accesses to its registers so far. -/
structure Logged where
  state : State
  log : List Access

/-- An action that logs the registers it accesses. -/
abbrev Traced := EStateM Failure Logged

/-- The state with another register file. -/
def State.withRegisters (s : State) (registers : Array Value) : State :=
  { s with frame := { s.frame with registers } }

/-- How an action ended, in a state seen through `f`. -/
def mapState {α σ τ : Type} (f : σ → τ) : EStateM.Result Failure σ α → EStateM.Result Failure τ α
  | .ok a s => .ok a (f s)
  | .error e s => .error e (f s)

namespace Traced

variable {α β : Type}

/-- An action that gets no registers to see, and whose state gets them back when it has ended. -/
def blind (m : Exec α) : Traced α := fun x =>
  mapState (fun t => ⟨t.withRegisters x.state.frame.registers, x.log⟩) (m (x.state.withRegisters #[]))

/-- An action that is one access. -/
def noting (access : Access) (m : Exec α) : Traced α := fun x =>
  mapState (fun t => ⟨t, x.log ++ [access]⟩) (m x.state)

instance : Machine Traced where
  register i := noting (.read i) (Exec.register i)
  put i v := noting (.write i) (Exec.put (.register i) v)
  write i v := noting (.write i) (Exec.write (.register i) v)
  overwrite i v := noting (.write i) (Exec.overwrite (.register i) fun _ => v)
  other := blind

/-- Executes the instruction `ins` at `pc` and logs the registers it accesses. -/
def step : Routine → Nat → Instruction → Traced Flow := Machine.step

end Traced

/-! ### Actions that need no registers -/

namespace Exec

variable {α β : Type}

/-- An action that neither looks at the register file nor changes it. -/
def Blind (m : Exec α) : Prop :=
  ∀ s registers, m (s.withRegisters registers) = mapState (·.withRegisters registers) (m s)

namespace Blind

/-- Returning a value does without registers. -/
theorem pure (a : α) : Blind (pure a : Exec α) := fun _ _ => rfl

/-- Failing does without registers. -/
theorem throw (e : Failure) : Blind (throw e : Exec α) := fun _ _ => rfl

/-- A sequence does without registers if both parts do. -/
theorem bind {m : Exec α} {f : α → Exec β} (hm : Blind m) (hf : ∀ a, Blind (f a)) : Blind (m >>= f) := by
  intro s registers
  have hs := hm s registers
  cases h : m s with
  | ok a t =>
    rw [h] at hs
    rw [bind_of_ok hs, bind_of_ok h]
    exact hf a t registers
  | error e t =>
    rw [h] at hs
    rw [bind_of_error hs, bind_of_error h]
    rfl

/-- The heap is reached without registers. -/
theorem onHeap (m : HeapM α) : Blind (onHeap m) := by
  rintro ⟨⟨_, receiver, outer⟩, names, heap, output, random⟩ registers
  unfold Exec.onHeap State.withRegisters
  dsimp only
  cases m heap <;> rfl

/-- So is a result that has been computed. -/
theorem ofExcept (x : Except ErrorCode α) : Blind (ofExcept x) := by
  cases x with
  | ok a => exact .pure a
  | error e => exact .throw _

/-- Checking the tag of a value does without registers. -/
theorem checkTag (v : Value) (expected : Option Tag) : Blind (checkTag v expected) := by
  unfold Exec.checkTag
  split
  · exact .pure _
  · exact .throw _

/-- Reading a row of slots does without registers. -/
theorem slotOf (slots : Array Value) (i : Nat) : Blind (slotOf slots i) := by
  unfold Exec.slotOf
  split
  · exact .pure _
  · exact .throw _

/-- A look at anything but the registers. -/
theorem look {f : State → Exec α} (hf : ∀ s, Blind (f s))
    (hsame : ∀ s registers, f (s.withRegisters registers) = f s) : Blind (get >>= f) := by
  intro s registers
  change f (s.withRegisters registers) (s.withRegisters registers) = mapState _ (f s s)
  rw [hsame]
  exact hf s s registers

/-- A change that commutes with replacing the registers does without them. -/
theorem update {f : State → State}
    (hf : ∀ s registers, f (s.withRegisters registers) = (f s).withRegisters registers) :
    Blind (modify f : Exec Unit) := fun s registers => congrArg (EStateM.Result.ok ()) (hf s registers)

section Place

variable {p : Place} (hp : p.base? = none)

include hp

/-- Reading a place that is no register and in none. -/
theorem read : Blind (read p) := by
  cases p with
  | register | item => cases hp
  | receiver i => exact .look (fun _ => .onHeap _) fun _ _ => rfl
  | statics i => exact .look (fun _ => .slotOf _ _) fun _ _ => rfl
  | globals i => exact .look (fun _ => .slotOf _ _) fun _ _ => rfl
  | outer depth i =>
    refine .look (fun s => ?_) fun _ _ => rfl
    cases s.frame.outer[depth]? with
    | some registers => exact .slotOf _ _
    | none => exact .throw _

/-- Overwriting such a place. -/
theorem overwrite (f : Value → Value) : Blind (overwrite p f) := by
  cases p with
  | register | item => cases hp
  | receiver i => exact .look (fun _ => .onHeap _) fun _ _ => rfl
  | statics i => exact .update fun _ _ => rfl
  | globals i => exact .update fun _ _ => rfl
  | outer depth i => exact .update fun _ _ => rfl

/-- Storing into such a place. -/
theorem write (v : Value) : Blind (write p v) :=
  .bind (.read hp) fun _ => .bind (.onHeap _) fun _ => .bind (.overwrite hp _) fun _ => .onHeap _

end Place

/-! The actions of single instructions. -/

/-- The declared type of a register is in the routine. -/
theorem typeOf (r : Routine) (x : Int32) : Blind (Step.typeOf r x) := by
  unfold Step.typeOf
  split
  · exact .pure _
  · exact .throw _

/-- A constant is in the routine. -/
theorem constant (r : Routine) (x : Int32) : Blind (Step.constant r x) := by
  unfold Step.constant
  split
  · exact .pure _
  · exact .throw _

/-- A mathematical function works on its argument, and maybe on the generator. -/
theorem applyMath (f : MathFn) (x : UInt64) : Blind (Step.applyMath f x) := fun _ _ => rfl

/-- A case table is in the routine. -/
theorem caseTarget? (r : Routine) (d : Int64) (entries : List Instruction) :
    Blind (Step.caseTarget? r d entries) := by
  induction entries with
  | nil => exact .pure _
  | cons entry rest ih =>
    refine .bind (.constant r entry.a) fun k => ?_
    split
    · exact .pure _
    · exact ih

/-- The number of an index register comes from the operands. -/
theorem following (base : Int32) (k : Nat) : Blind (Step.following base k) := by
  unfold Step.following
  split
  · exact .pure _
  · exact .throw _

/-- Where a switch goes depends on the value given to it alone. -/
theorem select (r : Routine) (pc : Nat) (ins : Instruction) (v : Value) :
    Blind (Step.select r pc ins v) := by
  unfold Step.select
  dsimp only
  split
  · exact .throw _
  · split
    · exact .pure _
    · exact .bind (.caseTarget? _ _ _) fun _ => .pure _

end Blind

end Exec

/-! ### An action and its log -/

namespace Access

/-- The access is a read of one of the first registers or a write of one of the second. -/
def Among (R W : List Nat) : Access → Prop
  | read q => q ∈ R
  | write q => q ∈ W

instance (R W : List Nat) : (x : Access) → Decidable (x.Among R W)
  | read q => inferInstanceAs (Decidable (q ∈ R))
  | write q => inferInstanceAs (Decidable (q ∈ W))

variable {R R' W W' : List Nat} {x : Access}

/-- No access is among none. -/
theorem not_among_nil (x : Access) : ¬x.Among [] [] := by
  cases x <;> exact List.not_mem_nil

/-- An access is among joined lists just if it is among one pair of them. -/
theorem among_append : x.Among (R ++ R') (W ++ W') ↔ x.Among R W ∨ x.Among R' W' := by
  cases x <;> exact List.mem_append

/-- Only the members of the lists count. -/
theorem among_congr (hR : ∀ q, q ∈ R ↔ q ∈ R') (hW : ∀ q, q ∈ W ↔ q ∈ W') : x.Among R W ↔ x.Among R' W' := by
  cases x with
  | read q => exact hR q
  | write q => exact hW q

end Access

namespace Traced

variable {α β : Type}

/-- The action does what `x` does, and logs reads of `R` and writes of `W` only: all of them if `x` completes. -/
def Follows (m : Traced α) (x : Exec α) (R W : List Nat) : Prop :=
  ∀ s log, ∃ more, m ⟨s, log⟩ = mapState (fun t => ⟨t, log ++ more⟩) (x s) ∧
    (∀ access ∈ more, access.Among R W) ∧ ∀ a t, x s = .ok a t → ∀ access, access.Among R W → access ∈ more

namespace Follows

variable {m : Traced α} {x : Exec α} {R R' W W' : List Nat}

/-- In sequence, accesses add up. -/
theorem bind {f : α → Traced β} {g : α → Exec β} (hm : Follows m x R W) (hf : ∀ a, Follows (f a) (g a) R' W') :
    Follows (m >>= f) (x >>= g) (R ++ R') (W ++ W') := by
  intro s log
  obtain ⟨more, hrun, hamong, hall⟩ := hm s log
  cases h : x s with
  | error e t =>
    rw [h] at hrun
    refine ⟨more, ?_, fun access hx => Access.among_append.2 (.inl (hamong access hx)), fun b u hb => ?_⟩
    · rw [bind_of_error hrun, bind_of_error h]
      rfl
    · rw [bind_of_error h] at hb
      cases hb
  | ok a t =>
    rw [h] at hrun
    obtain ⟨more', hrun', hamong', hall'⟩ := hf a t (log ++ more)
    refine ⟨more ++ more', ?_, fun access hx => ?_, fun b u hb access hx => ?_⟩
    · rw [bind_of_ok hrun, bind_of_ok h, hrun', List.append_assoc]
    · exact Access.among_append.2 ((List.mem_append.1 hx).imp (hamong access) (hamong' access))
    · rw [bind_of_ok h] at hb
      exact List.mem_append.2 ((Access.among_append.1 hx).imp (hall a t h access) (hall' b u hb access))

/-- The lists of registers can be replaced by others with the same members. -/
theorem congr (h : Follows m x R W) (hR : ∀ q, q ∈ R ↔ q ∈ R') (hW : ∀ q, q ∈ W ↔ q ∈ W') : Follows m x R' W' := by
  intro s log
  obtain ⟨more, hrun, hamong, hall⟩ := h s log
  exact ⟨more, hrun, fun access hx => (Access.among_congr hR hW).1 (hamong access hx),
    fun a t hok access hx => hall a t hok access ((Access.among_congr hR hW).2 hx)⟩

/-- An action that logs nothing. -/
theorem of_silent (h : ∀ s log, m ⟨s, log⟩ = mapState (fun t => ⟨t, log⟩) (x s)) : Follows m x [] [] := by
  intro s log
  refine ⟨[], ?_, fun _ hx => (List.not_mem_nil hx).elim, fun _ _ _ access hx => (Access.not_among_nil access hx).elim⟩
  rw [List.append_nil]
  exact h s log

/-- Returning a value accesses nothing. -/
theorem pure (a : α) : Follows (pure a) (pure a) [] [] := of_silent fun _ _ => rfl

/-- An action that does without registers accesses none. -/
theorem blind (h : x.Blind) : Follows (blind x) x [] [] := by
  refine of_silent fun s log => ?_
  -- With its own registers put back, the state is the one the action starts from.
  have hback : x s = mapState (·.withRegisters s.frame.registers) (x (s.withRegisters #[])) :=
    h (s.withRegisters #[]) s.frame.registers
  rw [hback]
  unfold Traced.blind
  cases x (s.withRegisters #[]) <;> rfl

/-- An action that only fails need not log anything. -/
theorem fail (e : Failure) (R W : List Nat) : Follows (Traced.blind (throw e)) (throw e : Exec α) R W := by
  intro s log
  refine ⟨[], ?_, fun _ hx => (List.not_mem_nil hx).elim, fun a t hok => by cases hok⟩
  rw [List.append_nil]
  rfl

/-- One access is noted, and it is the one that may be. -/
theorem noting {access : Access} (h : ∀ y : Access, y.Among R W ↔ y = access) : Follows (noting access x) x R W := by
  intro s log
  refine ⟨[access], rfl, fun y hy => (h y).2 (List.mem_singleton.1 hy), fun _ _ _ y hy => ?_⟩
  rw [(h y).1 hy]
  exact List.mem_singleton_self access

/-- Noting that a register is read. -/
theorem noting_read (i : Nat) : Follows (Traced.noting (.read i) x) x [i] [] :=
  .noting fun y => by cases y <;> simp [Access.Among]

/-- Noting that a register is written. -/
theorem noting_write (i : Nat) : Follows (Traced.noting (.write i) x) x [] [i] :=
  .noting fun y => by cases y <;> simp [Access.Among]

/-- A look at the state, in which there are no registers to see. -/
theorem look {f : State → Traced β} {g : State → Exec β} (hf : ∀ s, Follows (f (s.withRegisters #[])) (g s) R W) :
    Follows (Traced.blind get >>= f) (get >>= g) R W :=
  fun s log => hf s s log

/-- An action on the heap accesses no registers. -/
theorem onHeap (m : HeapM α) : Follows (Traced.blind (Exec.onHeap m)) (Exec.onHeap m) [] [] := .blind (.onHeap m)

/-! ### Operands -/

/-- Reading the register of an operand. -/
theorem reg (x : Int32) : Follows (Machine.reg x) (Step.reg x) [placeOf x] [] := .noting_read _

/-- Reading its payload words. -/
theorem words (x : Int32) : Follows (Machine.words x) (Step.words x) [placeOf x] [] :=
  .bind (.reg x) fun _ => .pure _

/-- Reading it as an integer. -/
theorem int (x : Int32) : Follows (Machine.int x) (Step.int x) [placeOf x] [] :=
  .bind (.words x) fun _ => .pure _

/-- Handing a value over to the register of an operand. -/
theorem set (x : Int32) (v : Value) : Follows (Machine.set x v) (Step.set x v) [] [placeOf x] := .noting_write _

/-- Storing a copy in it. -/
theorem copyTo (x : Int32) (v : Value) : Follows (Machine.copyTo x v) (Step.copyTo x v) [] [placeOf x] :=
  .noting_write _

/-- Storing a scalar in it. -/
theorem setScalar (r : Routine) (x : Int32) (kind : ScalarKind) (w : Words) :
    Follows (Machine.setScalar r x kind w) (Step.setScalar r x kind w) [] [placeOf x] :=
  .bind (.blind (.typeOf r x)) fun _ => .set x _

/-- An action that reads one register for each member of a list reads them all. -/
theorem mapM {γ : Type} {f : γ → Traced α} {g : γ → Exec α} {place : γ → Nat}
    (h : ∀ k, Follows (f k) (g k) [place k] []) (ks : List γ) : Follows (ks.mapM f) (ks.mapM g) (ks.map place) [] := by
  induction ks with
  | nil => exact .pure _
  | cons k ks ih =>
    rw [List.mapM_cons, List.mapM_cons]
    exact (Follows.bind (h k) fun _ => .bind ih fun _ => .pure _).congr (by simp) (by simp)

/-- An index register; if its number is none, nothing is accessed. -/
theorem index (base : Int32) (k : Nat) :
    Follows (Traced.blind (Step.following base k) >>= Machine.int) (Step.following base k >>= Step.int)
      [placeOf (base + Int32.ofNat k)] [] := by
  unfold Step.following
  split
  · exact fun s log => Follows.int _ s log
  · exact .fail _ _ _

/-- The indices of an element are read from the registers after the base. -/
theorem indices (base count : Int32) :
    Follows (Machine.indices base count) (Step.indices base count) (indexPlaces base count) [] :=
  .mapM (fun _ => .index base _) _

/-- Reading an item of the object in a register reads the register. -/
theorem readItem (kind : ObjectKind) (x : Int32) (i : Nat) :
    Follows (Machine.readItem kind x i) (Machine.readItem kind x i) [placeOf x] [] :=
  .bind (.reg x) fun _ => .onHeap _

/-- Overwriting an item of the object in a register reads the register: what is written is in the heap. -/
theorem overwriteItem (kind : ObjectKind) (x : Int32) (i : Nat) (v : Value) :
    Follows (Machine.overwriteItem kind x i v) (Machine.overwriteItem kind x i v) [placeOf x] [] :=
  .bind (.reg x) fun _ => .onHeap _

/-- So does storing into such an item. -/
theorem writeItem (kind : ObjectKind) (x : Int32) (i : Nat) (v : Value) :
    Follows (Machine.writeItem kind x i v) (Machine.writeItem kind x i v) [placeOf x] [] := by
  have hwrite : Follows (Machine.writeItem kind x i v) (Machine.writeItem kind x i v) [placeOf x, placeOf x] [] :=
    .bind (.readItem kind x i) fun _ => .bind (.onHeap _) fun _ => .bind (.overwriteItem kind x i v) fun _ => .onHeap _
  exact hwrite.congr (by simp) fun _ => .rfl

/-! ### Instructions -/

/-- An immediate is written into the register of its operand. -/
theorem data (r : Routine) (ins : Instruction) :
    Follows (Machine.data r ins) (Step.data r ins) [] [placeOf ins.c] := by
  unfold Step.data Machine.data
  cases Tag.ofCode? ins.a.toUInt32.toNat with
  | none => exact .fail _ _ _
  | some tag =>
    cases tag with
    | none | enum => exact .set _ _
    | bool | int | float => exact .setScalar _ _ _ _
    | _ => exact .fail _ _ _

/-- A test reads the register it is about. -/
theorem testHolds (kind : TestKind) (x : Int32) :
    Follows (Machine.testHolds kind x) (Step.testHolds kind x) [placeOf x] [] := by
  cases kind with
  | bool | int | float => exact .bind (.reg x) fun _ => .pure _
  | any => exact .bind (.reg x) fun _ => .look fun _ => .pure _

/-- An instruction that does not transfer control accesses the registers its layout names. -/
theorem effect (r : Routine) {ins : Instruction} (htest : ∀ kind, ins.opcode ≠ .test kind)
    (hswitch : ins.opcode ≠ .switch) (hret : ins.opcode ≠ .ret) :
    Follows (Machine.effect r ins) (Step.effect r ins) ins.reads ins.writes := by
  obtain ⟨op, a, b, c, line⟩ := ins
  -- A store into a container looks at the container first and at the value last.
  have hreverse (q : Nat) : q ∈ [placeOf c, placeOf b, placeOf a] ↔ q ∈ [placeOf a, placeOf b, placeOf c] := by
    simp only [List.mem_cons, List.not_mem_nil, or_false]
    tauto
  have hrotate (q : Nat) : q ∈ [placeOf b, placeOf c, placeOf a] ↔ q ∈ [placeOf a, placeOf b, placeOf c] := by
    simp only [List.mem_cons, List.not_mem_nil, or_false]
    tauto
  have hspan (q : Nat) : q ∈ indexPlaces c b ++ [placeOf c, placeOf a] ↔
      q ∈ placeOf a :: placeOf c :: indexPlaces c b := by
    simp only [List.mem_append, List.mem_cons, List.not_mem_nil, or_false]
    tauto
  cases op with
  | nop | goto => exact .pure _
  | test kind => exact absurd rfl (htest kind)
  | switch => exact absurd rfl hswitch
  | ret => exact absurd rfl hret
  | caseEntry | callSegment => exact .fail _ _ _
  | data => exact .data r _
  | getConst | getConstString => exact .bind (.blind (.constant r b)) fun _ => .copyTo c _
  | getConstScalar => exact .bind (.blind (.constant r b)) fun _ => .setScalar r c _ _
  | move | moveString => exact .bind (.reg a) fun _ => .copyTo c _
  | moveScalar | convert | unary => exact .bind (.words a) fun _ => .setScalar r c _ _
  | intArith =>
    exact .bind (.int a) fun _ => .bind (.int b) fun _ => .bind (.blind (.ofExcept _)) fun _ => .setScalar r c _ _
  | intBits | compareInt => exact .bind (.int a) fun _ => .bind (.int b) fun _ => .setScalar r c _ _
  | logic | floatArith | complexArith | compareFloat | compareComplex =>
    exact .bind (.words a) fun _ => .bind (.words b) fun _ => .setScalar r c _ _
  | math =>
    unfold Step.effect Machine.effect
    dsimp only
    cases MathFn.ofNumber? a.toInt with
    | none => exact .fail _ _ _
    | some f => exact .bind (.words b) fun _ => .bind (.blind (.applyMath f _)) fun _ => .setScalar r c _ _
  | compareString =>
    exact .bind (.reg a) fun _ => .bind (.reg b) fun _ => .look fun _ => .setScalar r c _ _
  | arith | concat =>
    exact .bind (.reg a) fun _ => .bind (.reg b) fun _ => .bind (.onHeap _) fun _ => .set c _
  | charAt | arrayGet =>
    exact .bind (.reg a) fun _ => .bind (.int b) fun _ => .bind (.onHeap _) fun _ => .setScalar r c _ _
  | assignAll =>
    exact .congr (.bind (.reg b) fun _ => .bind (.blind (.checkTag _ _)) fun _ => .bind (.reg c) fun _ =>
      .bind (.reg a) fun _ => .onHeap _) hrotate fun _ => .rfl
  | setChar =>
    exact .congr (.bind (.reg c) fun _ => .bind (.int b) fun _ => .bind (.int a) fun _ => .bind (.onHeap _) fun _ =>
      .noting_write _) hreverse fun _ => .rfl
  | size =>
    exact .congr (.bind (.reg a) fun _ => .bind (.blind (.checkTag _ _)) fun _ => .bind (.reg a) fun _ =>
      .bind (.onHeap _) fun _ => .setScalar r c _ _) (fun _ => by simp [Instruction.reads, Opcode.layout]) fun _ => .rfl
  | arraySet =>
    exact .congr (.bind (.reg c) fun _ => .bind (.int b) fun _ => .bind (.words a) fun _ => .onHeap _) hreverse
      fun _ => .rfl
  | listSet =>
    exact .congr (.bind (.reg c) fun _ => .bind (.int b) fun _ => .bind (.reg a) fun _ => .onHeap _) hreverse
      fun _ => .rfl
  | arrayGetMulti =>
    refine .congr (.bind (.indices a b) fun _ => .bind (.reg a) fun _ => .bind (.onHeap _) fun _ =>
      .setScalar r c _ _) (fun q => ?_) fun _ => .rfl
    exact (List.perm_append_singleton (placeOf a) (indexPlaces a b)).mem_iff
  | arraySetMulti =>
    exact .congr (.bind (.indices c b) fun _ => .bind (.reg c) fun _ => .bind (.words a) fun _ => .onHeap _) hspan
      fun _ => .rfl
  | listGet =>
    exact .bind (.reg a) fun _ => .bind (.int b) fun _ => .bind (.onHeap _) fun _ =>
      .bind (.blind (.typeOf r c)) fun _ => .bind (.blind (.checkTag _ _)) fun _ => .copyTo c _
  | tupleGetAny =>
    exact .bind (.readItem _ a _) fun _ => .bind (.blind (.typeOf r c)) fun _ =>
      .bind (.blind (.checkTag _ _)) fun _ => .copyTo c _
  | tupleSetAny =>
    exact .bind (.reg a) fun _ => .bind (.blind (.typeOf r c)) fun _ => .bind (.blind (.checkTag _ _)) fun _ =>
      .writeItem _ c _ _
  | tupleGet | getField => exact .bind (.readItem _ a _) fun _ => .setScalar r c _ _
  | tupleSet | setField => exact .bind (.reg a) fun _ => .writeItem _ c _ _
  | getVar storage =>
    exact .bind (.blind (.read (by cases storage <;> rfl))) fun _ => .setScalar r c _ _
  | setVar storage => exact .bind (.reg a) fun _ => .blind (.write (by cases storage <;> rfl) _)
  | print => exact .bind (.reg a) fun _ => .bind (.onHeap _) fun _ => .blind (.update fun _ _ => rfl)

/-- **One instruction**: with its log it does the same, and the log has the registers of its operands. -/
theorem step (r : Routine) (pc : Nat) (ins : Instruction) :
    Follows (Traced.step r pc ins) (RegisterVM.step r pc ins) ins.reads ins.writes := by
  have heffect (htest : ∀ kind, ins.opcode ≠ .test kind) (hswitch : ins.opcode ≠ .switch) (hret : ins.opcode ≠ .ret) :
      Follows (Machine.effect r ins >>= fun _ => Pure.pure Flow.next) (Step.effect r ins >>= fun _ => Pure.pure .next)
        ins.reads ins.writes := by
    simpa only [List.append_nil] using Follows.bind (.effect r htest hswitch hret) fun _ => .pure Flow.next
  obtain ⟨op, a, b, c, line⟩ := ins
  cases op with
  | goto => exact .pure _
  | test kind =>
    refine .bind (.testHolds kind a) fun holds => ?_
    cases holds <;> exact .pure _
  | switch => exact .bind (.reg a) fun v => .blind (.select r pc _ v)
  | ret =>
    unfold Traced.step RegisterVM.step Machine.step Instruction.reads
    dsimp only [Opcode.layout]
    split
    · exact .pure _
    · exact .bind (.reg a) fun _ => .bind (.onHeap _) fun _ => .pure _
  | _ => exact heffect (fun _ => Opcode.noConfusion) Opcode.noConfusion Opcode.noConfusion

end Follows

end Traced

end RegisterVM
