import RegisterVM.Proofs.InstructionSequences
import RegisterVM.Proofs.Variables

/-!
# One compiled instruction

An instruction that does not transfer control, compiled, does to variables and slots what the
interpreter does to its registers (`ends_effect`): from a state and an activation that mirrors it, both
fail for the same reason, or end in a state and an activation that mirrors it. The register written is
current in its variable, and in its slot unless the plan lets the slot wait (`Updates`).
-/

namespace RegisterVM

/-- Wants that no unboxed scalar meets. -/
def Want.isBoxed : Want → Bool
  | scalar _ | numeric => false
  | _ => true

/-- A type that is admitted as a boxed operand is not unboxed. -/
theorem Want.scalarTag?_eq_none {want : Want} {t : ValueType} (hwant : want.isBoxed = true)
    (h : want.admits t = true) : t.scalarTag? = Option.none := by
  cases want with
  | scalar kind => cases hwant
  | numeric => cases hwant
  | _ => cases t <;> first | rfl | cases h

namespace Native

/-! ### What is current -/

/-- What an instruction makes of the current variables `V` and slots `K`. -/
structure Updates (plan : Plan) (ins : Instruction) (V K V' K' : Nat → Prop) : Prop where
  keeps : ∀ i, i ∉ ins.writes → (V i → V' i) ∧ (K i → K' i)
  given : ∀ q : Reg, q.toNat ∈ ins.writes →
    V' q.toNat ∧ (plan.register? q = none ∨ plan.through q ≠ [] → K' q.toNat)

/-- The interpreter and compiled code end alike, with what an instruction makes current. -/
abbrev Follows (r : Routine) (plan : Plan) (ins : Instruction) (V K : Nat → Prop) {α β : Type} :
    EStateM.Result Failure State α → EStateM.Result Failure Activation β → Prop :=
  Ends (fun _ _ t b => ∃ V' K', Updates plan ins V K V' K' ∧ Mirrors r plan V' K' t b) (Fails r)

/-- A register can be used: its variable is current if it has one, and its slot is or can be made so. -/
def Usable (plan : Plan) (V K : Nat → Prop) (q : Reg) : Prop :=
  (∀ x, plan.register? q = some x → V q.toNat ∧ (plan.syncOps q = [] → K q.toNat)) ∧
    (plan.register? q = none → K q.toNat)

/-- A register an instruction reads as a scalar: the words the interpreter sees, and the variable. -/
def ReadsScalar (s : State) (a : Activation) (x : Int32) (kind : ScalarKind) : Prop :=
  ∃ tag w, s.frame.registers[placeOf x]? = some (.scalar tag w) ∧ tag.kind = kind ∧
    Words.Same kind (a.var (.ofOperand x)) w ∧ (kind = .bool → w.IsTruth)

/-- A register an instruction reads as it is: the interpreter's and the slot. -/
def ReadsSlot (s : State) (a : Activation) (x : Int32) : Prop :=
  ∃ v v', s.frame.registers[placeOf x]? = some v ∧ slot (.ofOperand x) a = .ok v' a ∧ v.Alike false v'

/-- An operand that names a declared register. -/
def NamesRegister (r : Routine) (x : Int32) : Prop :=
  (Reg.ofOperand x).toNat = placeOf x ∧ placeOf x < r.types.size

/-- A register a scalar can be written to. -/
def WritesScalar (r : Routine) (plan : Plan) (x : Int32) (kind : ScalarKind) : Prop :=
  NamesRegister r x ∧ ∃ y t, plan.register? (.ofOperand x) = some y ∧ y.kind = kind ∧
    r.types[placeOf x]? = some t ∧ t.scalarTag? = some y.tag

/-- Reading a register there is. -/
theorem Step_reg_eq {s : State} {x : Int32} {v : Value} (h : s.frame.registers[placeOf x]? = some v) :
    Step.reg x s = .ok v s := by
  change Exec.register (placeOf x) s = _
  rw [Exec.register_eq, h]

/-- Reading its words. -/
theorem Step_words_eq {s : State} {x : Int32} {v : Value} (h : s.frame.registers[placeOf x]? = some v) :
    Step.words x s = .ok v.words s := bind_of_ok (Step_reg_eq h)

section

variable {r : Routine} {plan : Plan} {ins : Instruction} {V K : Nat → Prop} {s : State} {a : Activation}
  {x y c : Int32} {kind source target : ScalarKind} {e : Expr}

/-- The words of a scalar operand are those of its variable. -/
theorem ReadsScalar.words (h : ReadsScalar s a x kind) : ∃ w, Step.words x s = .ok w s ∧
    Words.Same kind (a.var (.ofOperand x)) w ∧ (kind = .bool → w.IsTruth) := by
  obtain ⟨tag, w, hreg, -, hsame, htruth⟩ := h
  exact ⟨w, Step_words_eq hreg, hsame, htruth⟩

/-- An integer operand is that of its variable. -/
theorem ReadsScalar.int (h : ReadsScalar s a x .int) :
    Step.int x s = .ok (a.var (.ofOperand x)).int s := by
  obtain ⟨w, hw, hsame, -⟩ := h.words
  rw [hsame.int_eq]
  exact bind_of_ok hw

/-- The value of a slot that is current is alike to that of the register. -/
theorem ReadsSlot.reg (h : ReadsSlot s a x) : ∃ v v', Step.reg x s = .ok v s ∧
    slot (.ofOperand x) a = .ok v' a ∧ v.Alike false v' ∧ s.frame.registers[placeOf x]? = some v := by
  obtain ⟨v, v', hreg, hslot, halike⟩ := h
  exact ⟨v, v', Step_reg_eq hreg, hslot, halike, hreg⟩

/-- A current slot can be read on both sides. -/
theorem Mirrors.readsSlot (h : Mirrors r plan V K s a) (hx : NamesRegister r x) (hK : K (placeOf x)) :
    ReadsSlot s a x := by
  obtain ⟨hnat, hlt⟩ := hx
  rw [← hnat] at hlt hK
  unfold ReadsSlot
  rw [← hnat]
  exact h.slot hlt hK

/-- A variable has been assigned: its slot follows if it is written through. -/
theorem Mirrors.through (h : Mirrors r plan V K s a) {q : Reg} (hq : V q.toNat) :
    ∃ b, performAll r.constants (plan.through q) a = .ok () b ∧
      Mirrors r plan V (fun i => K i ∨ i = q.toNat ∧ plan.through q ≠ []) s b := by
  by_cases hops : plan.through q = []
  · refine ⟨a, by rw [hops]; rfl, h.mono (fun _ hV => hV) fun i hi => ?_⟩
    exact hi.resolve_right fun hi => hi.2 hops
  · have hstored : ∃ x, plan.register? q = some x ∧ plan.through q = [Site.storeBack q x] := by
      unfold Plan.through at hops
      split at hops
      · rename_i tag d hx
        exact ⟨_, hx, by rw [Plan.through, hx]⟩
      · exact absurd rfl hops
    obtain ⟨x, hx, hops'⟩ := hstored
    obtain ⟨b, hb, -, hmirrors⟩ := h.storeBack r.constants hx
    refine ⟨b, by rw [hops']; exact performAll_cons hb _, hmirrors.mono (fun _ hV => hV) ?_⟩
    rintro i (hi | ⟨rfl, -⟩)
    · split
      · rename_i heq
        exact heq ▸ hq
      · exact hi
    · rwa [if_pos rfl]

/-- What the interpreter does with a typed result. -/
theorem WritesScalar.setScalar (hc : WritesScalar r plan c kind) (h : Mirrors r plan V K s a) :
    ∃ y t, plan.register? (.ofOperand c) = some y ∧ y.kind = kind ∧ ∀ w, Step.setScalar r c kind w s =
      .ok () (s.setRegister (Reg.ofOperand c).toNat (.scalar y.tag (kind.value t w).words)) := by
  obtain ⟨⟨hnat, -⟩, y, t, hy, rfl, ht, htag⟩ := hc
  obtain ⟨w₀, hw₀, -⟩ := h.vars _ y hy
  refine ⟨y, t, hy, rfl, fun w => ?_⟩
  have htype : Step.typeOf r c s = .ok t s := by
    unfold Step.typeOf
    rw [ht]
    rfl
  have hvalue : Value.scalar y.tag (y.kind.value t w).words = y.kind.value t w :=
    (ValueType.value_eq htag w).symm
  rw [hnat] at hw₀ ⊢
  rw [hvalue]
  exact (bind_of_ok htype).trans (Exec.put_of_scalar hw₀ _)

/-- A scalar assigned after the same computation on both sides. -/
theorem follows_assign (hc : WritesScalar r plan c kind) (hwrites : ins.writes = [placeOf c])
    {α : Type} {m : Exec α} {f : α → Words}
    (hm : Ends (fun z w t b => Words.Same kind w (f z) ∧ (kind = .bool → (f z).IsTruth) ∧
      Mirrors r plan V K t b) (Fails r) (m s) (eval e a)) :
    Follows r plan ins V K ((m >>= fun z => Step.setScalar r c kind (f z)) s)
      (performAll r.constants (.assign (.ofOperand c) e :: plan.through (.ofOperand c)) a) := by
  have hnat := hc.1.1
  have hops : performAll r.constants (.assign (.ofOperand c) e :: plan.through (.ofOperand c)) =
      eval e >>= fun w => setVar (.ofOperand c) w >>= fun _ =>
        performAll r.constants (plan.through (.ofOperand c)) := bind_assoc _ _ _
  rw [hops]
  refine Ends.bind hm ?_
  rintro z w u b ⟨hsame, htruth, hmirrors⟩
  obtain ⟨y, t, hy, rfl, hset⟩ := hc.setScalar hmirrors
  have hassigned := hmirrors.assign hy (ScalarKind.same_value t hsame htruth)
  obtain ⟨b', hb', hthrough⟩ := hassigned.through (q := .ofOperand c) (.inr rfl)
  rw [hset, show (setVar (.ofOperand c) w >>= fun _ => performAll r.constants (plan.through (.ofOperand c))) b =
    .ok () b' from hb']
  refine ⟨_, _, ?_, hthrough⟩
  refine ⟨fun i hi => ⟨.inl, fun hK => .inl ⟨hK, ?_⟩⟩, fun q hq => ?_⟩
  · rwa [hwrites, List.mem_singleton, ← hnat] at hi
  · rw [hwrites, List.mem_singleton, ← hnat] at hq
    obtain rfl := UInt16.toNat_inj.1 hq
    refine ⟨.inr rfl, ?_⟩
    rintro (hnone | hops)
    · rw [hy] at hnone
      cases hnone
    · exact .inr ⟨rfl, hops⟩

/-- A scalar computed without touching the state. -/
theorem follows_assign_pure (h : Mirrors r plan V K s a) (hc : WritesScalar r plan c kind)
    (hwrites : ins.writes = [placeOf c]) {w w' : Words} (he : eval e a = .ok w' a)
    (hsame : Words.Same kind w' w) (htruth : kind = .bool → w.IsTruth) :
    Follows r plan ins V K (Step.setScalar r c kind w s)
      (performAll r.constants (.assign (.ofOperand c) e :: plan.through (.ofOperand c)) a) := by
  refine follows_assign (m := pure w) (f := id) hc hwrites ?_
  rw [he]
  exact ⟨hsame, htruth, h⟩

/-- A scalar computed from one register. -/
theorem follows_unary (h : Mirrors r plan V K s a) (hx : ReadsScalar s a x source)
    (hc : WritesScalar r plan c target) (hwrites : ins.writes = [placeOf c]) {f g : Words → Words}
    (he : eval e a = .ok (g (a.var (.ofOperand x))) a)
    (hf : ∀ w w', Words.Same source w' w → (source = .bool → w.IsTruth) →
      Words.Same target (g w') (f w) ∧ (target = .bool → (f w).IsTruth)) :
    Follows r plan ins V K ((Step.words x >>= fun w => Step.setScalar r c target (f w)) s)
      (performAll r.constants (.assign (.ofOperand c) e :: plan.through (.ofOperand c)) a) := by
  obtain ⟨w, hw, hsame, htruth⟩ := hx.words
  obtain ⟨hresult, hresult'⟩ := hf w _ hsame htruth
  exact .of_left hw (follows_assign_pure h hc hwrites he hresult hresult')

/-- A scalar computed from two registers of one kind. -/
theorem follows_binary (h : Mirrors r plan V K s a) (hx : ReadsScalar s a x source)
    (hy : ReadsScalar s a y source) (hc : WritesScalar r plan c target)
    (hwrites : ins.writes = [placeOf c]) {f : Words → Words → Words}
    (he : eval e a = .ok (f (a.var (.ofOperand x)) (a.var (.ofOperand y))) a)
    (hf : ∀ w w' z z', Words.Same source w' w → Words.Same source z' z → f w' z' = f w z)
    (htruth : target = .bool → ∀ w z, (f w z).IsTruth) :
    Follows r plan ins V K
      ((Step.words x >>= fun w => Step.words y >>= fun z => Step.setScalar r c target (f w z)) s)
      (performAll r.constants (.assign (.ofOperand c) e :: plan.through (.ofOperand c)) a) := by
  obtain ⟨w, hw, hsame, -⟩ := hx.words
  obtain ⟨z, hz, hsame', -⟩ := hy.words
  refine .of_left hw (.of_left hz (follows_assign_pure h hc hwrites he ?_ fun hbool => htruth hbool w z))
  rw [hf w _ z _ hsame hsame']
  exact .rfl'

/-- A scalar computed from two integers. -/
theorem follows_intBinary (h : Mirrors r plan V K s a) (hx : ReadsScalar s a x .int)
    (hy : ReadsScalar s a y .int) (hc : WritesScalar r plan c target)
    (hwrites : ins.writes = [placeOf c]) {f : Int64 → Int64 → Words}
    (he : eval e a = .ok (f (a.var (.ofOperand x)).int (a.var (.ofOperand y)).int) a)
    (htruth : target = .bool → ∀ i j, (f i j).IsTruth) :
    Follows r plan ins V K
      ((Step.int x >>= fun i => Step.int y >>= fun j => Step.setScalar r c target (f i j)) s)
      (performAll r.constants (.assign (.ofOperand c) e :: plan.through (.ofOperand c)) a) :=
  .of_left hx.int (.of_left hy.int
    (follows_assign_pure h hc hwrites he .rfl' fun hbool => htruth hbool _ _))

/-! ### Scalars from slots and the heap -/

/-- Arithmetic on integers, which fails on both sides or on neither. -/
theorem follows_intArith (h : Mirrors r plan V K s a) (op : ArithOp) (hx : ReadsScalar s a x .int)
    (hy : ReadsScalar s a y .int) (hc : WritesScalar r plan c .int) (hwrites : ins.writes = [placeOf c]) :
    Follows r plan ins V K
      ((Step.int x >>= fun i => Step.int y >>= fun j => Exec.ofExcept (op.int i j) >>= fun k =>
        Step.setScalar r c .int (.single k.toUInt64)) s)
      (performAll r.constants (.assign (.ofOperand c) (.intArith op (.ofOperand x) (.ofOperand y)) ::
        plan.through (.ofOperand c)) a) := by
  refine .of_left hx.int (.of_left hy.int ?_)
  refine follows_assign (f := fun k : Int64 => .single k.toUInt64) hc hwrites ?_
  change Ends _ _ _ ((onState (Exec.ofExcept (intArith op (a.var (.ofOperand x)).int (a.var (.ofOperand y)).int))
    >>= fun k => pure (Words.single k.toUInt64)) a)
  rw [intArith_eq]
  cases op.int (a.var (.ofOperand x)).int (a.var (.ofOperand y)).int with
  | ok k => exact ⟨.rfl', nofun, h⟩
  | error e => exact ⟨rfl, h.fails⟩

/-- A mathematical function, which draws from the same generator on both sides. -/
theorem follows_math (h : Mirrors r plan V K s a) (f : MathFn) (hx : ReadsScalar s a x .float)
    (hc : WritesScalar r plan c .float) (hwrites : ins.writes = [placeOf c]) :
    Follows r plan ins V K
      ((Step.words x >>= fun w => Step.applyMath f w.lo >>= fun z =>
        Step.setScalar r c .float (.single z)) s)
      (performAll r.constants (.assign (.ofOperand c) (.math f (.ofOperand x)) ::
        plan.through (.ofOperand c)) a) := by
  obtain ⟨w, hw, hsame, -⟩ := hx.words
  refine .of_left hw (follows_assign (f := fun z => .single z) hc hwrites ?_)
  refine Ends.map_right (m := onState (Step.applyMath f (a.var (.ofOperand x)).lo)) (f := Words.single)
    (P := fun z z' t b => z = z' ∧ Mirrors r plan V K t b) ?_ ?_
  · have hrandom := h.alike.world.random
    rw [hsame.1]
    refine ⟨congrArg (fun g => (f.apply w.lo g).1) hrandom, h.size, h.width, h.vars, h.alike.registers, ?_⟩
    exact { h.alike.world with random := congrArg (fun g => (f.apply w.lo g).2) hrandom }
  · rintro z _ t b ⟨rfl, hb⟩
    exact ⟨.rfl', nofun, hb⟩

/-- A scalar a heap operation computes from a slot and an index. -/
theorem follows_heapIndex (h : Mirrors r plan V K s a) (hx : ReadsSlot s a x) (hy : ReadsScalar s a y .int)
    (hc : WritesScalar r plan c kind) (hwrites : ins.writes = [placeOf c]) {α β : Type}
    {m : Value → Int64 → HeapM α} {n : Value → Int64 → HeapM β} {f : α → Words} {g : β → Words}
    (he : ∀ v', slot (.ofOperand x) a = .ok v' a → eval e a =
      (onHeap (n v' (a.var (.ofOperand y)).int) >>= fun z => pure (g z)) a)
    (hm : ∀ v v' i, s.frame.registers[placeOf x]? = some v → v.Alike false v' →
      Ends (fun z z' k k' => (Words.Same kind (g z') (f z) ∧ (kind = .bool → (f z).IsTruth)) ∧
        k.Alike false k') (Heap.Alike false) (m v i s.heap) (n v' i a.state.heap)) :
    Follows r plan ins V K
      ((Step.reg x >>= fun v => Step.int y >>= fun i => Exec.onHeap (m v i) >>= fun z =>
        Step.setScalar r c kind (f z)) s)
      (performAll r.constants (.assign (.ofOperand c) e :: plan.through (.ofOperand c)) a) := by
  obtain ⟨v, v', hv, hv', halike, hreg⟩ := hx.reg
  refine .of_left hv (.of_left hy.int (follows_assign hc hwrites ?_))
  rw [he v' hv']
  refine Ends.map_right (h.ends_onHeap (hm v v' _ hreg halike)) ?_
  rintro z z' t b ⟨⟨hsame, htruth⟩, hb⟩
  exact ⟨hsame, htruth, hb⟩

/-! ### Slots written and picked up -/

/-- An instruction that writes no register. -/
theorem Follows.of_keep (hwrites : ins.writes = []) {α β : Type} {m : EStateM.Result Failure State α}
    {m' : EStateM.Result Failure Activation β}
    (h : Ends (fun _ _ t b => Mirrors r plan V K t b) (Fails r) m m') : Follows r plan ins V K m m' := by
  refine h.mono (fun _ _ t b hb => ⟨V, K, ⟨fun _ _ => ⟨id, id⟩, fun q hq => ?_⟩, hb⟩) fun _ _ hf => hf
  rw [hwrites] at hq
  cases hq

/-- Both sides set the register an instruction writes to values that are alike. -/
theorem follows_set (h : Mirrors r plan V K s a) (hc : NamesRegister r c) (hwrites : ins.writes = [placeOf c])
    {m m' : Exec Unit} {v v' : Value}
    (hm : EndsAlike false (fun i => K i ∨ i = placeOf c) (· = ·) (m s) (m' a.state))
    (hset : m.SetsRegister (placeOf c) v) (hset' : m'.SetsRegister (placeOf c) v')
    (hv : v.Alike false v')
    (hscalar : ∀ x, plan.register? (.ofOperand c) = some x → ∃ w, v = .scalar x.tag w) :
    Follows r plan ins V K (m s)
      ((onState m' >>= fun _ => performAll r.constants (plan.reloadOps (.ofOperand c))) a) := by
  obtain ⟨hnat, hlt⟩ := hc
  rw [← hnat] at hlt hwrites hm hset hset'
  obtain ⟨t, b, ht, hb, hmirrors⟩ := h.setReload r.constants hlt hm hset hset' hv hscalar
  rw [ht, hb]
  refine ⟨_, _, ?_, hmirrors⟩
  refine ⟨fun i hi => ⟨.inl, .inl⟩, fun q hq => ⟨.inr ?_, fun _ => .inr ?_⟩⟩ <;>
  · rw [hwrites] at hq
    exact List.mem_singleton.1 hq

/-- A value copied into a register that takes it as it is. -/
theorem follows_copy (h : Mirrors r plan V K s a) (hc : NamesRegister r c) (hwrites : ins.writes = [placeOf c])
    {v v' : Value}
    (hv : v.Alike false v')
    (hscalar : ∀ x, plan.register? (.ofOperand c) = some x → ∃ w, v = .scalar x.tag w) :
    Follows r plan ins V K (Step.copyTo c v s)
      ((onState (Exec.write (.register (Reg.ofOperand c).toNat) v') >>= fun _ =>
        performAll r.constants (plan.reloadOps (.ofOperand c))) a) := by
  rw [hc.1]
  exact follows_set h hc hwrites (Exec.endsAlike_write_register h.alike _ hv)
    (Exec.setsRegister_write _ v) (Exec.setsRegister_write _ v') hv hscalar

/-- A constant loaded into a slot. -/
theorem follows_loadConstant (h : Mirrors r plan V K s a) (hc : NamesRegister r c) (hwrites : ins.writes = [placeOf c])
    (hboxed : plan.register? (.ofOperand c) = none) :
    Follows r plan ins V K ((Step.constant r x >>= fun v => Step.copyTo c v) s)
      (performAll r.constants (.loadConstant (.ofOperand c) (placeOf x) :: plan.reloadOps (.ofOperand c)) a) := by
  unfold Step.constant
  cases hx : r.constants[placeOf x]? with
  | none =>
    have hperform : (Op.loadConstant (.ofOperand c) (placeOf x)).perform r.constants =
        throw (.fault (.constant (placeOf x))) := by
      unfold Op.perform
      dsimp only
      rw [hx]
    rw [performAll_cons_eq (congrFun hperform a)]
    exact ⟨rfl, h.fails⟩
  | some v =>
    have hperform : (Op.loadConstant (.ofOperand c) (placeOf x)).perform r.constants =
        onState (Exec.write (.register (Reg.ofOperand c).toNat) v) := by
      unfold Op.perform
      dsimp only
      rw [hx]
    rw [performAll_cons_eq (congrFun hperform a)]
    refine follows_copy h hc hwrites (.refl v) fun y hy => ?_
    rw [hboxed] at hy
    cases hy

/-- A value moved from slot to slot. -/
theorem follows_move (h : Mirrors r plan V K s a) (hx : ReadsSlot s a x)
    (hc : NamesRegister r c)
    (hwrites : ins.writes = [placeOf c]) (hboxed : plan.register? (.ofOperand c) = none) :
    Follows r plan ins V K ((Step.reg x >>= fun v => Step.copyTo c v) s)
      (performAll r.constants (.move (.register (Reg.ofOperand c).toNat)
        (.register (Reg.ofOperand x).toNat) none :: plan.reloadOps (.ofOperand c)) a) := by
  obtain ⟨v, v', hv, hv', halike, -⟩ := hx.reg
  rw [performAll_cons_eq (m := onState (Exec.write (.register (Reg.ofOperand c).toNat) v'))
    (bind_of_ok (m := slot (.ofOperand x)) hv')]
  refine .of_left hv (follows_copy h hc hwrites halike fun y hy => ?_)
  rw [hboxed] at hy
  cases hy

/-- The result of a heap operation on two slots, handed to a third. -/
theorem follows_heapBinary (h : Mirrors r plan V K s a) (hx : ReadsSlot s a x) (hy : ReadsSlot s a y)
    (hc : NamesRegister r c)
    (hwrites : ins.writes = [placeOf c]) (hboxed : plan.register? (.ofOperand c) = none)
    {m n : Value → Value → HeapM Value} {op : Op}
    (hop : ∀ u v, slot (.ofOperand x) a = .ok u a → slot (.ofOperand y) a = .ok v a →
      op.perform r.constants a = (onHeap (n u v) >>= fun w =>
        onState (Exec.put (.register (Reg.ofOperand c).toNat) w)) a)
    (hm : ∀ u u' v v', s.frame.registers[placeOf x]? = some u → s.frame.registers[placeOf y]? = some v →
      u.Alike false u' → v.Alike false v' → Heap.Agree false (· = ·) (m u v) (n u' v')) :
    Follows r plan ins V K
      ((Step.reg x >>= fun u => Step.reg y >>= fun v => Exec.onHeap (m u v) >>= fun w => Step.set c w) s)
      (performAll r.constants (op :: plan.reloadOps (.ofOperand c)) a) := by
  obtain ⟨u, u', hu, hu', halike, hreg⟩ := hx.reg
  obtain ⟨v, v', hv, hv', halike', hreg'⟩ := hy.reg
  rw [performAll_cons_eq (hop u' v' hu' hv'), bind_assoc, hc.1]
  refine .of_left hu (.of_left hv ?_)
  refine Ends.bind (h.ends_onHeap (hm u u' v v' hreg hreg' halike halike' _ _ h.alike.world.heap)) ?_
  rintro w _ t b ⟨rfl, hb⟩
  refine follows_set hb hc hwrites (Exec.endsAlike_put hb.alike _ (.refl w))
    (Exec.setsRegister_put _ w) (Exec.setsRegister_put _ w) (.refl w) fun z hz => ?_
  rw [hboxed] at hz
  cases hz

/-- A byte of a string replaced. -/
theorem follows_setChar (h : Mirrors r plan V K s a) (hx : ReadsScalar s a x .int)
    (hy : ReadsScalar s a y .int) (hslot : ReadsSlot s a c) (hc : NamesRegister r c)
    (hwrites : ins.writes = [placeOf c])
    (hboxed : plan.register? (.ofOperand c) = none) :
    Follows r plan ins V K
      ((Step.reg c >>= fun v => Step.int y >>= fun i => Step.int x >>= fun ch =>
        Exec.onHeap (Heap.setChar v i ch) >>= fun w =>
          Exec.overwrite (.register (placeOf c)) fun _ => w) s)
      (performAll r.constants (.setChar (.ofOperand c) (.ofOperand y) (.ofOperand x) ::
        plan.reloadOps (.ofOperand c)) a) := by
  obtain ⟨v, v', hv, hv', halike, -⟩ := hslot.reg
  rw [performAll_cons_eq (m := onHeap (Heap.setChar v' (a.var (.ofOperand y)).int
    (a.var (.ofOperand x)).int) >>= fun w =>
      onState (Exec.overwrite (.register (Reg.ofOperand c).toNat) fun _ => w)) (bind_of_ok hv'),
    bind_assoc, hc.1]
  refine .of_left hv (.of_left hy.int (.of_left hx.int ?_))
  refine Ends.bind (h.ends_onHeap (Heap.agree_setChar halike _ _ _ _ h.alike.world.heap)) ?_
  rintro w w' t b ⟨hw, hb⟩
  refine follows_set hb hc hwrites (Exec.endsAlike_overwrite_register hb.alike fun _ _ _ _ => hw)
    (Exec.setsRegister_overwrite _ w) (Exec.setsRegister_overwrite _ w') hw fun z hz => ?_
  rw [hboxed] at hz
  cases hz

/-- An item copied into a register whose declared type says which tag it has to carry. -/
theorem follows_copyChecked (h : Mirrors r plan V K s a) (hc : NamesRegister r c)
    (hwrites : ins.writes = [placeOf c]) {t : ValueType} (ht : r.types[placeOf c]? = some t)
    {v v' : Value} (hv : v.Alike false v') {f : ValueType → Option Tag}
    (htag : ∀ z, plan.register? (.ofOperand c) = some z → f t = some z.tag.tag) :
    Follows r plan ins V K
      ((Step.typeOf r c >>= fun t => Exec.checkTag v (f t) >>= fun _ => Step.copyTo c v) s)
      ((onState (Exec.checkTag v' (f t)) >>= fun _ =>
        onState (Exec.write (.register (Reg.ofOperand c).toNat) v') >>= fun _ =>
          performAll r.constants (plan.reloadOps (.ofOperand c))) a) := by
  have htype : Step.typeOf r c s = .ok t s := by
    unfold Step.typeOf
    rw [ht]
    rfl
  refine .of_left htype ?_
  rcases Exec.checkTag_cases hv (f t) with ⟨hcheck, hleft, hright⟩ | ⟨hleft, hright⟩
  · rw [hleft, hright]
    refine follows_copy h hc hwrites hv fun z hz => ?_
    rw [htag z hz, Value.hasTag, decide_eq_true_eq] at hcheck
    exact Value.exists_scalar_of_tag hcheck
  · rw [hleft, hright]
    exact ⟨rfl, h.fails⟩

/-- An item of a list, checked for the tag of the register it goes to. -/
theorem follows_listGet (h : Mirrors r plan V K s a) (hx : ReadsSlot s a x) (hy : ReadsScalar s a y .int)
    (hc : NamesRegister r c) (hwrites : ins.writes = [placeOf c]) {t : ValueType}
    (ht : r.types[placeOf c]? = some t) {f : ValueType → Tag}
    (htag : ∀ z, plan.register? (.ofOperand c) = some z → f t = z.tag.tag) :
    Follows r plan ins V K
      ((Step.reg x >>= fun v => Step.int y >>= fun i => Exec.onHeap (Heap.listItem v i) >>= fun item =>
        Step.typeOf r c >>= fun t => Exec.checkTag item (some (f t)) >>= fun _ =>
          Step.copyTo c item) s)
      (performAll r.constants (.listGet (.ofOperand c) (.ofOperand x) (.ofOperand y) (f t) ::
        plan.reloadOps (.ofOperand c)) a) := by
  obtain ⟨v, v', hv, hv', halike, -⟩ := hx.reg
  rw [performAll_cons_eq (m := onHeap (Heap.listItem v' (a.var (.ofOperand y)).int) >>= fun item =>
    onState (Exec.checkTag item (some (f t))) >>= fun _ =>
      onState (Exec.write (.register (Reg.ofOperand c).toNat) item)) (bind_of_ok hv'), bind_assoc]
  refine .of_left hv (.of_left hy.int ?_)
  refine Ends.bind (h.ends_onHeap (Heap.agree_listItem halike _ _ _ h.alike.world.heap)) ?_
  rintro item item' u b ⟨hitem, hb⟩
  rw [bind_assoc]
  exact follows_copyChecked hb hc hwrites ht hitem (f := fun t => some (f t))
    fun z hz => congrArg some (htag z hz)

/-- An item of a tuple, checked for the tag of the register it goes to. -/
theorem follows_tupleGetAny (h : Mirrors r plan V K s a) (hnat : NamesRegister r x)
    (hx : K (placeOf x)) (i : Nat) (hc : NamesRegister r c)
    (hwrites : ins.writes = [placeOf c]) {t : ValueType} (ht : r.types[placeOf c]? = some t)
    (htag : ∀ z, plan.register? (.ofOperand c) = some z → t.tag? = some z.tag.tag) :
    Follows r plan ins V K
      ((Exec.read (.item .tuple (placeOf x) i) >>= fun item => Step.typeOf r c >>= fun t =>
        Exec.checkTag item t.tag? >>= fun _ => Step.copyTo c item) s)
      (performAll r.constants (.move (.register (Reg.ofOperand c).toNat)
        (.item .tuple (Reg.ofOperand x).toNat i) t.tag? :: plan.reloadOps (.ofOperand c)) a) := by
  have hops : performAll r.constants (.move (.register (Reg.ofOperand c).toNat)
      (.item .tuple (Reg.ofOperand x).toNat i) t.tag? :: plan.reloadOps (.ofOperand c)) a =
      (onState (Exec.read (.item .tuple (Reg.ofOperand x).toNat i)) >>= fun item =>
        (onState (Exec.checkTag item t.tag?) >>= fun _ =>
          onState (Exec.write (.register (Reg.ofOperand c).toNat) item)) >>= fun _ =>
            performAll r.constants (plan.reloadOps (.ofOperand c))) a :=
    congrFun (bind_assoc _ _ _) a
  rw [hops, hnat.1]
  have hbase : ∀ j ∈ (Place.item .tuple (placeOf x) i).base?, K j := by
    rintro j ⟨⟩
    exact hx
  refine Ends.bind (h.ends_onState (Exec.endsAlike_read h.alike hbase) (.read _) (.read _)) ?_
  rintro item item' u b ⟨hitem, hb⟩
  rw [bind_assoc]
  exact follows_copyChecked hb hc hwrites ht hitem htag

/-- The size of an object, whose tag is checked first. -/
theorem follows_size (h : Mirrors r plan V K s a) (hx : ReadsSlot s a x) (of : Sized)
    (hc : WritesScalar r plan c .int) (hwrites : ins.writes = [placeOf c]) :
    Follows r plan ins V K
      ((Step.reg x >>= fun v => Exec.checkTag v (some (Step.sizedTag of)) >>= fun _ => Step.reg x >>= fun v =>
        Exec.onHeap (Heap.size v) >>= fun n => Step.setScalar r c .int (.single n.toUInt64)) s)
      (performAll r.constants (.assign (.ofOperand c) (.size of (.ofOperand x)) ::
        plan.through (.ofOperand c)) a) := by
  obtain ⟨v, v', hv, hv', halike, -⟩ := hx.reg
  refine .of_left hv ?_
  have heval : eval (.size of (.ofOperand x)) a =
      (onState (Exec.checkTag v' (some (Step.sizedTag of))) >>= fun _ => onHeap (Heap.size v') >>= fun n =>
        pure (Words.single n.toUInt64)) a := bind_of_ok hv'
  rcases Exec.checkTag_cases halike (some (Step.sizedTag of)) with ⟨-, hleft, hright⟩ | ⟨hleft, hright⟩
  · refine .of_left (congrFun hleft s) (.of_left hv ?_)
    refine follows_assign (f := fun n : Int64 => .single n.toUInt64) hc hwrites ?_
    rw [heval, hright]
    refine Ends.map_right (h.ends_onHeap (Heap.agree_size halike _ _ h.alike.world.heap)) ?_
    rintro n _ t b ⟨rfl, hb⟩
    exact ⟨.rfl', nofun, hb⟩
  · rw [hright] at heval
    rw [hleft, performAll_cons_eq (m := throw (.code .value)) (bind_eq_of_eq heval _)]
    exact ⟨rfl, h.fails⟩

/-- A slot outside the register file read as a scalar. -/
theorem follows_slotGet (h : Mirrors r plan V K s a) {p : Place} (hp : ∀ i ∈ p.base?, K i)
    (hc : WritesScalar r plan c kind) (hwrites : ins.writes = [placeOf c])
    (hwide : kind = .complex → s.WidePlace p) (htruth : kind = .bool → s.TruthAt p) :
    Follows r plan ins V K
      ((Exec.read p >>= fun v => Step.setScalar r c kind v.words) s)
      (performAll r.constants (.assign (.ofOperand c) (.load p) :: plan.through (.ofOperand c)) a) := by
  refine follows_assign hc hwrites ?_
  have hread := h.ends_onState (Exec.endsAlike_read h.alike hp) (.read p) (.read p)
  refine Ends.map_right (hread.and_left fun v t hv => hv) ?_
  rintro v v' t b ⟨⟨hv, hb⟩, hok⟩
  refine ⟨(hv.same (.inr ?_)).symm, fun hbool => htruth hbool v t hok, hb⟩
  exact not_or_of_imp fun hcomplex => hwide hcomplex v t hok

/-! ### Instructions that write no register -/

/-- Only variables count in reading a scalar. -/
theorem ReadsScalar.of_vars (h : ReadsScalar s a x kind) {b : Activation} (hvars : b.vars = a.vars) :
    ReadsScalar s b x kind := by
  obtain ⟨tag, w, hreg, htag, hsame, htruth⟩ := h
  refine ⟨tag, w, hreg, htag, ?_, htruth⟩
  rwa [Activation.var, hvars]

/-- Operations behind the store that makes the slot of an operand current. -/
theorem follows_sync (h : Mirrors r plan V K s a) (hx : NamesRegister r x)
    (husable : Usable plan V K (.ofOperand x)) {α : Type} {m : EStateM.Result Failure State α}
    {Q : α → Unit → State → Activation → Prop} {F : State → Activation → Prop} {ops : List Op}
    (hops : ∀ b, b.vars = a.vars → Mirrors r plan V (fun i => K i ∨ i = placeOf x) s b →
      Ends Q F m (performAll r.constants ops b)) :
    Ends Q F m (performAll r.constants (plan.syncOps (.ofOperand x) ++ ops) a) := by
  obtain ⟨b, hb, hvars, hmirrors⟩ := h.sync r.constants husable.1 husable.2
  rw [performAll_append hb]
  rw [hx.1] at hmirrors
  exact hops b hvars hmirrors

/-- An assignment to all elements: the index has to be nothing, which is checked before the slot of the source is made
current. -/
theorem follows_assignAll (h : Mirrors r plan V K s a) (hx : NamesRegister r x)
    (husable : Usable plan V K (.ofOperand x)) (hy : ReadsSlot s a y) (hc : NamesRegister r c)
    (hK : K (placeOf c)) (hwrites : ins.writes = []) :
    Follows r plan ins V K
      ((Step.reg y >>= fun v => Exec.checkTag v (some .none) >>= fun _ => Step.reg c >>= fun u =>
        Step.reg x >>= fun v => Exec.onHeap (Heap.assignAll u v)) s)
      (performAll r.constants (.check (.ofOperand y) (some .none) :: plan.syncOps (.ofOperand x) ++
        [.assignAll (.ofOperand c) (.ofOperand x)]) a) := by
  obtain ⟨w, w', hw, hw', hcheck, -⟩ := hy.reg
  refine .of_keep hwrites (.of_left hw ?_)
  rw [List.cons_append, performAll_cons_eq (m := onState (Exec.checkTag w' (some .none))) (bind_of_ok hw')]
  rcases Exec.checkTag_cases hcheck (some .none) with ⟨-, hleft, hright⟩ | ⟨hleft, hright⟩
  · rw [hright]
    refine .of_left (congrFun hleft s) (follows_sync h hx husable fun b hvars hb => ?_)
    obtain ⟨u, u', hu, hu', halike, -⟩ := (hb.readsSlot hc (.inl hK)).reg
    obtain ⟨v, v', hv, hv', halike', -⟩ := (hb.readsSlot hx (.inr rfl)).reg
    rw [performAll_cons_eq (m := onHeap (Heap.assignAll u' v')) ((bind_of_ok hu').trans (bind_of_ok hv'))]
    refine .of_left hu (.of_left hv ?_)
    refine Ends.map_right (hb.ends_onHeap (Heap.agree_assignAll halike halike' _ _ hb.alike.world.heap)) ?_
    exact fun _ _ t b hb => hb.2.mono (fun _ hV => hV) fun _ => .inl
  · rw [hleft, hright]
    exact ⟨rfl, h.fails⟩

/-- Words stored into the array a slot holds, under the kind of the array. -/
theorem ends_setElement (h : Mirrors r plan V K s a) {k : ElementKind} {v v' : Value} {w w' : Words}
    (halike : v.Alike false v') (hsame : Words.Same k.scalar w w')
    (hkind : ∀ id arr, v = .object .array id → s.heap.get? id = some (.array arr) → arr.kind = k)
    (place : Extents → Except ErrorCode Nat) :
    Ends (fun _ _ t b => Mirrors r plan V K t b) (Fails r) (Exec.onHeap (Heap.setElementBy v place w) s)
      ((onHeap (Heap.setWordsBy k v' place w') >>= fun _ => performAll r.constants []) a) := by
  refine Ends.map_right (f := fun _ => ()) (h.ends_onHeap (R := (· = ·)) ?_) fun _ _ t b hb => hb.2
  rw [Heap.setWordsBy_eq w' fun id arr hid harr =>
    Heap.kind_of_alike h.alike.world.heap halike hkind hid harr]
  refine Heap.ends_setElementBy h.alike.world.heap halike place fun id arr hid harr => ?_
  rw [hkind id arr hid harr]
  exact hsame

/-- An element stored. -/
theorem follows_arraySet (h : Mirrors r plan V K s a) {k : ElementKind} (hx : ReadsScalar s a x k.scalar)
    (hy : ReadsScalar s a y .int) (hc : ReadsSlot s a c) (hwrites : ins.writes = [])
    (hkind : ∀ id arr, s.frame.registers[placeOf c]? = some (.object .array id) →
      s.heap.get? id = some (.array arr) → arr.kind = k) :
    Follows r plan ins V K
      ((Step.reg c >>= fun u => Step.int y >>= fun i => Step.words x >>= fun w =>
        Exec.onHeap (Heap.arraySet u i w)) s)
      (performAll r.constants [.setElement k (.ofOperand c) (.ofOperand y) (.ofOperand x)] a) := by
  obtain ⟨u, u', hu, hu', halike, hreg⟩ := hc.reg
  obtain ⟨w, hw, hsame, -⟩ := hx.words
  refine .of_keep hwrites (.of_left hu (.of_left hy.int (.of_left hw ?_)))
  rw [performAll_cons_eq (m := onHeap (Heap.setWordsBy k u' (flatPlace (a.var (.ofOperand y)).int)
    (a.var (.ofOperand x)))) (bind_of_ok hu'), flatPlace_eq]
  exact ends_setElement h halike hsame.symm (fun id arr hid => hkind id arr (hid ▸ hreg)) _

/-- An item of a list replaced, from a slot that has been made current. -/
theorem follows_listSet (h : Mirrors r plan V K s a) (hx : NamesRegister r x)
    (husable : Usable plan V K (.ofOperand x)) (hy : ReadsScalar s a y .int) (hc : NamesRegister r c)
    (hK : K (placeOf c)) (hwrites : ins.writes = []) :
    Follows r plan ins V K
      ((Step.reg c >>= fun u => Step.int y >>= fun i => Step.reg x >>= fun v =>
        Exec.onHeap (Heap.listSet u i v)) s)
      (performAll r.constants (plan.syncOps (.ofOperand x) ++
        [.listSet (.ofOperand c) (.ofOperand y) (.ofOperand x)]) a) := by
  refine .of_keep hwrites (follows_sync h hx husable fun b hvars hb => ?_)
  obtain ⟨u, u', hu, hu', halike, -⟩ := (hb.readsSlot hc (.inl hK)).reg
  obtain ⟨v, v', hv, hv', halike', -⟩ := (hb.readsSlot hx (.inr rfl)).reg
  rw [performAll_cons_eq (m := onHeap (Heap.listSet u' (b.var (.ofOperand y)).int v'))
    ((bind_of_ok hu').trans (bind_of_ok hv'))]
  refine .of_left hu (.of_left (hy.of_vars hvars).int (.of_left hv ?_))
  refine Ends.map_right (hb.ends_onHeap (Heap.agree_listSet halike _ halike' _ _ hb.alike.world.heap)) ?_
  exact fun _ _ t b hb => hb.2.mono (fun _ hV => hV) fun _ => .inl

/-- An item of a tuple replaced, from a slot that has been made current. -/
theorem follows_tupleSetAny (h : Mirrors r plan V K s a) (hx : NamesRegister r x)
    (husable : Usable plan V K (.ofOperand x)) (hc : NamesRegister r c) (hK : K (placeOf c))
    {t : ValueType} (ht : r.types[placeOf c]? = some t) (i : Nat) (hwrites : ins.writes = []) :
    Follows r plan ins V K
      ((Step.reg x >>= fun v => Step.typeOf r c >>= fun t => Exec.checkTag v (t.itemTag? i) >>= fun _ =>
        Exec.write (.item .tuple (placeOf c) i) v) s)
      (performAll r.constants (plan.syncOps (.ofOperand x) ++ [.check (.ofOperand x) (t.itemTag? i),
        .move (.item .tuple (Reg.ofOperand c).toNat i) (.register (Reg.ofOperand x).toNat) none]) a) := by
  have htype : Step.typeOf r c s = .ok t s := by
    unfold Step.typeOf
    rw [ht]
    rfl
  refine .of_keep hwrites (follows_sync h hx husable fun b hvars hb => ?_)
  obtain ⟨v, v', hv, hv', halike, -⟩ := (hb.readsSlot hx (.inr rfl)).reg
  rw [performAll_cons_eq (m := onState (Exec.checkTag v' (t.itemTag? i))) (bind_of_ok hv'), hc.1]
  refine .of_left hv (.of_left htype ?_)
  rcases Exec.checkTag_cases halike (t.itemTag? i) with ⟨-, hleft, hright⟩ | ⟨hleft, hright⟩
  · rw [hright]
    refine .of_left (congrFun hleft s) (.of_right rfl ?_)
    rw [performAll_cons_eq (m := onState (Exec.write (.item .tuple (placeOf c) i) v'))
      (bind_of_ok (m := slot (.ofOperand x)) hv')]
    have hbase : ∀ j ∈ (Place.item .tuple (placeOf c) i).base?, K j ∨ j = placeOf x := by
      rintro j ⟨⟩
      exact .inl hK
    have hreg : ∀ j, Place.item .tuple (placeOf c) i ≠ .register j := fun _ => Place.noConfusion
    refine Ends.map_right (hb.ends_onState (Exec.endsAlike_write_place hb.alike hbase hreg halike)
      (.write hreg v) (.write hreg v')) ?_
    exact fun _ _ t b hb => hb.2.mono (fun _ hV => hV) fun _ => .inl
  · rw [hleft, hright]
    exact ⟨rfl, hb.fails⟩

/-- A scalar stored in a slot outside the register file that holds no reference. -/
theorem follows_store (h : Mirrors r plan V K s a) {tag : ScalarTag} {w : Words}
    (hreg : s.frame.registers[placeOf x]? = some (.scalar tag w))
    (hsame : Words.Same tag.kind (a.var (.ofOperand x)) w) {p : Place} (hp : ∀ i ∈ p.base?, K i)
    (hplace : ∀ i, p ≠ .register i) (hplain : s.PlainAt p) (hwrites : ins.writes = []) :
    Follows r plan ins V K ((Step.reg x >>= fun v => Exec.write p v) s)
      (performAll r.constants [.store p (.ofOperand x) tag] a) := by
  refine .of_keep hwrites (.of_left (Step_reg_eq hreg) ?_)
  have hread := (Exec.endsAlike_read h.alike hp).and_left fun v t hv => hv
  have hwrite : EndsAlike false K (· = ·) (Exec.write p (.scalar tag w) s)
      (storeAt p tag (a.var (.ofOperand x)) a.state) := by
    refine Ends.bind hread ?_
    rintro old old' t t' ⟨⟨-, ht⟩, hok⟩
    have hclone : Exec.onHeap (Heap.clone (.scalar tag w)) t = .ok (.scalar tag w) t := rfl
    have hdrop : Exec.onHeap (Heap.discard old) = pure () := by
      funext u
      change EStateM.Result.ok () { u with heap := u.heap.dropValue old } = _
      rw [Heap.dropValue, hplain old t hok]
      rfl
    refine .of_left hclone ?_
    rw [hdrop, bind_pure_unit]
    exact Exec.endsAlike_overwrite_place ht hp hplace fun _ u _ => Value.alike_restored hsame u
  refine Ends.map_right (f := fun _ => ()) (h.ends_onState hwrite (.write hplace _) ?_) fun _ _ t b hb => hb.2
  exact .bind (.read p) fun _ => .overwrite hplace _

/-! ### Elements by several indices -/

/-- Actions that succeed and change nothing, for each member of a list. -/
theorem mapM_eq_ok {ε σ α β : Type} {f : α → EStateM ε σ β} {g : α → β} {s : σ} {xs : List α}
    (h : ∀ x ∈ xs, f x s = .ok (g x) s) : xs.mapM f s = .ok (xs.map g) s := by
  induction xs with
  | nil => rfl
  | cons x xs ih =>
    rw [List.mapM_cons]
    refine (bind_of_ok (h x List.mem_cons_self)).trans ?_
    exact bind_of_ok (ih fun x hx => h x (List.mem_cons_of_mem _ hx))

/-- The index registers of an element access, one for each dimension. -/
def ReadsIndices (s : State) (a : Activation) (base count : Int32) : Prop :=
  Step.indices base count s = .ok (((registersAfter (.ofOperand base) count).map a.var).map Words.int) s ∧
    ((registersAfter (.ofOperand base) count).length : Int) = count.toInt

/-- The indices of an element are those of the variables. -/
theorem Mirrors.readsIndices (h : Mirrors r plan V K s a) {base count : Int32} (hbase : 0 ≤ base.toInt)
    (hlt : base.toInt < UInt16.size) (hend : base.toInt + count.toInt < UInt16.size)
    (hcount : 0 ≤ count.toInt)
    (hqs : ∀ q ∈ registersAfter (.ofOperand base) count,
      (∃ y, plan.register? q = some y ∧ y.kind = .int) ∧ V q.toNat) :
    ReadsIndices s a base count := by
  have hnat := map_registersAfter hbase hlt hend
  have hmod : countOf count % UInt16.size = countOf count := by
    refine Nat.mod_eq_of_lt ?_
    unfold countOf
    omega
  have hqs' : registersAfter (.ofOperand base) count =
      (List.range (countOf count)).map fun k => Reg.ofOperand base + UInt16.ofNat (k + 1) := by
    unfold registersAfter
    rw [hmod]
  constructor
  · rw [hqs', List.map_map, List.map_map]
    refine mapM_eq_ok fun k hk => ?_
    rw [hqs', indexPlaces, List.map_map] at hnat
    obtain ⟨⟨y, hy, hkind⟩, hV⟩ := hqs _ (hqs' ▸ List.mem_map_of_mem hk)
    obtain ⟨w, hw, hvar⟩ := h.vars _ y hy
    rw [show (Reg.ofOperand base + UInt16.ofNat (k + 1)).toNat = _ from List.map_inj_left.1 hnat k hk] at hw
    have hsame := hvar hV
    have hfollowing : Step.following base (k + 1) s = .ok (base + Int32.ofNat (k + 1)) s := by
      have hk := List.mem_range.1 hk
      have hsize : UInt16.size = 65536 := rfl
      unfold countOf at hk
      unfold Step.following
      rw [if_pos (by omega)]
      rfl
    refine (bind_of_ok hfollowing).trans ((bind_of_ok (Step_words_eq hw)).trans ?_)
    exact congrArg (EStateM.Result.ok · s) hsame.int_eq.symm
  · rw [hqs', List.length_map, List.length_range, countOf]
    omega

/-- An element read by several indices. -/
theorem follows_arrayGetMulti (h : Mirrors r plan V K s a) {k : ElementKind} (hx : ReadsSlot s a x)
    (his : ReadsIndices s a x y) (hc : WritesScalar r plan c k.scalar) (hwrites : ins.writes = [placeOf c])
    (hkind : ∀ id arr, s.frame.registers[placeOf x]? = some (.object .array id) →
      s.heap.get? id = some (.array arr) → arr.kind = k) :
    Follows r plan ins V K
      ((Step.indices x y >>= fun is => Step.reg x >>= fun v => Exec.onHeap (Heap.arrayGetMulti v is) >>= fun z =>
        Step.setScalar r c k.scalar z.words) s)
      (performAll r.constants (.assign (.ofOperand c) (.elementMulti k (.ofOperand x) y.toInt
        (registersAfter (.ofOperand x) y)) :: plan.through (.ofOperand c)) a) := by
  obtain ⟨v, v', hv, hv', halike, hreg⟩ := hx.reg
  obtain ⟨his, hlength⟩ := his
  refine .of_left his (.of_left hv (follows_assign hc hwrites ?_))
  have hvars : (registersAfter (.ofOperand x) y).mapM var a = .ok ((registersAfter (.ofOperand x) y).map a.var) a :=
    mapM_eq_ok fun _ _ => rfl
  have heval : eval (.elementMulti k (.ofOperand x) y.toInt (registersAfter (.ofOperand x) y)) a = _ :=
    (bind_of_ok hvars).trans (bind_of_ok hv')
  rw [heval, multiPlace_eq (by rwa [List.length_map, List.length_map])]
  refine (h.ends_onHeap (Heap.ends_wordsBy h.alike.world.heap halike _ fun id arr hid =>
    hkind id arr (hid ▸ hreg))).mono ?_ fun _ _ hf => hf
  rintro z _ t b ⟨rfl, hb⟩
  refine ⟨.rfl', fun hbool => ?_, hb⟩
  cases k <;> cases hbool

/-- An element stored by several indices. -/
theorem follows_arraySetMulti (h : Mirrors r plan V K s a) {k : ElementKind}
    (hx : ReadsScalar s a x k.scalar) (his : ReadsIndices s a c y) (hc : ReadsSlot s a c)
    (hwrites : ins.writes = [])
    (hkind : ∀ id arr, s.frame.registers[placeOf c]? = some (.object .array id) →
      s.heap.get? id = some (.array arr) → arr.kind = k) :
    Follows r plan ins V K
      ((Step.indices c y >>= fun is => Step.reg c >>= fun u => Step.words x >>= fun w =>
        Exec.onHeap (Heap.arraySetMulti u is w)) s)
      (performAll r.constants [.setElementMulti k (.ofOperand c) y.toInt
        (registersAfter (.ofOperand c) y) (.ofOperand x)] a) := by
  obtain ⟨u, u', hu, hu', halike, hreg⟩ := hc.reg
  obtain ⟨w, hw, hsame, -⟩ := hx.words
  obtain ⟨his, hlength⟩ := his
  have hvars : (registersAfter (.ofOperand c) y).mapM var a = .ok ((registersAfter (.ofOperand c) y).map a.var) a :=
    mapM_eq_ok fun _ _ => rfl
  refine .of_keep hwrites (.of_left his (.of_left hu (.of_left hw ?_)))
  rw [performAll_cons_eq (m := onHeap (Heap.setWordsBy k u' (multiPlace y.toInt
    (((registersAfter (.ofOperand c) y).map a.var).map Words.int)) (a.var (.ofOperand x))))
    ((bind_of_ok hvars).trans (bind_of_ok hu')),
    multiPlace_eq (by rwa [List.length_map, List.length_map])]
  exact ends_setElement h halike hsame.symm (fun id arr hid => hkind id arr (hid ▸ hreg)) _

end

end Native

end RegisterVM
