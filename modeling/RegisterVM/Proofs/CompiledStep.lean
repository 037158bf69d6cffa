import RegisterVM.Proofs.CompiledEffect
import RegisterVM.Proofs.LoweredBody

/-!
# One compiled step

An interpreter and compiled code come to the same instruction of a segment (`Native.Arrives`). The declared
types of its operands say how compiled code has them: a scalar is in a variable, anything else in its slot.
What lowering emits for the instruction is read off its success (`emit_write` and the like), and it does what
the interpreter does: the same outcome, with variables and slots that mirror the registers as before
(`Native.ends_effect`).
-/

namespace RegisterVM

/-- The tag of a scalar register is that of its type. -/
theorem ValueType.tag?_of_scalarTag {t : ValueType} {tag : ScalarTag} (h : t.scalarTag? = some tag) :
    t.tag? = some tag.tag := by
  cases t <;> cases h <;> rfl

/-- An item of a list is checked for the tag of the scalar register it goes to. -/
theorem ValueType.listItemTag_eq {t : ValueType} {tag : ScalarTag} {k : ElementKind}
    (h : t.scalarTag? = some tag) (hkind : t.scalar? = some k.scalar) : t.listItemTag k = tag.tag := by
  cases t <;> cases h <;> cases k <;> first | rfl | cases hkind

namespace Native

/-! ### Operands -/

/-- The declared type of an operand is what its opcode wants. -/
def Declares (r : Routine) (x : Int) (want : Want) : Prop :=
  (typeAt? r.types x).any want.admits = true

/-- An interpreter about to execute an instruction of a planned segment, next to an activation that has
what the instruction uses. -/
structure Arrives (r : Routine) (config : Config) (k : Classifier) (plan : Plan) (i : Nat)
    (ins : Instruction) (V K : Nat → Prop) (s : State) (a : Activation) : Prop where
  regs : r.types.size ≤ UInt16.size
  isPlan : IsPlan r config plan
  sound : SoundRange k r.code r.types plan.range
  inside : i ∈ plan.range
  here : r.code[i]? = some ins
  conforms : ins.Conforms r s
  mirrors : Mirrors r plan V K s a
  usable : ∀ q ∈ ins.uses, Usable plan V K q

namespace Arrives

variable {r : Routine} {config : Config} {k : Classifier} {plan : Plan} {i : Nat} {ins : Instruction}
  {V K : Nat → Prop} {s : State} {a : Activation} {x : Int32} {want : Want} {kind : ScalarKind}

/-- An instruction of a sound range wants something of its operands, and they are declared so. -/
theorem wants (h : Arrives r config k plan i ins V K s a) (hcase : ins.opcode ≠ .caseEntry) :
    ∃ ws, ins.wants = some ws ∧ ws.Forall fun w => Declares r w.1 w.2 := by
  obtain ⟨ws, hws, hall⟩ := exists_wants (h.sound.eligible i h.inside ins h.here hcase)
  exact ⟨ws, hws, List.forall_iff_forall_mem.2 fun w hw => hall w.1 w.2 hw⟩

/-- A declared operand names a register of the type that was asked for. -/
theorem type (h : Arrives r config k plan i ins V K s a) (hx : Declares r x.toInt want) :
    NamesRegister r x ∧ ∃ t, r.types[placeOf x]? = some t ∧ want.admits t = true := by
  obtain ⟨t, ht, -⟩ := (Option.any_eq_true _ _).1 hx
  have hreg : r.bounds.IsRegister x.toInt := by
    unfold typeAt? at ht
    split at ht
    · cases ht
    · have hlt := (Array.getElem?_eq_some_iff.1 ht).1
      exact ⟨by omega, by change x.toInt < (r.types.size : Int); omega⟩
  have hnat := Routine.toNat_ofOperand h.regs hreg
  obtain ⟨t, ht, hadmits⟩ := exists_type_of_admits h.regs hx
  rw [hnat] at ht
  exact ⟨⟨hnat, (Array.getElem?_eq_some_iff.1 ht).1⟩, t, ht, hadmits⟩

/-- A register operand in bounds names the register it says. -/
theorem names (h : Arrives r config k plan i ins V K s a) (hx : r.bounds.IsRegister x.toInt) :
    NamesRegister r x := by
  refine ⟨Routine.toNat_ofOperand h.regs hx, ?_⟩
  have hlt : x.toInt < r.types.size := hx.2
  have hnonneg := hx.1
  rw [placeOf_of_nonneg hnonneg]
  omega

/-- A planned register has a declared type with its tag. -/
theorem tag (h : Arrives r config k plan i ins V K s a) (hx : NamesRegister r x) {t : ValueType}
    (ht : r.types[placeOf x]? = some t) {y : RegPlan} (hy : plan.register? (.ofOperand x) = some y) :
    t.scalarTag? = some y.tag := by
  obtain ⟨-, htag, -⟩ := h.isPlan.register?_eq_some_iff.1 hy
  rwa [hx.1, ht] at htag

/-- **An operand read as a scalar.** -/
theorem reads (h : Arrives r config k plan i ins V K s a) (hx : Declares r x.toInt (.scalar kind))
    (hu : Reg.ofOperand x ∈ ins.uses) : ReadsScalar s a x kind := by
  obtain ⟨hnames, t, ht, hadmits⟩ := h.type hx
  obtain ⟨y, hy, rfl⟩ := h.isPlan.exists_register h.here h.inside (.inl hu) (hnames.1 ▸ ht)
    (of_decide_eq_true hadmits)
  obtain ⟨w, hw, hvar⟩ := h.mirrors.vars _ y hy
  obtain ⟨w', hw', htruth⟩ := h.conforms.typed.exists_scalar ht (h.tag hnames ht hy)
  rw [hnames.1, hw'] at hw
  cases hw
  refine ⟨y.tag, w, hw', rfl, hvar ((h.usable _ hu).1 y hy).1, fun hbool => htruth ?_⟩
  obtain ⟨tag, storage⟩ := y
  cases tag <;> first | rfl | cases hbool

/-- **An operand written as a scalar.** -/
theorem writes (h : Arrives r config k plan i ins V K s a) (hx : Declares r x.toInt (.scalar kind))
    (hd : Reg.ofOperand x ∈ ins.defs) : WritesScalar r plan x kind := by
  obtain ⟨hnames, t, ht, hadmits⟩ := h.type hx
  obtain ⟨y, hy, hkind⟩ := h.isPlan.exists_register h.here h.inside (.inr hd) (hnames.1 ▸ ht)
    (of_decide_eq_true hadmits)
  exact ⟨hnames, y, t, hy, hkind, ht, h.tag hnames ht hy⟩

/-- An operand that is no unboxed scalar has no variable. -/
theorem boxed (h : Arrives r config k plan i ins V K s a) (hx : Declares r x.toInt want)
    (hwant : want.isBoxed = true) : NamesRegister r x ∧ plan.register? (.ofOperand x) = none := by
  obtain ⟨hnames, t, ht, hadmits⟩ := h.type hx
  refine ⟨hnames, ?_⟩
  cases hy : plan.register? (.ofOperand x) with
  | none => rfl
  | some y =>
    have htag := h.tag hnames ht hy
    rw [Want.scalarTag?_eq_none hwant hadmits] at htag
    cases htag

/-- The slot of an operand that is no scalar is current. -/
theorem current (h : Arrives r config k plan i ins V K s a) (hx : Declares r x.toInt want)
    (hwant : want.isBoxed = true) (hu : Reg.ofOperand x ∈ ins.uses) : K (placeOf x) := by
  obtain ⟨hnames, hnone⟩ := h.boxed hx hwant
  exact hnames.1 ▸ (h.usable _ hu).2 hnone

/-- **An operand read in its slot.** -/
theorem slot (h : Arrives r config k plan i ins V K s a) (hx : Declares r x.toInt want)
    (hwant : want.isBoxed = true) (hu : Reg.ofOperand x ∈ ins.uses) : ReadsSlot s a x :=
  h.mirrors.readsSlot (h.boxed hx hwant).1 (h.current hx hwant hu)

/-- An array in a register has the declared kind. -/
theorem elementKind (h : Arrives r config k plan i ins V K s a) {element : ElementKind}
    (hx : Declares r x.toInt (.array element)) (hmem : placeOf x ∈ ins.arrayOperands) (id : ObjectId)
    (arr : ArrayObject)
    (hreg : s.frame.registers[placeOf x]? = some (.object .array id))
    (hget : s.heap.get? id = some (.array arr)) : arr.kind = element := by
  obtain ⟨-, t, ht, hadmits⟩ := h.type hx
  have hkind : t = .array element := by
    cases t with
    | array kind => exact congrArg _ (of_decide_eq_true hadmits)
    | _ => cases hadmits
  rcases h.conforms.arrays _ hmem _ _ (hkind ▸ ht) hreg with hnone | ⟨_, hid, hkind⟩
  · cases hnone
  · cases hid
    exact hkind arr hget

/-- A register declared as an array holds one or nothing. -/
theorem holdsArray (h : Arrives r config k plan i ins V K s a) (hx : Declares r x.toInt .anyArray)
    (hmem : placeOf x ∈ ins.arrayOperands) {v : Value}
    (hreg : s.frame.registers[placeOf x]? = some v) : v.tag = .array ∨ v = .none := by
  obtain ⟨-, t, ht, hadmits⟩ := h.type hx
  cases t with
  | array kind =>
    rcases h.conforms.arrays _ hmem _ _ ht hreg with hnone | ⟨id, rfl, -⟩
    · exact .inr hnone
    · exact .inl rfl
  | _ => cases hadmits

/-- One operand of generic arithmetic is declared as an array. -/
theorem arrayOperand (h : Arrives r config k plan i ins V K s a) {op : ArithOp}
    (hop : ins.opcode = .arith op) : Declares r ins.a.toInt .anyArray ∨ Declares r ins.b.toInt .anyArray := by
  have heligible := h.sound.eligible i h.inside ins h.here (by rw [hop]; exact nofun)
  unfold Classifier.isEligible at heligible
  split at heligible
  · simp at heligible
  · rw [Bool.and_eq_true, Bool.and_eq_true, hop] at heligible
    have hany : (typeAt? r.types ins.a.toInt).any ValueType.isArray = true ∨
        (typeAt? r.types ins.b.toInt).any ValueType.isArray = true := by
      simpa [Opcode.arith?, Instruction.hasArrayOperand] using heligible.2.1
    exact hany

/-- **A scalar operand under the tag it is planned with.** -/
theorem stored (h : Arrives r config k plan i ins V K s a) (hx : NamesRegister r x)
    (hu : Reg.ofOperand x ∈ ins.uses) {y : RegPlan} (hy : plan.register? (.ofOperand x) = some y) :
    ∃ w, s.frame.registers[placeOf x]? = some (.scalar y.tag w) ∧
      Words.Same y.tag.kind (a.var (.ofOperand x)) w := by
  obtain ⟨w, hw, hvar⟩ := h.mirrors.vars _ y hy
  rw [hx.1] at hw
  exact ⟨w, hw, hvar ((h.usable _ hu).1 y hy).1⟩

/-- **The index registers of an element access.** -/
theorem readsIndices (h : Arrives r config k plan i ins V K s a) {base count : Int32}
    (hbase : r.bounds.IsRegister base.toInt) (hend : r.bounds.IsRegister (base.toInt + count.toInt))
    (hcount : ¬count.toInt < 1)
    (hwant : (Instruction.wantIndices base.toInt count.toInt).Forall fun w => Declares r w.1 w.2)
    (hu : ∀ q ∈ registersAfter (.ofOperand base) count, q ∈ ins.uses) : ReadsIndices s a base count := by
  have hregs := h.regs
  have hlt : base.toInt < r.types.size := hbase.2
  have hlt' : base.toInt + count.toInt < r.types.size := hend.2
  refine h.mirrors.readsIndices hbase.1 (by omega) (by omega) (by omega) fun q hq => ?_
  obtain ⟨t, ht, hadmits⟩ := exists_type_of_index h.regs hbase hend hq fun k hk =>
    List.forall_iff_forall_mem.1 hwant _ (Instruction.mem_wantIndices hk)
  obtain ⟨y, hy, hkind⟩ := h.isPlan.exists_register h.here h.inside (.inl (hu q hq)) ht
    (of_decide_eq_true hadmits)
  exact ⟨⟨y, hy, hkind⟩, ((h.usable q (hu q hq)).1 y hy).1⟩

/-- **The condition of a comparison is what the interpreter stores.** -/
theorem comparison (h : Arrives r config k plan i ins V K s a) (hop : ins.opcode.isComparison = true) :
    WritesScalar r plan ins.c .bool ∧ ∃ b, eval (condition ins) a = .ok (.single (Words.ofBool b)) a ∧
      Step.effect r ins s = Step.setBool r ins.c b s := by
  obtain ⟨ws, hws, hall⟩ := h.wants fun hcase => by rw [hcase] at hop; cases hop
  obtain ⟨op, x, y, c, line⟩ := ins
  cases op with
  | compareInt rel =>
    cases hws
    obtain ⟨hc, hx, hy⟩ := hall
    refine ⟨h.writes hc (.head _), _, rfl, ?_⟩
    exact (bind_of_ok (h.reads hx (.head _)).int).trans (bind_of_ok (h.reads hy (.tail _ (.head _))).int)
  | compareFloat rel =>
    cases hws
    obtain ⟨hc, hx, hy⟩ := hall
    obtain ⟨w, hw, hsame, -⟩ := (h.reads hx (.head _)).words
    obtain ⟨z, hz, hsame', -⟩ := (h.reads hy (.tail _ (.head _))).words
    refine ⟨h.writes hc (.head _), rel.float w.lo z.lo, ?_, (bind_of_ok hw).trans (bind_of_ok hz)⟩
    rw [← hsame.1, ← hsame'.1]
    rfl
  | compareComplex rel =>
    cases hws
    obtain ⟨hc, hx, hy⟩ := hall
    obtain ⟨w, hw, hsame, -⟩ := (h.reads hx (.head _)).words
    obtain ⟨z, hz, hsame', -⟩ := (h.reads hy (.tail _ (.head _))).words
    refine ⟨h.writes hc (.head _), rel.complex w z, ?_, (bind_of_ok hw).trans (bind_of_ok hz)⟩
    rw [← hsame.eq_of_complex, ← hsame'.eq_of_complex, ← compareComplex_eq]
    rfl
  | compareString rel =>
    cases hws
    obtain ⟨hc, hx, hy⟩ := hall
    obtain ⟨u, u', hu, hu', halike, -⟩ := (h.slot hx rfl (.head _)).reg
    obtain ⟨v, v', hv, hv', halike', -⟩ := (h.slot hy rfl (.tail _ (.head _))).reg
    refine ⟨h.writes hc (.head _), rel.ordering (s.heap.compareStrings u v), ?_,
      (bind_of_ok hu).trans (bind_of_ok hv)⟩
    rw [Heap.compareStrings_eq h.mirrors.alike.world.heap halike halike']
    exact (bind_of_ok hu').trans (bind_of_ok hv')
  | _ => cases hop

end Arrives

/-! ### Instructions that do not transfer control -/

section

variable {r : Routine} {config : Config} {k : Classifier} {plan : Plan} {i : Nat} {ins : Instruction}
  {V K V₁ K₁ : Nat → Prop} {s : State} {a : Activation} {x y c : Int32} {p p' : Progress} {ops : List Op}
  {line : UInt32} {kind : ScalarKind}

/-- What follows with more variables and slots current follows with fewer. -/
theorem Follows.weaken {α β : Type} {m : EStateM.Result Failure State α}
    {m' : EStateM.Result Failure Activation β} (h : Follows r plan ins V₁ K₁ m m')
    (hV : ∀ i, V i → V₁ i) (hK : ∀ i, K i → K₁ i) : Follows r plan ins V K m m' := by
  refine h.mono ?_ fun _ _ hf => hf
  rintro _ _ t b ⟨V', K', hupdates, hmirrors⟩
  refine ⟨V', K', ⟨fun i hi => ?_, hupdates.given⟩, hmirrors⟩
  obtain ⟨hkeepV, hkeepK⟩ := hupdates.keeps i hi
  exact ⟨fun h => hkeepV (hV i h), fun h => hkeepK (hK i h)⟩

/-- A register stays usable if more slots are current. -/
theorem Usable.mono {q : Reg} (h : Usable plan V K q) (hK : ∀ i, K i → K₁ i) : Usable plan V K₁ q :=
  ⟨fun x hx => ⟨(h.1 x hx).1, fun hops => hK _ ((h.1 x hx).2 hops)⟩, fun hnone => hK _ (h.2 hnone)⟩

/-- Generic arithmetic is array arithmetic where an operand is declared as an array. -/
theorem follows_arith (h : Arrives r config k plan i ins V K s a) {op : ArithOp}
    (hop : ins.opcode = .arith op) (hwrites : ins.writes = [placeOf ins.c])
    (ha : Declares r ins.a.toInt .numeric) (hb : Declares r ins.b.toInt .numeric)
    (hc : Declares r ins.c.toInt .boxed)
    (hua : ins.ra ∈ ins.uses) (hub : ins.rb ∈ ins.uses) :
    Follows r plan ins V K
      ((Step.reg ins.a >>= fun u => Step.reg ins.b >>= fun v =>
        Exec.onHeap (Heap.genericArith op u v) >>= fun w => Step.set ins.c w) s)
      (performAll r.constants (plan.syncOps ins.ra ++ plan.syncOps ins.rb ++
        .arrayArith op ins.rc ins.ra ins.rb :: plan.reloadOps ins.rc) a) := by
  obtain ⟨hnc, hboxed⟩ := h.boxed hc rfl
  obtain ⟨hna, -⟩ := h.type ha
  obtain ⟨hnb, -⟩ := h.type hb
  rw [List.append_assoc]
  refine follows_sync h.mirrors hna (h.usable _ hua) fun b hvars hfirst => ?_
  have hub' := (h.usable _ hub).mono fun i hi => (Or.inl hi : K i ∨ i = placeOf ins.a)
  refine follows_sync hfirst hnb hub' fun b' hvars' hboth => ?_
  refine Follows.weaken (follows_heapBinary hboth (n := Heap.arrayArith op)
    (hboth.readsSlot hna (.inl (.inr rfl))) (hboth.readsSlot hnb (.inr rfl)) hnc hwrites hboxed
    (fun u v hu hv => ?_) fun u u' v v' hu hv halike halike' => ?_) (fun _ hV => hV) fun _ hK => .inl (.inl hK)
  · exact (bind_of_ok hu).trans (bind_of_ok hv)
  · rw [Heap.genericArith_eq_arrayArith op ?_]
    · exact Heap.agree_arrayArith op halike halike'
    · have hmem : ins.arrayOperands = [placeOf ins.a, placeOf ins.b] := by
        unfold Instruction.arrayOperands
        rw [hop]
      exact (h.arrayOperand hop).imp (h.holdsArray · (hmem ▸ .head _) hu)
        (h.holdsArray · (hmem ▸ .tail _ (.head _)) hv)

/-- A register has a declared type. -/
theorem NamesRegister.exists_type (h : NamesRegister r x) : ∃ t, r.types[placeOf x]? = some t :=
  ⟨_, Array.getElem?_eq_getElem h.2⟩

/-- Lowering knows the declared type of a register. -/
theorem typeOf_eq (h : NamesRegister r x) {t : ValueType} (ht : r.types[placeOf x]? = some t) :
    Site.typeOf ⟨r, plan, i⟩ (.ofOperand x) = t := by
  unfold Site.typeOf
  rw [h.1, Array.getD_eq_getD_getElem?, ht]
  rfl

/-- An item of a tuple or an object read as a scalar. -/
theorem follows_itemGet (h : Arrives r config k plan i ins V K s a) {owner : ObjectKind} {n : Nat}
    (hx : NamesRegister r x) (hK : K (placeOf x)) {kind : ScalarKind} (hc : WritesScalar r plan c kind)
    (hwrites : ins.writes = [placeOf c])
    (hwide : kind = .complex → s.WidePlace (.item owner (placeOf x) n))
    (htruth : kind = .bool → s.TruthAt (.item owner (placeOf x) n)) :
    Follows r plan ins V K ((Exec.read (.item owner (placeOf x) n) >>= fun v => Step.setScalar r c kind v.words) s)
      (performAll r.constants (.assign (.ofOperand c) (.load (.item owner (Reg.ofOperand x).toNat n)) ::
        plan.through (.ofOperand c)) a) := by
  rw [hx.1]
  refine follows_slotGet h.mirrors ?_ hc hwrites hwide htruth
  rintro j ⟨⟩
  exact hK

/-- An item of a tuple or an object set to a scalar. -/
theorem follows_itemSet (h : Arrives r config k plan i ins V K s a) {owner : ObjectKind} {n : Nat}
    (hx : NamesRegister r x) (hu : Reg.ofOperand x ∈ ins.uses) {z : RegPlan}
    (hz : plan.register? (.ofOperand x) = some z) (hc : NamesRegister r c) (hK : K (placeOf c))
    (hplain : s.PlainAt (.item owner (placeOf c) n)) (hwrites : ins.writes = []) :
    Follows r plan ins V K ((Step.reg x >>= fun v => Exec.write (.item owner (placeOf c) n) v) s)
      (performAll r.constants [.store (.item owner (Reg.ofOperand c).toNat n) (.ofOperand x) z.tag] a) := by
  obtain ⟨w, hreg, hsame⟩ := h.stored hx hu hz
  rw [hc.1]
  refine follows_store h.mirrors hreg hsame ?_ nofun hplain hwrites
  rintro j ⟨⟩
  exact hK

/-- A scalar constant is stored as the words compiled code has for it. -/
theorem setScalar_constantWords (r : Routine) (c : Int32) (kind : ScalarKind) (w : Words) :
    Step.setScalar r c kind w = Step.setScalar r c kind (Site.constantWords kind w) := by
  cases kind with
  | bool =>
    unfold Step.setScalar Machine.setScalar Site.constantWords
    simp only [ScalarKind.value, Words.bool_single_ofBool]
  | _ => rfl

/-- A truth value among the constants is a truth value in compiled code. -/
theorem isTruth_constantWords {kind : ScalarKind} (h : kind = .bool) (w : Words) :
    (Site.constantWords kind w).IsTruth := by
  subst h
  exact Words.isTruth_ofBool _

/-- A conversion in compiled code gives what the interpreter's gives; a truth value is its word. -/
theorem eval_conversion (v : Conversion) {w : Words} (hsame : Words.Same v.source (a.var (.ofOperand x)) w)
    (htruth : v.source = .bool → w.IsTruth) : ∃ w', eval (Site.conversion v (.ofOperand x)) a = .ok w' a ∧
      Words.Same v.target w' (v.apply w) ∧ (v.target = .bool → (v.apply w).IsTruth) := by
  cases v with
  | intOfBool =>
    refine ⟨a.var (.ofOperand x), rfl, ⟨?_, by rintro ⟨⟩⟩, by rintro ⟨⟩⟩
    rw [hsame.1]
    rcases htruth rfl with hw | hw <;> simp [Conversion.apply, Words.ofBool, Words.bool, hw]
  | boolOfInt =>
    refine ⟨Conversion.apply _ (a.var (.ofOperand x)), rfl, ?_, fun _ => Words.isTruth_ofBool _⟩
    rw [hsame.convert]
    exact .rfl'
  | _ =>
    refine ⟨Conversion.apply _ (a.var (.ofOperand x)), rfl, ?_, by rintro ⟨⟩⟩
    rw [hsame.convert]
    exact .rfl'

/-- A comparison that is not fused. -/
theorem ends_comparison (h : Arrives r config k plan i ins V K s a)
    (hop : ins.opcode.isComparison = true) (hfused : i ∉ plan.fused)
    (hops : Site.operations ⟨r, plan, i⟩ ins p = .ok (ops, p')) :
    Follows r plan ins V K (Step.effect r ins s) (performAll r.constants ops a) := by
  obtain ⟨hc, b, heval, heffect⟩ := h.comparison hop
  rw [operations_of_comparison hop] at hops
  obtain ⟨e, _, he, hwrite⟩ := exists_of_lower_bind hops
  obtain ⟨rfl, rfl⟩ := emit_comparison he
  rw [if_neg fun hmem => hfused (List.contains_iff_mem.1 hmem)] at hwrite
  obtain rfl := emit_write hwrite
  have hwrites : ins.writes = [placeOf ins.c] := by
    obtain ⟨op, x, y, c, line⟩ := ins
    cases op <;> first | rfl | cases hop
  rw [heffect]
  exact follows_assign_pure h.mirrors hc hwrites heval .rfl' fun _ => Words.isTruth_ofBool b

/-- Whatever lowering emits for an instruction follows the interpreter's. -/
def Obeys (r : Routine) (plan : Plan) (i : Nat) (ins : Instruction) (V K : Nat → Prop) (s : State)
    (a : Activation) : Prop :=
  ∀ {p p' : Progress} {ops : List Op}, Site.operations ⟨r, plan, i⟩ ins p = .ok (ops, p') →
    Follows r plan ins V K (Step.effect r ins s) (performAll r.constants ops a)

/-- An immediate is obeyed: its words are those of the kind that its tag says. -/
theorem obeys_data (h : Arrives r config k plan i ⟨.data, x, y, c, line⟩ V K s a) :
    Obeys r plan i ⟨.data, x, y, c, line⟩ V K s a := by
  intro p p' ops hops
  obtain ⟨ws, hws, hall⟩ := h.wants (by rintro ⟨⟩)
  obtain ⟨kind, hkind, rfl⟩ := Option.map_eq_some_iff.1 hws
  obtain ⟨tag, htag, hkind'⟩ := Option.bind_eq_some_iff.1 hkind
  have hc := h.writes hall (.head _)
  obtain ⟨_, hkind'', rfl⟩ := emit_data rfl hops
  cases hkind.symm.trans hkind''
  change Follows _ _ _ _ _ (Step.data r _ s) _
  unfold Step.data Machine.data
  rw [htag]
  cases tag with
  | bool =>
    cases hkind'
    exact follows_assign_pure h.mirrors hc rfl rfl .rfl' fun _ => Words.isTruth_ofBool _
  | int | float =>
    cases hkind'
    exact follows_assign_pure h.mirrors hc rfl rfl .rfl' (by rintro ⟨⟩)
  | _ => cases hkind'

/-- A scalar constant is obeyed: compiled code has its words built in. -/
theorem obeys_getConstScalar (h : Arrives r config k plan i ⟨.getConstScalar kind, x, y, c, line⟩ V K s a) :
    Obeys r plan i ⟨.getConstScalar kind, x, y, c, line⟩ V K s a := by
  intro p p' ops hops
  obtain ⟨_, ⟨⟩, hall⟩ := h.wants (by rintro ⟨⟩)
  obtain ⟨v, hv, hops⟩ := emit_constant hops
  obtain rfl := emit_write hops
  have hconstant : Step.constant r y s = .ok v s := by
    unfold Step.constant
    rw [show r.constants[placeOf y]? = some v from hv]
    rfl
  refine .of_left hconstant ?_
  change Follows _ _ _ _ _ (Step.setScalar r c kind v.words s) _
  rw [setScalar_constantWords]
  exact follows_assign_pure h.mirrors (h.writes hall (.head _)) rfl rfl .rfl' fun hbool =>
    isTruth_constantWords hbool _

/-- A conversion is obeyed, also where a truth value is its word. -/
theorem obeys_convert {v : Conversion} (h : Arrives r config k plan i ⟨.convert v, x, y, c, line⟩ V K s a) :
    Obeys r plan i ⟨.convert v, x, y, c, line⟩ V K s a := by
  intro p p' ops hops
  obtain ⟨_, ⟨⟩, hc, hx⟩ := h.wants (by rintro ⟨⟩)
  obtain rfl := emit_write (emit_read hops)
  obtain ⟨w, hw, hsame, htruth⟩ := (h.reads hx (.head _)).words
  obtain ⟨w', he, hresult, htruth'⟩ := eval_conversion v hsame htruth
  exact .of_left hw (follows_assign_pure h.mirrors (h.writes hc (.head _)) rfl he hresult htruth')

/-- An operation on one scalar is obeyed. -/
theorem obeys_unary {op : UnaryOp} (h : Arrives r config k plan i ⟨.unary op, x, y, c, line⟩ V K s a) :
    Obeys r plan i ⟨.unary op, x, y, c, line⟩ V K s a := by
  intro p p' ops hops
  obtain ⟨_, ⟨⟩, hc, hx⟩ := h.wants (by rintro ⟨⟩)
  obtain rfl := emit_write (emit_read hops)
  refine follows_unary (f := op.apply) (g := op.apply) h.mirrors (h.reads hx (.head _)) (h.writes hc (.head _))
    rfl rfl fun w w' hsame _ => ⟨?_, fun hbool => ?_⟩
  · rw [hsame.unary]
    exact .rfl'
  · cases op <;> first | exact Words.isTruth_ofBool _ | cases hbool

/-- Reading a byte of a string is obeyed. -/
theorem obeys_charAt (h : Arrives r config k plan i ⟨.charAt, x, y, c, line⟩ V K s a) :
    Obeys r plan i ⟨.charAt, x, y, c, line⟩ V K s a := by
  intro p p' ops hops
  obtain ⟨_, ⟨⟩, hc, hx, hy⟩ := h.wants (by rintro ⟨⟩)
  obtain rfl := emit_write (emit_read hops)
  refine follows_heapIndex h.mirrors (h.slot hx rfl (.head _)) (h.reads hy (.tail _ (.head _)))
    (h.writes hc (.head _)) rfl (m := Heap.charAt) (n := charAt)
    (f := fun n : Int64 => .single n.toUInt64) (g := fun n : Int64 => .single n.toUInt64)
    (fun v' hv' => bind_of_ok hv') fun v v' i _ halike => ?_
  rw [charAt_eq]
  refine (Heap.agree_charAt halike i _ _ h.mirrors.alike.world.heap).mono ?_ fun _ _ hf => hf
  rintro n _ t b ⟨rfl, hb⟩
  exact ⟨⟨.rfl', by rintro ⟨⟩⟩, hb⟩

/-- Reading an element of an array is obeyed, as the array has the declared kind. -/
theorem obeys_arrayGet {element : ElementKind}
    (h : Arrives r config k plan i ⟨.arrayGet element, x, y, c, line⟩ V K s a) :
    Obeys r plan i ⟨.arrayGet element, x, y, c, line⟩ V K s a := by
  intro p p' ops hops
  obtain ⟨_, ⟨⟩, hc, hx, hy⟩ := h.wants (by rintro ⟨⟩)
  obtain rfl := emit_write (emit_read hops)
  refine follows_heapIndex h.mirrors (h.slot hx rfl (.head _)) (h.reads hy (.tail _ (.head _)))
    (h.writes hc (.head _)) rfl (m := Heap.arrayGet) (n := fun v i => Heap.wordsBy element v (flatPlace i))
    (f := Value.words) (g := id)
    (fun v' hv' => (bind_of_ok hv').trans (congrFun (bind_pure (onHeap _)).symm a)) fun v v' i hreg halike => ?_
  rw [flatPlace_eq]
  refine (Heap.ends_wordsBy h.mirrors.alike.world.heap halike _ fun id arr hid =>
    h.elementKind hx (.head _) id arr (hid ▸ hreg)).mono ?_ fun _ _ hf => hf
  rintro z _ t b ⟨rfl, hb⟩
  refine ⟨⟨.rfl', fun hbool => ?_⟩, hb⟩
  cases element <;> cases hbool

/-- So is reading an element by several indices. -/
theorem obeys_arrayGetMulti {element : ElementKind}
    (h : Arrives r config k plan i ⟨.arrayGetMulti element, x, y, c, line⟩ V K s a) :
    Obeys r plan i ⟨.arrayGetMulti element, x, y, c, line⟩ V K s a := by
  intro p p' ops hops
  obtain ⟨ws, hws, hall⟩ := h.wants (by rintro ⟨⟩)
  obtain ⟨hcount, ⟨⟩⟩ := Option.ite_none_left_eq_some.1 hws
  obtain ⟨hc, hrest⟩ := (List.forall_cons _ _ _).1 hall
  obtain ⟨hx, hindices⟩ := (List.forall_cons _ _ _).1 hrest
  obtain ⟨hbase, hend, -⟩ := r.inBounds h.here
  obtain rfl := emit_write (emit_indices hops)
  dsimp only
  rw [indexRegisters_eq (countOf_lt h.regs hbase hend)]
  exact follows_arrayGetMulti h.mirrors (h.slot hx rfl (.head _))
    (h.readsIndices hbase hend hcount hindices fun q hq => .tail _ hq) (h.writes hc (.head _)) rfl
    (h.elementKind hx (.head _))

/-- Storing an element by several indices is obeyed, as the array has the declared kind. -/
theorem obeys_arraySetMulti {element : ElementKind}
    (h : Arrives r config k plan i ⟨.arraySetMulti element, x, y, c, line⟩ V K s a) :
    Obeys r plan i ⟨.arraySetMulti element, x, y, c, line⟩ V K s a := by
  intro p p' ops hops
  obtain ⟨ws, hws, hall⟩ := h.wants (by rintro ⟨⟩)
  obtain ⟨hcount, ⟨⟩⟩ := Option.ite_none_left_eq_some.1 hws
  obtain ⟨hc, hrest⟩ := (List.forall_cons _ _ _).1 hall
  obtain ⟨hx, hindices⟩ := (List.forall_cons _ _ _).1 hrest
  obtain ⟨-, hbase, hend⟩ := r.inBounds h.here
  cases emit_indices (emit_read hops)
  dsimp only
  rw [indexRegisters_eq (countOf_lt h.regs hbase hend)]
  exact follows_arraySetMulti h.mirrors (h.reads hx (.head _))
    (h.readsIndices hbase hend hcount hindices fun q hq => .tail _ (.tail _ hq))
    (h.slot hc rfl (.tail _ (.head _))) rfl (h.elementKind hc (.head _))

/-- Reading an item of a list is obeyed, with the check of its tag. -/
theorem obeys_listGet {element : ElementKind}
    (h : Arrives r config k plan i ⟨.listGet element, x, y, c, line⟩ V K s a) :
    Obeys r plan i ⟨.listGet element, x, y, c, line⟩ V K s a := by
  intro p p' ops hops
  obtain ⟨_, ⟨⟩, hc, hx, hy⟩ := h.wants (by rintro ⟨⟩)
  obtain ⟨hnc, t, ht, hadmits⟩ := h.type hc
  obtain rfl := emit_reload (emit_read hops)
  change Follows _ _ _ _ _ _ (performAll _ (.listGet _ _ _ ((Site.typeOf _ (.ofOperand c)).listItemTag element) :: _) _)
  rw [typeOf_eq hnc ht]
  exact follows_listGet h.mirrors (h.slot hx rfl (.head _)) (h.reads hy (.tail _ (.head _))) hnc rfl ht
    (f := fun t => t.listItemTag element) fun z hz =>
      ValueType.listItemTag_eq (h.tag hnc ht hz) (of_decide_eq_true hadmits)

/-- Replacing an item of a list is obeyed. -/
theorem obeys_listSet {element : ElementKind}
    (h : Arrives r config k plan i ⟨.listSet element, x, y, c, line⟩ V K s a) :
    Obeys r plan i ⟨.listSet element, x, y, c, line⟩ V K s a := by
  intro p p' ops hops
  obtain ⟨_, ⟨⟩, hc, hy, hx⟩ := h.wants (by rintro ⟨⟩)
  obtain rfl := emit_listSet rfl hops
  exact follows_listSet h.mirrors (h.type hx).1 (h.usable _ (.head _)) (h.reads hy (.tail _ (.head _)))
    (h.boxed hc rfl).1 (h.current hc rfl (.tail _ (.tail _ (.head _)))) rfl

/-- Reading an item of a tuple is obeyed, with the check of its tag. -/
theorem obeys_tupleGetAny (h : Arrives r config k plan i ⟨.tupleGetAny, x, y, c, line⟩ V K s a) :
    Obeys r plan i ⟨.tupleGetAny, x, y, c, line⟩ V K s a := by
  intro p p' ops hops
  obtain ⟨ws, hws, hall⟩ := h.wants (by rintro ⟨⟩)
  obtain ⟨-, ⟨⟩⟩ := Option.ite_none_left_eq_some.1 hws
  have hnc := h.names (r.inBounds h.here).2
  obtain ⟨t, ht⟩ := hnc.exists_type
  obtain rfl := emit_reload hops
  change Follows _ _ _ _ _ _ (performAll _ (.move _ _ (Site.typeOf _ (.ofOperand c)).tag? :: _) _)
  rw [typeOf_eq hnc ht]
  exact follows_tupleGetAny h.mirrors (h.boxed hall rfl).1 (h.current hall rfl (.head _)) _ hnc rfl ht
    fun z hz => ValueType.tag?_of_scalarTag (h.tag hnc ht hz)

/-- Replacing an item of a tuple is obeyed, with the check of its tag. -/
theorem obeys_tupleSetAny (h : Arrives r config k plan i ⟨.tupleSetAny, x, y, c, line⟩ V K s a) :
    Obeys r plan i ⟨.tupleSetAny, x, y, c, line⟩ V K s a := by
  intro p p' ops hops
  obtain ⟨ws, hws, hall⟩ := h.wants (by rintro ⟨⟩)
  obtain ⟨-, ⟨⟩⟩ := Option.ite_none_left_eq_some.1 hws
  obtain ⟨hnc, t, ht, -⟩ := h.type hall
  cases emit_sync hops
  change Follows _ _ _ _ _ _ (performAll _ (_ ++ [.check _ ((Site.typeOf _ (.ofOperand c)).itemTag? _), _]) _)
  rw [typeOf_eq hnc ht]
  exact follows_tupleSetAny h.mirrors (h.names (r.inBounds h.here).1) (h.usable _ (.head _)) hnc
    (h.current hall rfl (.tail _ (.head _))) ht _ rfl

/-- Variables are outside the register file, so no register decides where they are. -/
theorem obeys_getVar {storage : StorageClass}
    (h : Arrives r config k plan i ⟨.getVar storage kind, x, y, c, line⟩ V K s a) :
    Obeys r plan i ⟨.getVar storage kind, x, y, c, line⟩ V K s a := by
  intro p p' ops hops
  obtain ⟨ws, hws, hall⟩ := h.wants (by rintro ⟨⟩)
  have hc : Declares r c.toInt (.scalar kind) := by
    cases storage <;> obtain ⟨-, ⟨⟩⟩ := Option.ite_none_left_eq_some.1 hws <;> exact hall
  have hbase (ins : Instruction) : (ins.sourceVariable storage).base? = none := by cases storage <;> rfl
  have hwide := h.conforms.wide
  have hslots := h.conforms.slots
  obtain rfl := emit_write (emit_require hops)
  refine follows_slotGet h.mirrors (fun i hi => ?_) (h.writes hc (.head _)) rfl (fun hcomplex => ?_) fun hbool => ?_
  · rw [hbase] at hi
    cases hi
  · subst hcomplex
    exact hwide
  · subst hbool
    exact hslots

/-- Setting a variable is obeyed, whatever its storage class. -/
theorem obeys_setVar {storage : StorageClass}
    (h : Arrives r config k plan i ⟨.setVar storage kind, x, y, c, line⟩ V K s a) :
    Obeys r plan i ⟨.setVar storage kind, x, y, c, line⟩ V K s a := by
  intro p p' ops hops
  obtain ⟨ws, hws, hall⟩ := h.wants (by rintro ⟨⟩)
  have hx : Declares r x.toInt (.scalar kind) := by
    cases storage <;> obtain ⟨-, ⟨⟩⟩ := Option.ite_none_left_eq_some.1 hws <;> exact hall
  obtain ⟨z, hz, hops⟩ := emit_tagOf (emit_read (emit_require hops))
  cases hops
  obtain ⟨w, hreg, hsame⟩ := h.stored (h.type hx).1 (.head _) hz
  refine follows_store h.mirrors hreg hsame ?_ ?_ h.conforms.slots rfl
  · cases storage <;> rintro _ ⟨⟩
  · cases storage <;> rintro _ ⟨⟩

/-- **A compiled instruction follows the interpreter's.** -/
theorem ends_effect (h : Arrives r config k plan i ins V K s a) (hcase : ins.opcode ≠ .caseEntry)
    (hbranch : ins.opcode.isBranch = false) (hret : ins.opcode ≠ .ret) (hfused : i ∉ plan.fused)
    (hops : Site.operations ⟨r, plan, i⟩ ins p = .ok (ops, p')) :
    Follows r plan ins V K (Step.effect r ins s) (performAll r.constants ops a) := by
  have hop := h.isPlan.compilable i h.inside ins h.here
  have hslots := h.conforms.slots
  have hwide := h.conforms.wide
  have hm := h.mirrors
  by_cases hcomparison : ins.opcode.isComparison = true
  · exact ends_comparison h hcomparison hfused hops
  obtain ⟨ws, hws, hall⟩ := h.wants hcase
  obtain ⟨op, x, y, c, line⟩ := ins
  cases op with
  | nop =>
    cases hops
    exact .of_keep rfl hm
  | caseEntry => exact absurd rfl hcase
  | data => exact obeys_data h hops
  | getConst | getConstString =>
    cases hws
    obtain ⟨hnc, hboxed⟩ := h.boxed hall rfl
    obtain rfl := emit_reload (emit_require hops)
    exact follows_loadConstant hm hnc rfl hboxed
  | getConstScalar kind => exact obeys_getConstScalar h hops
  | move =>
    cases hws
    obtain ⟨hc, hx⟩ := hall
    obtain ⟨hnc, hboxed⟩ := h.boxed hc rfl
    have hsync : plan.syncOps (.ofOperand x) = [] := by rw [Plan.syncOps, (h.boxed hx rfl).2]
    obtain rfl := emit_reload (emit_sync hops)
    change Follows _ _ _ _ _ _ (performAll _ (plan.syncOps (.ofOperand x) ++ _) _)
    rw [hsync]
    exact follows_move hm (h.slot hx rfl (.head _)) hnc rfl hboxed
  | moveString =>
    cases hws
    obtain ⟨hc, hx⟩ := hall
    obtain ⟨hnc, hboxed⟩ := h.boxed hc rfl
    obtain rfl := emit_reload hops
    exact follows_move hm (h.slot hx rfl (.head _)) hnc rfl hboxed
  | moveScalar kind =>
    cases hws
    obtain ⟨hc, hx⟩ := hall
    obtain rfl := emit_write (emit_read hops)
    exact follows_unary (f := id) (g := id) hm (h.reads hx (.head _)) (h.writes hc (.head _)) rfl rfl
      fun _ _ hsame htruth => ⟨hsame, htruth⟩
  | convert v => exact obeys_convert h hops
  | unary op => exact obeys_unary h hops
  | intArith op =>
    cases hws
    obtain ⟨hc, hx, hy⟩ := hall
    obtain rfl := emit_write (emit_read (emit_read hops))
    exact follows_intArith hm op (h.reads hx (.head _)) (h.reads hy (.tail _ (.head _)))
      (h.writes hc (.head _)) rfl
  | intBits op =>
    cases hws
    obtain ⟨hc, hx, hy⟩ := hall
    obtain rfl := emit_write (emit_read (emit_read hops))
    exact follows_intBinary hm (h.reads hx (.head _)) (h.reads hy (.tail _ (.head _)))
      (h.writes hc (.head _)) rfl rfl (by rintro ⟨⟩)
  | logic op =>
    cases hws
    obtain ⟨hc, hx, hy⟩ := hall
    obtain rfl := emit_write (emit_read (emit_read hops))
    exact follows_binary (f := fun w z => .single (Words.ofBool (op.apply w.bool z.bool))) hm
      (h.reads hx (.head _)) (h.reads hy (.tail _ (.head _))) (h.writes hc (.head _)) rfl rfl
      (fun _ _ _ _ hw hz => by rw [hw.bool_eq, hz.bool_eq]) fun _ _ _ => Words.isTruth_ofBool _
  | floatArith op =>
    cases hws
    obtain ⟨hc, hx, hy⟩ := hall
    obtain rfl := emit_write (emit_read (emit_read hops))
    exact follows_binary (f := fun w z => .single (op.float w.lo z.lo)) hm
      (h.reads hx (.head _)) (h.reads hy (.tail _ (.head _))) (h.writes hc (.head _)) rfl rfl
      (fun _ _ _ _ hw hz => by rw [hw.1, hz.1]) (by rintro ⟨⟩)
  | complexArith op =>
    cases hws
    obtain ⟨hc, hx, hy⟩ := hall
    obtain rfl := emit_write (emit_read (emit_read hops))
    exact follows_binary (f := fun w z => op.complex w z) hm
      (h.reads hx (.head _)) (h.reads hy (.tail _ (.head _))) (h.writes hc (.head _)) rfl
      (congrArg (EStateM.Result.ok · a) (complexArith_eq op _ _))
      (fun _ _ _ _ hw hz => by rw [hw.eq_of_complex, hz.eq_of_complex]) (by rintro ⟨⟩)
  | math =>
    obtain ⟨f, hf, rfl⟩ := emit_math rfl hops
    obtain ⟨_, hws, rfl⟩ := Option.map_eq_some_iff.1 hws
    obtain ⟨hc, hy⟩ := hall
    simp only [Step.effect, Machine.effect, hf]
    exact follows_math hm f (h.reads hy (.head _)) (h.writes hc (.head _)) rfl
  | arith op =>
    cases hws
    obtain ⟨hc, hx, hy⟩ := hall
    obtain rfl := emit_reload (emit_sync (emit_sync hops))
    exact follows_arith h rfl rfl hx hy hc (.head _) (.tail _ (.head _))
  | assignAll =>
    cases hws
    obtain ⟨hc, hy, hx⟩ := hall
    cases emit_sync hops
    exact follows_assignAll hm (h.type hx).1 (h.usable _ (.head _)) (h.slot hy rfl (.tail _ (.head _)))
      (h.boxed hc rfl).1 (h.current hc rfl (.tail _ (.tail _ (.head _)))) rfl
  | concat =>
    cases hws
    obtain ⟨hc, hx, hy⟩ := hall
    obtain ⟨hnc, hboxed⟩ := h.boxed hc rfl
    obtain rfl := emit_reload hops
    refine follows_heapBinary hm (h.slot hx rfl (.head _)) (h.slot hy rfl (.tail _ (.head _))) hnc rfl hboxed
      (n := Heap.concat) (fun u v hu hv => ?_) fun u u' v v' _ _ halike halike' => ?_
    · exact (bind_of_ok hu).trans (bind_of_ok hv)
    · exact Heap.agree_concat halike halike'
  | charAt => exact obeys_charAt h hops
  | setChar =>
    cases hws
    obtain ⟨hc, hx, hy⟩ := hall
    obtain ⟨hnc, hboxed⟩ := h.boxed hc rfl
    obtain rfl := emit_reload (emit_read (emit_read hops))
    exact follows_setChar hm (h.reads hx (.head _)) (h.reads hy (.tail _ (.head _)))
      (h.slot hc rfl (.tail _ (.tail _ (.head _)))) hnc rfl hboxed
  | size of =>
    cases of <;> cases hws <;> obtain ⟨hc, hx⟩ := hall <;> obtain rfl := emit_write hops <;>
      exact follows_size hm (h.slot hx rfl (.head _)) _ (h.writes hc (.head _)) rfl
  | arrayGet element => exact obeys_arrayGet h hops
  | arraySet element =>
    cases hws
    obtain ⟨hc, hy, hx⟩ := hall
    cases emit_read (emit_read hops)
    exact follows_arraySet hm (h.reads hx (.head _)) (h.reads hy (.tail _ (.head _)))
      (h.slot hc rfl (.tail _ (.tail _ (.head _)))) rfl (h.elementKind hc (.head _))
  | arrayGetMulti element => exact obeys_arrayGetMulti h hops
  | arraySetMulti element => exact obeys_arraySetMulti h hops
  | listGet element => exact obeys_listGet h hops
  | listSet element => exact obeys_listSet h hops
  | tupleGetAny => exact obeys_tupleGetAny h hops
  | tupleSetAny => exact obeys_tupleSetAny h hops
  | tupleGet kind | getField kind =>
    obtain ⟨-, ⟨⟩⟩ := Option.ite_none_left_eq_some.1 hws
    obtain ⟨hc, hx⟩ := hall
    obtain rfl := emit_write hops
    exact follows_itemGet h (h.boxed hx rfl).1 (h.current hx rfl (.head _)) (h.writes hc (.head _)) rfl
      (fun hcomplex => by subst hcomplex; exact hwide) fun hbool => by subst hbool; exact hslots
  | tupleSet kind | setField kind =>
    obtain ⟨-, ⟨⟩⟩ := Option.ite_none_left_eq_some.1 hws
    obtain ⟨hc, hx⟩ := hall
    obtain ⟨z, hz, hops⟩ := emit_tagOf (emit_read hops)
    cases hops
    exact follows_itemSet h (h.type hx).1 (.head _) hz (h.boxed hc rfl).1
      (h.current hc rfl (.tail _ (.head _))) hslots rfl
  | getVar storage kind => exact obeys_getVar h hops
  | setVar storage kind => exact obeys_setVar h hops
  | compareInt | compareFloat | compareComplex | compareString => exact absurd rfl hcomparison
  | goto | test | switch => cases hbranch
  | ret => exact absurd rfl hret
  | print | callSegment => cases hop

end

end Native

end RegisterVM
