import RegisterVM.Proofs.Materialization
import RegisterVM.Proofs.PackedElements

/-!
# Elementwise arithmetic

Arithmetic on arrays is generic arithmetic at every position. The kind of the result is decided once for the whole
array, and for two numbers it is decided at each position, but the elements of an array all have its kind, so the two
decisions agree (`Heap.genericArith_of_numbers`, `Operand.combine_cases`). A scalar has the same number at every
position. The first position that fails decides the error.

Both operands are copied out before any arithmetic, one after the other; what they stand for was settled before the
first (`Heap.Stands.settled`). So it makes no difference whether they are views, or the same array twice.
-/

namespace RegisterVM

/-! ### Going over positions -/

/-- **Positions are gone over in order up to the first failure.** -/
theorem mapM_range_cases {ε β : Type} (f : Nat → Except ε β) (n : Nat) :
    (∃ ys, (List.range n).mapM f = .ok ys ∧ ys.length = n ∧ ∀ i < n, ∃ y, ys[i]? = some y ∧ f i = .ok y) ∨
      ∃ i e, i < n ∧ f i = .error e ∧ (∀ j < i, ∃ y, f j = .ok y) ∧ (List.range n).mapM f = .error e := by
  induction n with
  | zero => exact .inl ⟨[], rfl, rfl, fun i hi => absurd hi (Nat.not_lt_zero i)⟩
  | succ n ih =>
    rw [List.range_succ, List.mapM_append, List.mapM_cons, List.mapM_nil]
    rcases ih with ⟨ys, hys, hlength, hall⟩ | ⟨i, e, hi, hfi, hbefore, herror⟩
    · cases hn : f n with
      | ok y =>
        refine .inl ⟨ys ++ [y], ?_, by simp [hlength], fun i hi => ?_⟩
        · rw [hys]
          rfl
        · rcases Nat.lt_succ_iff_lt_or_eq.1 hi with hlt | rfl
          · obtain ⟨z, hz, hfi⟩ := hall i hlt
            exact ⟨z, by rw [List.getElem?_append_left (by omega), hz], hfi⟩
          · exact ⟨y, by rw [List.getElem?_append_right (by omega), hlength]; simp, hn⟩
      | error e =>
        refine .inr ⟨n, e, Nat.lt_succ_self n, hn, fun j hj => ?_, ?_⟩
        · obtain ⟨z, -, hfj⟩ := hall j hj
          exact ⟨z, hfj⟩
        · rw [hys]
          rfl
    · refine .inr ⟨i, e, Nat.lt_succ_of_lt hi, hfi, hbefore, ?_⟩
      rw [herror]
      rfl

/-! ### Numbers at positions -/

/-- Element `i` of an array as a value. -/
def PlainArray.value (a : PlainArray) (i : Nat) : Value := .ofElement a.kind (a.element i)

/-- A number is read back from its value. -/
theorem Value.number?_ofNumber (n : Number) : (Value.ofNumber n).number? = some n := by
  cases n <;> rfl

/-- An element of an array is a number. -/
theorem PlainArray.number?_value (a : PlainArray) (i : Nat) : (a.value i).number? = some (a.number i) :=
  Value.number?_ofNumber _

/-- A scalar is a number of its own kind. -/
theorem ScalarTag.exists_number? (tag : ScalarTag) (w : Words) :
    ∃ n, (Value.scalar tag w).number? = some n ∧ n.kind = tag.element := by
  cases tag <;> exact ⟨_, rfl, rfl⟩

/-- The numbers of an operand have its kind. -/
theorem Operand.kind_number (p : Operand) (i : Nat) : (p.number i).kind = p.kind := by
  cases p with
  | array a => exact Number.kind_ofWords a.kind _
  | scalar n => rfl

/-- The result of elementwise arithmetic, or the error of the first position that has one. -/
theorem Operand.combine_cases (op : ArithOp) {p q : Operand} {dims : Shape} (hshape : p.shape q = .ok dims) :
    (∃ c, p.combine op q = .ok c ∧ c.kind = p.kind.join q.kind ∧ c.toExtents = .ofShape dims ∧
      c.words.size = Shape.word dims.size * c.kind.words ∧
      ∀ i < Shape.word dims.size, Number.apply op (p.number i) (q.number i) = .ok (c.number i)) ∨
    ∃ i e, i < Shape.word dims.size ∧ Number.apply op (p.number i) (q.number i) = .error e ∧
      (∀ j < i, ∃ n, Number.apply op (p.number j) (q.number j) = .ok n) ∧ p.combine op q = .error e := by
  have happly (i : Nat) : Number.apply op (p.number i) (q.number i) =
      Number.applyAt op (p.kind.join q.kind) (p.number i) (q.number i) := by
    rw [Number.apply, p.kind_number, q.kind_number]
  simp only [happly]
  unfold combine
  rw [hshape]
  rcases mapM_range_cases (fun i => Number.applyAt op (p.kind.join q.kind) (p.number i) (q.number i))
    (Shape.word dims.size) with ⟨ns, hns, hlength, hall⟩ | ⟨i, e, hi, hfi, hbefore, herror⟩
  · refine .inl ⟨.ofShape (p.kind.join q.kind) dims (packNumbers (p.kind.join q.kind) ns), ?_, rfl, rfl, ?_,
      fun i hi => ?_⟩
    · simp only [hns, bind, Except.bind, pure, Except.pure]
    · exact (size_packNumbers _ ns).trans (by rw [hlength]; rfl)
    · obtain ⟨n, hn, hfi⟩ := hall i hi
      rw [hfi]
      exact congrArg Except.ok (PlainArray.number_packNumbers (.ofShape dims) hn (Number.kind_of_applyAt hfi)).symm
  · refine .inr ⟨i, e, hi, hfi, hbefore, ?_⟩
    simp only [herror, bind, Except.bind]

namespace Heap

variable {h k : Heap} {roots : List ObjectId} {x y : Value} {p q : Operand}

/-- Only scalars are numbers. -/
theorem exists_scalar_of_number? {n : Number} (hx : x.number? = some n) : ∃ tag w, x = .scalar tag w := by
  cases x with
  | scalar tag w => exact ⟨tag, w, rfl⟩
  | _ => cases hx

/-- Generic arithmetic on two numbers leaves the heap alone. -/
theorem genericArith_of_numbers (op : ArithOp) {m n : Number} (hx : x.number? = some m) (hy : y.number? = some n)
    (h : Heap) :
    genericArith op x y h = (lift ((Number.apply op m n).map Value.ofNumber)) h := by
  obtain ⟨tag, w, rfl⟩ := exists_scalar_of_number? hx
  obtain ⟨tag', w', rfl⟩ := exists_scalar_of_number? hy
  have hscalar (tag : ScalarTag) (w : Words) :
      (Value.scalar tag w).tag ≠ .array ∧ (Value.scalar tag w).tag ≠ .string := by
    cases tag <;> exact ⟨by rintro ⟨⟩, by rintro ⟨⟩⟩
  unfold genericArith
  simp only [hscalar, hx, hy, decide_false, Bool.or_self, Bool.false_eq_true, if_false, Bool.and_false]
  cases Number.apply op m n <;> rfl

/-- What an operation on numbers gives as values. -/
theorem genericArith_eq_ok (op : ArithOp) {m n r : Number} (hx : x.number? = some m) (hy : y.number? = some n)
    (hr : Number.apply op m n = .ok r) (h : Heap) : genericArith op x y h = .ok (.ofNumber r) h := by
  rw [genericArith_of_numbers op hx hy, hr]
  rfl

/-- Generic arithmetic on numbers fails as arithmetic does. -/
theorem genericArith_eq_error (op : ArithOp) {m n : Number} {e : ErrorCode} (hx : x.number? = some m)
    (hy : y.number? = some n) (he : Number.apply op m n = .error e) (h : Heap) :
    genericArith op x y h = .error e h := by
  rw [genericArith_of_numbers op hx hy, he]
  rfl

/-! ### Arrays of results -/

/-- **The operation `m` lifts generic arithmetic on `xs i` and `ys i` to the positions `i` of a shape.** -/
structure Pointwise (h : Heap) (roots : List ObjectId) (op : ArithOp) (dims : Shape) (kind : ElementKind)
    (xs ys : Nat → Value) (m : HeapM Value) : Prop where
  /-- it succeeds exactly if generic arithmetic does everywhere -/
  succeeds_iff : (∃ r l, m h = .ok r l) ↔
    ∀ i < Shape.word dims.size, ∃ v, genericArith op (xs i) (ys i) h = .ok v h
  /-- the result is a new array that has the shape and the kind, with the results of generic arithmetic as elements -/
  result : ∀ r l, m h = .ok r l → ∃ id c, r = .object .array id ∧ h.get? id = none ∧ l.get? id = some (.ofPlain c) ∧
    c.kind = kind ∧ c.toExtents = .ofShape dims ∧ c.words.size = Shape.word dims.size * kind.words ∧
    ∀ i < Shape.word dims.size, genericArith op (xs i) (ys i) h = .ok (c.value i) h
  /-- otherwise it fails as the first position does that fails -/
  failure : ∀ e l, m h = .error e l → ∃ i < Shape.word dims.size, genericArith op (xs i) (ys i) h = .error e h ∧
    ∀ j < i, ∃ v, genericArith op (xs j) (ys j) h = .ok v h
  /-- arrays that are held have the contents they had -/
  unchanged : ∀ id a, h.Held roots id → h.Denotes id a → (stateAfter m h).Denotes id a

/-- A new object does not change what others denote, at their distance. -/
theorem ReadsAt.allocate {n : Nat} {id : ObjectId} {a : PlainArray} (ha : h.ReadsAt n id a) (o : Object) :
    (h.allocate o).2.ReadsAt n id a := by
  have hget {j : ObjectId} {p : Object} (hj : h.get? j = some p) : (h.allocate o).2.get? j = some p := by
    rw [get?_allocate, if_neg (lt_size_of_get? hj).ne, hj]
  induction ha with
  | plain hid => exact .plain (hget hid)
  | view hid _ hlength hfits ih => exact .view ⟨hget hid.get?_eq, hid.data_eq⟩ ih hlength hfits

/-- A new object does not change what others denote. -/
theorem Denotes.allocate {id : ObjectId} {a : PlainArray} (ha : h.Denotes id a) (o : Object) :
    (h.allocate o).2.Denotes id a :=
  ha.imp fun _ hn => hn.allocate o

/-- Both operands are read before anything is computed. -/
theorem exists_arrayArith (hh : h.Counted roots) (hx : h.Stands roots x p) (hy : h.Stands roots y q) (op : ArithOp) :
    ∃ k, h.Settled roots k ∧ arrayArith op x y h = (lift (p.combine op q) >>= fun c => new (.ofPlain c)) k := by
  obtain ⟨k, hk, hsettled, -⟩ := hx.exists_operand hh
  obtain ⟨l, hl, hsettled', -⟩ := (hy.settled hsettled).exists_operand hsettled.counted
  refine ⟨l, .trans hsettled.settles hsettled', ?_⟩
  unfold arrayArith
  rw [bind_of_ok hk, bind_of_ok hl, combine_eq]

/-- **Operands with a common shape are combined position by position.** -/
theorem pointwise_arrayArith (hh : h.Counted roots) (hx : h.Stands roots x p) (hy : h.Stands roots y q) (op : ArithOp)
    {dims : Shape} (hshape : p.shape q = .ok dims) {xs ys : Nat → Value} (hxs : ∀ i, (xs i).number? = some (p.number i))
    (hys : ∀ i, (ys i).number? = some (q.number i)) :
    h.Pointwise roots op dims (p.kind.join q.kind) xs ys (arrayArith op x y) := by
  obtain ⟨k, hk, harith⟩ := exists_arrayArith hh hx hy op
  rcases Operand.combine_cases op hshape with ⟨c, hc, hkind, hdims, hsize, hall⟩ | ⟨i, e, hi, herror, hbefore, hcombine⟩
  · have hok (i : Nat) (hi : i < Shape.word dims.size) : genericArith op (xs i) (ys i) h = .ok (c.value i) h :=
      genericArith_eq_ok op (hxs i) (hys i) (hall i hi) h
    have hend : arrayArith op x y h = .ok (.object .array k.cells.size) (k.allocate (.ofPlain c)).2 := by
      rw [harith, hc]
      rfl
    have hfresh : h.get? k.cells.size = none := hk.settles.size_eq ▸ h.get?_size
    refine ⟨⟨fun _ i hi => ⟨_, hok i hi⟩, fun _ => ⟨_, _, hend⟩⟩, fun r l hr => ?_, fun e l he => ?_,
      fun id a hid ha => ?_⟩
    · rw [hend] at hr
      cases hr
      refine ⟨_, c, rfl, hfresh, ?_, hkind, hdims, hkind ▸ hsize, hok⟩
      rw [get?_allocate, if_pos rfl]
    · rw [hend] at he
      cases he
    · rw [stateAfter_of_ok hend]
      exact (hid.denotes hk ha).allocate _
  · have hfails : genericArith op (xs i) (ys i) h = .error e h := genericArith_eq_error op (hxs i) (hys i) herror h
    have hend : arrayArith op x y h = .error e k := by
      rw [harith, hcombine]
      rfl
    refine ⟨⟨?_, fun hsucceeds => ?_⟩, fun r l hr => ?_, fun e' l he => ?_, fun id a hid ha => ?_⟩
    · rintro ⟨r, l, hr⟩
      rw [hend] at hr
      cases hr
    · obtain ⟨v, hv⟩ := hsucceeds i hi
      rw [hfails] at hv
      cases hv
    · rw [hend] at hr
      cases hr
    · rw [hend] at he
      cases he
      refine ⟨i, hi, hfails, fun j hj => ?_⟩
      obtain ⟨n, hn⟩ := hbefore j hj
      exact ⟨_, genericArith_eq_ok op (hxs j) (hys j) hn h⟩
    · rw [stateAfter_of_error hend]
      exact hid.denotes hk ha

/-- **Array arithmetic is the pointwise lifting of generic arithmetic.** Two arrays of one shape are combined element
by element, and a scalar takes part on either side with every element; arrays of different shapes are refused. The
result has the wider kind. Whatever the outcome, arrays that somebody holds have the contents they had. -/
theorem arrayArith_pointwise (hh : h.Counted roots) (op : ArithOp) {i : ObjectId} {a : PlainArray} (hi : h.Held roots i)
    (ha : h.Denotes i a) :
    (∀ j b, h.Held roots j → h.Denotes j b →
      (a.dims = b.dims → h.Pointwise roots op a.dims (a.kind.join b.kind) a.value b.value
        (arrayArith op (.object .array i) (.object .array j))) ∧
      (a.dims ≠ b.dims → ∃ k, arrayArith op (.object .array i) (.object .array j) h = .error .shape k ∧
        ∀ id c, h.Held roots id → h.Denotes id c → k.Denotes id c)) ∧
    ∀ tag w,
      h.Pointwise roots op a.dims (a.kind.join tag.element) a.value (fun _ => .scalar tag w)
        (arrayArith op (.object .array i) (.scalar tag w)) ∧
      h.Pointwise roots op a.dims (tag.element.join a.kind) (fun _ => .scalar tag w) a.value
        (arrayArith op (.scalar tag w) (.object .array i)) := by
  have hx : h.Stands roots (.object .array i) (.array a) := .array hi ha
  refine ⟨fun j b hj hb => ?_, fun tag w => ?_⟩
  · have hy : h.Stands roots (.object .array j) (.array b) := .array hj hb
    refine ⟨fun hdims => ?_, fun hdims => ?_⟩
    · exact pointwise_arrayArith hh hx hy op (if_pos hdims) a.number?_value b.number?_value
    · obtain ⟨k, hk, harith⟩ := exists_arrayArith hh hx hy op
      have hshape : (Operand.array a).shape (.array b) = .error .shape := if_neg hdims
      have hcombine : (Operand.array a).combine op (.array b) = .error .shape := by
        unfold Operand.combine
        rw [hshape]
        rfl
      refine ⟨k, ?_, fun id c hid hc => hid.denotes hk hc⟩
      rw [harith, hcombine]
      rfl
  · obtain ⟨n, hn, hkind⟩ := tag.exists_number? w
    have hy : h.Stands roots (.scalar tag w) (.scalar n) := .scalar hn
    rw [← hkind]
    exact ⟨pointwise_arrayArith hh hx hy op rfl a.number?_value fun _ => hn,
      pointwise_arrayArith hh hy hx op rfl (fun _ => hn) a.number?_value⟩

/-- A view divided by the array it is taken on, which has a zero in the middle, and a power of the view whose exponent
is complex. -/
theorem arrayArith_pointwise_view :
    let base : PlainArray := .ofShape .int [3] #[6, 0, 8]
    let h : Heap := ⟨#[some ⟨2, .ofPlain base⟩, some ⟨1, .array (.view .int 0 [(0, 3)] (by decide))⟩]⟩
    h.Counted [0, 1] ∧ h.Held [0, 1] 0 ∧ h.Held [0, 1] 1 ∧ h.Denotes 0 base ∧ h.Denotes 1 base ∧
      genericArith .div (base.value 1) (base.value 1) h = .error .arithmetic h ∧
      h.Pointwise [0, 1] .div [3] .int base.value base.value (arrayArith .div (.object .array 1) (.object .array 0)) ∧
      h.Pointwise [0, 1] .pow [3] .complex base.value (fun _ => .scalar .complex ⟨2, 0⟩)
        (arrayArith .pow (.object .array 1) (.scalar .complex ⟨2, 0⟩)) := by
  intro base h
  have hcounted : h.Counted [0, 1] := counted_of_cells (by decide) (by decide)
  have hbase : h.Held [0, 1] 0 := .root (by decide)
  have hview : h.Held [0, 1] 1 := .root (by decide)
  have hplain : h.Denotes 0 base := ⟨0, .plain rfl⟩
  have hget : h.ViewAt 1 (.view .int 0 [(0, 3)] (by decide)) 0 [0] := ⟨rfl, rfl⟩
  have hbaseReads : h.ReadsAt 0 0 base := .plain rfl
  have hdenotes : h.Denotes 1 base := ⟨1, .view hget hbaseReads rfl (by decide)⟩
  refine ⟨hcounted, hbase, hview, hplain, hdenotes, rfl, ?_, ?_⟩
  · exact ((arrayArith_pointwise hcounted .div hview hdenotes).1 0 base hbase hplain).1 rfl
  · exact ((arrayArith_pointwise hcounted .pow hview hdenotes).2 .complex ⟨2, 0⟩).1

end Heap

end RegisterVM
