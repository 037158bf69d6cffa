import RegisterVM.Proofs.ArrayShapes
import RegisterVM.Proofs.OperationInvariants

/-!
# Operations keep arrays in shape

Each operation that makes or changes arrays keeps all of them shaped, and so does a whole run
(`SlotOperation.Runs.shaped`). All that is asked for is that arrays are built on shapes that fit
(`SlotOperation.Regular`): a window that is accepted for a view is inside of the array, and a length that is accepted
for a row is its only dimension.

Where every reference is counted, the bases of views are there as well, and the arrays of a heap are well-formed
(`Heap.WellFormed`).
-/

namespace RegisterVM

/-! ### Arithmetic -/

namespace Operand

/-- The array of an operand is shaped. -/
def Shaped : Operand → Prop
  | array a => a.Shaped
  | scalar _ => True

variable {x y : Operand} {dims : Shape} {a : PlainArray}

/-- A shaped operand is sound. -/
theorem Shaped.sound (hx : x.Shaped) : x.Sound := by
  cases x with
  | array a => exact PlainArray.Shaped.sound hx
  | scalar n => trivial

/-- The common shape is that of the left operand, if it is an array. -/
theorem dims_of_shape_left (h : (array a).shape y = .ok dims) : a.dims = dims := by
  cases y with
  | array b =>
    change (if a.dims = b.dims then Except.ok a.dims else Except.error ErrorCode.shape) = _ at h
    split at h
    · exact Except.ok.inj h
    · cases h
  | scalar n => exact Except.ok.inj h

/-- The common shape is that of the right operand, if it is an array. -/
theorem dims_of_shape_right (h : x.shape (array a) = .ok dims) : a.dims = dims := by
  cases x with
  | array b =>
    change (if b.dims = a.dims then Except.ok b.dims else Except.error ErrorCode.shape) = _ at h
    split at h
    · rename_i heq
      exact heq.symm.trans (Except.ok.inj h)
    · cases h
  | scalar n => exact Except.ok.inj h

/-- The common shape of shaped operands fits. -/
theorem fits_of_shape (hx : x.Shaped) (hy : y.Shaped) (h : x.shape y = .ok dims) : dims.Fits := by
  cases x with
  | array a => exact dims_of_shape_left h ▸ (PlainArray.Shaped.fits hx).dims
  | scalar m =>
    cases y with
    | array b => exact dims_of_shape_right h ▸ (PlainArray.Shaped.fits hy).dims
    | scalar n => cases h

/-- The result of elementwise arithmetic is built on the common shape. -/
theorem exists_of_combine {op : ArithOp} (h : x.combine op y = .ok a) :
    ∃ dims words, x.shape y = .ok dims ∧ a = .ofShape (x.kind.join y.kind) dims words := by
  unfold combine at h
  cases hshape : x.shape y with
  | error e =>
    rw [hshape] at h
    cases h
  | ok dims =>
    simp only [hshape, bind, Except.bind] at h
    split at h
    · cases h
    · cases h
      exact ⟨dims, _, rfl, rfl⟩

/-- **The result of arithmetic on shaped operands is shaped.** -/
theorem shaped_combine {op : ArithOp} (hx : x.Shaped) (hy : y.Shaped) (h : x.combine op y = .ok a) : a.Shaped := by
  obtain ⟨dims, words, hshape, ha⟩ := exists_of_combine h
  refine ⟨?_, (sound_combine hx.sound hy.sound h).1.size_eq⟩
  rw [ha]
  exact Extents.fits_ofShape (fits_of_shape hx hy hshape)

end Operand

namespace Heap

/-! ### Looking at arrays -/

/-- Looking an array up gives an array of the heap. -/
theorem triple_shaped_plainArray (v : Value) : Triple Shaped (plainArray v)
    (fun p k => k.Shaped ∧ k.get? p.1 = some (.ofPlain p.2)) fun _ => Shaped :=
  triple_plainArray_of_settles (fun _ _ hk hl => hk.of_settles hl) v

/-- Looking an array up keeps arrays shaped. -/
theorem keeps_shaped_plainArray (v : Value) : Keeps Shaped (plainArray v) :=
  (triple_shaped_plainArray v).mono (fun _ hk => hk) (fun _ _ hk => hk.1) fun _ _ hk => hk

/-- An operand is shaped, and copying it out disturbs nothing else. -/
theorem triple_shaped_operand {I : Heap → Prop} (hI : ∀ k l, I k → k.Settles l → I l) (hshaped : ∀ k, I k → k.Shaped)
    (v : Value) : Triple I (operand v) (fun p k => I k ∧ p.Shaped) fun _ => I := by
  unfold operand
  split
  · exact .bind (triple_plainArray_of_settles hI v) fun _ => .pure fun k hk => ⟨hk.1, (hshaped k hk.1).plainArray hk.2⟩
  · cases v.number? with
    | none => exact .throw fun _ hk => hk
    | some n => exact .pure fun _ hk => ⟨hk, trivial⟩

/-! ### Making values -/

/-- Making a shaped array keeps arrays shaped. -/
theorem keeps_shaped_newPlain {a : PlainArray} (ha : a.Shaped) : Keeps Shaped (new (.ofPlain a)) := by
  refine fun k hk => hk.allocate ?_
  rintro _ ⟨⟩
  exact ha.object k

/-- Arithmetic keeps arrays shaped. -/
theorem keeps_shaped_arrayArith (op : ArithOp) (x y : Value) : Keeps Shaped (arrayArith op x y) := by
  have hoperand := triple_shaped_operand (I := Shaped) (fun _ _ hk hl => hk.of_settles hl) fun _ hk => hk
  refine Triple.bind (hoperand x) fun p => .assuming (fun _ hk => hk.2) fun hp => ?_
  refine .bind ((hoperand y).mono (fun _ hk => hk.1) (fun _ _ hk => hk) fun _ _ hk => hk) fun q =>
    .assuming (fun _ hk => hk.2) fun hq => ?_
  rw [combine_eq]
  refine .bind ((triple_lift _).mono (fun _ hk => hk.1) (fun _ _ hk => hk) fun _ _ hk => hk) fun a =>
    .assuming (fun _ hk => hk.1) fun ha => ?_
  exact (keeps_shaped_newPlain (Operand.shaped_combine hp hq ha)).mono (fun _ hk => hk.2) (fun _ _ hk => hk)
    fun _ _ hk => hk

/-- A window inside of an array makes a view on it. -/
theorem shaped_view {k : Heap} {id : ObjectId} {a : PlainArray} (ha : k.get? id = some (.ofPlain a))
    (hshaped : a.Shaped) {window : List (Int64 × Int64)}
    (hends : Shape.EndsInRange (window.map (·.1)) (window.map (·.2)))
    (hinside : Shape.Inside a.dims (window.map (·.1)) (window.map (·.2))) :
    (ArrayObject.view a.kind id window hends).Shaped k := by
  have hdims : (ArrayObject.view a.kind id window hends).dims = window.map (·.2) := Extents.dims_ofShape _
  refine ⟨Extents.fits_ofShape (hinside.fits hshaped.fits.dims), nofun, ?_⟩
  rintro _ _ ⟨⟩
  have hrank : (ArrayObject.view a.kind id window hends).axes.length = a.axes.length := by
    rw [← Extents.length_dims, hdims, hinside.length_eq, Extents.length_dims]
  exact ⟨hdims.symm ▸ hinside.spans, hrank ▸ plainAt_of_get? ha⟩

/-- **A view is made on an array with words of its own**, with a window inside of it. -/
theorem keeps_shaped_slice (v : Value) (window : List (Int64 × Int64)) : Keeps Shaped (slice v window) := by
  refine Triple.bind (triple_running (triple_shaped_plainArray v)) fun ⟨id, a⟩ => ?_
  dsimp only
  split
  · exact .throw fun _ hk => hk.1
  · split
    · exact .throw fun _ hk => hk.1
    · rename_i hwindow
      refine .bind (.modify (Q := fun k => k.Shaped ∧ k.get? id = some (.ofPlain a)) fun k hk => ?_) fun _ =>
        triple_running (E := Shaped) fun k hk => ?_
      · exact ⟨hk.1.retain id, (get?_retain k id id).trans hk.2⟩
      · refine hk.1.allocate ?_
        rintro _ ⟨⟩
        exact shaped_view hk.2 (hk.1.plainArray hk.2) _ (Shape.checkWindow_eq_ok_iff.1 hwindow)

/-! ### Changing contents -/

variable {h : Heap} {id : ObjectId}

/-- Storing an element keeps the number of words. -/
theorem Shaped.setElement (hh : h.Shaped) (id : ObjectId) (access : ElementKind) (i : Nat) (w : Words) :
    (h.modifyObject id fun o => o.setElement access i w).Shaped := by
  refine hh.modifyObject (fun o a ho ha => ?_) fun b _ =>
    ⟨⟨b.toExtents, b.kind, setElementAt access b.words i w⟩, rfl, rfl, rfl⟩
  cases o with
  | array c =>
    obtain ⟨extents, kind, data, ends⟩ := c
    have hshaped := hh id _ ho
    cases data with
    | plain words =>
      cases ha
      refine PlainArray.Shaped.object (a := ⟨extents, kind, _⟩) ⟨hshaped.fits, ?_⟩ h
      exact (size_setElementAt access words i w).trans (hshaped.plain words rfl)
    | view base starts =>
      cases ha
      exact hshaped
  | _ => cases ha

/-- Storing an element keeps arrays shaped. -/
theorem keeps_shaped_setElementBy (v : Value) (place : Extents → Except ErrorCode Nat) (w : Words) :
    Keeps Shaped (setElementBy v place w) :=
  .bind (keeps_shaped_plainArray v) fun _ => .bind (.pure _) fun ⟨id, kind, _⟩ =>
    .bind (looks_lift _).keeps fun i => .modify fun _ hk => hk.setElement id kind i w

/-- A new length is the only dimension, and there are as many elements. -/
theorem keeps_shaped_resize (v : Value) (length : Int64) : Keeps Shaped (resize v length) := by
  unfold resize
  split
  · exact .throw _
  · rename_i hvalid
    have hlength : 0 ≤ length.toInt := by
      simp only [Bool.or_eq_true, decide_eq_true_iff, not_or, Int64.lt_iff_toInt_lt, Int64.toInt_zero, Int.not_lt]
        at hvalid
      exact hvalid.2
    have hword := Shape.word_of_nonneg hlength
    have hlt := length.toInt_lt
    refine Triple.bind (triple_shaped_plainArray v) fun ⟨id, a⟩ => ?_
    dsimp only
    split
    · exact .throw fun _ hk => hk.1
    · rename_i hrank
      have hrank : a.axes.length = 1 := not_not.1 hrank
      refine .bind (Q := fun _ k => k.Shaped ∧ k.get? id = some (.ofPlain a)) (.pure fun _ hk => hk) fun _ =>
        .modify fun k hk => ?_
      have hrow : a.withLength length = .ofShape [length] :=
        (hk.1.plainArray hk.2).fits.layout.withLength hrank length
      have hfits : Shape.Fits [length] := by
        refine ⟨hlength, ?_, trivial⟩
        simp only [Shape.volume]
        omega
      rw [hrow]
      refine hk.1.replace (b := .ofShape a.kind [length] _) ?_ (PlainArray.shaped_ofShape hfits ?_)
      · have hplain := plainAt_of_get? hk.2
        rw [hrank] at hplain
        exact hplain
      · simp only [Shape.volume, Nat.mul_one, Array.size_append, Array.take_eq_extract, Array.size_extract,
          Array.size_replicate]
        omega

/-- The array that is assigned to keeps its shape. -/
theorem keeps_shaped_assignAll (dst src : Value) : Keeps Shaped (assignAll dst src) := by
  refine .bind (keeps_shaped_plainArray dst) fun ⟨id, a⟩ => .bind (keeps_operand keeps_shaped_plainArray src)
    fun source => ?_
  have hloop : Keeps Shaped ((List.range a.count).forM (assignOne id a.kind src source)) :=
    .forM (fun i => .bind (looks_sourceNumber src source i).keeps fun _ => .bind (looks_lift _).keeps fun m =>
      .modify fun _ hk => hk.setElement id a.kind i m.words) _
  cases source with
  | scalar n => exact hloop
  | array b =>
    dsimp only
    split
    · exact .throw _
    · exact hloop

/-- **All operations keep arrays shaped.** -/
theorem Shaped.ofOperations : OfOperations Shaped where
  toOfArrays := ofArrays
  plainArray := keeps_shaped_plainArray
  arrayArith := keeps_shaped_arrayArith
  assignAll := keeps_shaped_assignAll
  slice := keeps_shaped_slice
  resize := keeps_shaped_resize
  setElementBy := keeps_shaped_setElementBy

end Heap

/-! ### Runs -/

/-- The arrays of a state are shaped. -/
def State.Shaped (s : State) : Prop := s.heap.Shaped

namespace SlotOperation

/-- Arrays are built with one element for every place of a shape that fits. -/
def Regular : SlotOperation → Prop
  | array _ kind dims words => dims.Fits ∧ words.size = dims.volume * kind.words
  | _ => True

instance : DecidablePred Regular
  | array _ kind dims words => inferInstanceAs (Decidable (dims.Fits ∧ words.size = dims.volume * kind.words))
  | scalar .. | clear .. | string .. | collect .. | clone .. | slice .. | resize .. | values .. | element ..
  | setElement .. | arith .. | arrayArith .. | equal .. | text .. | listGet .. | builtin .. =>
    inferInstanceAs (Decidable True)

/-- **An operation keeps arrays in shape**, whichever way it ends. -/
theorem keeps_shaped_perform {op : SlotOperation} (hop : op.Regular) : Keeps State.Shaped op.perform := by
  refine keeps_perform Heap.Shaped.ofOperations ?_
  rintro dst kind dims words rfl
  exact Heap.keeps_shaped_newPlain (PlainArray.shaped_ofShape hop.1 hop.2)

/-- **Arrays are shaped after every run** of operations that build on shapes that fit. -/
theorem Runs.shaped {s t : State} {ops : List SlotOperation} (hrun : Runs s ops t) (hops : ∀ op ∈ ops, op.Regular)
    (hs : s.Shaped) : t.Shaped :=
  hrun.keeps (fun op hop => keeps_shaped_perform (hops op hop)) hs

end SlotOperation

/-! ### Well-formed arrays -/

/-- An array is laid out in row-major order: its dimensions are not negative, it keeps their product as its size and the
row-major strides. It has as many words as its elements take, or it is a window of spans on an array that has, with
elements of the same kind and as many dimensions. -/
structure ArrayObject.WellFormed (h : Heap) (a : ArrayObject) : Prop where
  layout : a.toExtents.LaidOut
  plain : ∀ words, a.data = .plain words → words.size = a.dims.volume * a.kind.words
  view : ∀ base starts, a.data = .view base starts → List.Forall₂ Shape.IsSpan starts a.dims ∧
    ∃ b, h.get? base = some (.ofPlain b) ∧ b.kind = a.kind ∧ b.axes.length = a.axes.length

/-- A shaped array is well-formed, whatever the heap. -/
theorem PlainArray.Shaped.wellFormed {a : PlainArray} (ha : a.Shaped) (h : Heap) :
    ArrayObject.WellFormed h ⟨a.toExtents, a.kind, .plain a.words, trivial⟩ := by
  refine ⟨ha.fits.laidOut, ?_, by rintro _ _ ⟨⟩⟩
  rintro _ ⟨⟩
  exact ha.size_eq

/-- A window inside of an array makes a well-formed view on it. -/
theorem ArrayObject.wellFormed_view {h : Heap} {base : ObjectId} {b : PlainArray} {window : List (Int64 × Int64)}
    (hb : h.get? base = some (.ofPlain b)) (hshaped : b.Shaped)
    (hends : Shape.EndsInRange (window.map (·.1)) (window.map (·.2)))
    (hinside : Shape.Inside b.dims (window.map (·.1)) (window.map (·.2))) :
    (ArrayObject.view b.kind base window hends).WellFormed h := by
  have hview := Heap.shaped_view hb hshaped hends hinside
  refine ⟨hview.fits.laidOut, hview.plain, ?_⟩
  rintro _ _ ⟨⟩
  obtain ⟨hspans, hplain⟩ := hview.view _ _ rfl
  obtain ⟨c, hc, hkind, hrank⟩ := hplain.plain _ hb
  exact ⟨hspans, c, hc ▸ hb, hkind, hrank⟩

namespace Heap

/-- Every array that is there is well-formed. -/
def WellFormed (h : Heap) : Prop := ∀ id a, h.get? id = some (.array a) → a.WellFormed h

variable {h : Heap} {roots : List ObjectId}

/-- The arrays of a well-formed heap are shaped. -/
theorem WellFormed.shaped (hh : h.WellFormed) : h.Shaped := by
  intro id a ha
  obtain ⟨hlayout, hplain, hview⟩ := hh id a ha
  refine ⟨Extents.fits_iff_laidOut.2 hlayout, hplain, fun base starts hdata => ?_⟩
  obtain ⟨hspans, b, hb, hkind, hrank⟩ := hview base starts hdata
  exact ⟨hspans, hkind ▸ hrank ▸ plainAt_of_get? hb⟩

/-- Where every reference is counted, the bases of views are there. -/
theorem Shaped.wellFormed (hh : h.Shaped) (hcounted : h.Counted roots) : h.WellFormed := by
  intro id a ha
  obtain ⟨hfits, hplain, hview⟩ := hh id a ha
  refine ⟨hfits.laidOut, hplain, fun base starts hdata => ?_⟩
  obtain ⟨hspans, hbase⟩ := hview base starts hdata
  have hmem : base ∈ h.inner := mem_inner ha (by simp [Object.references, hdata])
  obtain ⟨o, ho⟩ := Option.isSome_iff_exists.1 (hcounted.isSome_of_mem_inner hmem)
  obtain ⟨b, rfl, hkind, hrank⟩ := hbase.plain o ho
  exact ⟨hspans, b, ho, hkind, hrank⟩

end Heap

end RegisterVM
