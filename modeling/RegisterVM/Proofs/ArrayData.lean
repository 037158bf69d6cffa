import RegisterVM.Proofs.ArrayInvariants

/-!
# Arrays and their data

An array that holds its own words has one element for every place of its shape, and a view has the kind
of elements of its base (`Heap.Sound`). Objects come and go, but cells are not reused, and as long as an
object is there it remains an array with elements of one kind, or no array at all (`Heap.Continues`). All
operations on the heap keep to both (`Heap.SoundAfter`), whether or not they succeed, and arithmetic makes
elements of the wider kind of its operands (`Heap.computes_genericArith`).

Since an index that passes the check is a place of the shape, the words of its element are in the data
(`PlainArray.Sound.inside`).
-/

namespace RegisterVM

/-! ### Places of a shape -/

/-- An index that is accepted is less than the length. -/
theorem checkIndex_lt {i len : Int64} {n : Nat} (h : checkIndex i len = .ok n) : n < Shape.word len := by
  unfold checkIndex normalizeIndex at h
  dsimp only at h
  generalize (if i < 0 then i + len else i) = j at h
  by_cases hj : j.toUInt64 < len.toUInt64
  · rw [if_pos hj] at h
    cases h
    exact UInt64.lt_iff_toNat_lt.1 hj
  · rw [if_neg hj] at h
    cases h

/-- Lists of one length, put one behind another. -/
theorem length_flatMap_of_forall {α β : Type} {f : α → List β} {n : Nat} (hf : ∀ a, (f a).length = n) (xs : List α) :
    (xs.flatMap f).length = xs.length * n := by
  induction xs with
  | nil => exact (Nat.zero_mul n).symm
  | cons x xs ih => rw [List.flatMap_cons, List.length_append, hf x, ih, List.length_cons, Nat.succ_mul, Nat.add_comm]

namespace Shape

/-- The number of places of a shape: the product of the dimensions, which does not wrap. -/
def volume : Shape → Nat
  | [] => 1
  | d :: ds => word d * volume ds

/-- The size of a shape, taken as a word, is at most the number of its places: it may have wrapped, or be zero. -/
theorem word_size_le_volume (dims : Shape) : word dims.size ≤ dims.volume := by
  induction dims with
  | nil => exact le_rfl
  | cons d ds ih =>
    calc word (d * size ds) ≤ word d * word (size ds) := by
          unfold word
          rw [Int64.toUInt64_mul, UInt64.toNat_mul]
          exact Nat.mod_le _ _
      _ ≤ word d * volume ds := Nat.mul_le_mul_left _ ih

/-- The row-major place of one index for each dimension, as a number that does not wrap. -/
def place : Shape → List Int64 → Except ErrorCode Nat
  | [], [] => .ok 0
  | d :: ds, i :: is => do
    let k ← checkIndex i d
    let rest ← place ds is
    return k * word (size ds) + rest
  | _, _ => .error .index

/-- A place that is found is one of the shape. -/
theorem lt_volume_of_place {dims : Shape} {n : Nat} {is : List Int64} (h : dims.place is = .ok n) :
    n < dims.volume := by
  induction dims generalizing is n with
  | nil =>
    cases is with
    | nil =>
      cases h
      exact Nat.one_pos
    | cons => cases h
  | cons d ds ih =>
    cases is with
    | nil => cases h
    | cons i is =>
      unfold place at h
      cases hk : checkIndex i d with
      | error e =>
        rw [hk] at h
        cases h
      | ok k =>
        rw [hk] at h
        cases hm : place ds is with
        | error e =>
          simp only [hm, bind, Except.bind] at h
          cases h
        | ok m =>
          simp only [hm, bind, Except.bind, pure, Except.pure, Except.ok.injEq] at h
          have hkd := checkIndex_lt hk
          have hmds := ih hm
          calc n = k * word (size ds) + m := h.symm
            _ < k * volume ds + volume ds :=
              Nat.add_lt_add_of_le_of_lt (Nat.mul_le_mul_left _ (word_size_le_volume ds)) hmds
            _ = (k + 1) * volume ds := (Nat.succ_mul _ _).symm
            _ ≤ word d * volume ds := Nat.mul_le_mul_right _ hkd

/-- There is a stride for each dimension. -/
theorem length_strides (dims : Shape) : dims.strides.length = dims.length := by
  induction dims with
  | nil => rfl
  | cons d ds ih => exact congrArg Nat.succ ih

/-- The strides kept on the axes are those of the shape. -/
theorem strides_axes (dims : Shape) : dims.axes.map Axis.stride = dims.strides := by
  induction dims with
  | nil => rfl
  | cons d ds ih => rw [axes, List.map_cons, ih, strides]

/-- With row-major strides, a place in words is the place up to wrapping. -/
theorem place_axes (dims : Shape) (is : List Int64) :
    Extents.place dims.axes is = (dims.place is).map UInt64.ofNat := by
  induction dims generalizing is with
  | nil => cases is <;> rfl
  | cons d ds ih =>
    cases is with
    | nil => rfl
    | cons i is =>
      unfold axes Extents.place place
      rw [ih]
      cases checkIndex i d with
      | error e => rfl
      | ok k =>
        cases place ds is with
        | error e => rfl
        | ok m =>
          have hstride : (size ds).toUInt64 = UInt64.ofNat (word (size ds)) := (UInt64.ofNat_toNat).symm
          change Except.ok (UInt64.ofNat k * (size ds).toUInt64 + UInt64.ofNat m) =
            Except.ok (UInt64.ofNat (k * word (size ds) + m))
          rw [hstride, UInt64.ofNat_add, UInt64.ofNat_mul]

/-- A window selects one offset for each of its places. -/
theorem length_windowOffsets {starts counts strides : List Int64} (hstarts : starts.length = counts.length)
    (hstrides : strides.length = counts.length) :
    (windowOffsets starts counts strides).length = volume counts := by
  induction counts generalizing starts strides with
  | nil =>
    rw [List.length_eq_zero_iff.1 hstarts]
    rfl
  | cons count counts ih =>
    obtain ⟨start, starts, rfl⟩ := List.exists_cons_of_length_eq_add_one hstarts
    obtain ⟨stride, strides, rfl⟩ := List.exists_cons_of_length_eq_add_one hstrides
    have hinner := ih (Nat.succ.inj hstarts) (Nat.succ.inj hstrides)
    unfold windowOffsets
    dsimp only
    rw [length_flatMap_of_forall fun i => (List.length_map _).trans hinner, List.length_range]
    rfl

end Shape

namespace Extents

/-- What an array keeps goes with its dimensions: the count is their product, the strides are row-major. -/
def RowMajor (e : Extents) : Prop := e = .ofShape e.dims

instance (e : Extents) : Decidable e.RowMajor := inferInstanceAs (Decidable (e = .ofShape e.dims))

variable {e : Extents} {n : Nat}

/-- Extents made for a shape are row-major. -/
theorem rowMajor_ofShape (dims : Shape) : (ofShape dims).RowMajor := by
  rw [RowMajor, dims_ofShape]

/-- There is a length for each axis. -/
@[simp]
theorem length_dims (e : Extents) : e.dims.length = e.axes.length := List.length_map _

/-- There is a stride for each axis. -/
@[simp]
theorem length_strides (e : Extents) : e.strides.length = e.axes.length := List.length_map _

/-- The size that is kept is the size of the shape. -/
theorem RowMajor.size_eq (h : e.RowMajor) : e.size = e.dims.size := congrArg Extents.size h

/-- The axes that are kept are those of the shape. -/
theorem RowMajor.axes_eq (h : e.RowMajor) : e.axes = e.dims.axes := congrArg Extents.axes h

/-- The strides that are kept are those of the shape. -/
theorem RowMajor.strides_eq (h : e.RowMajor) : e.strides = e.dims.strides := by
  rw [← Shape.strides_axes, ← h.axes_eq, strides]

/-- Dimensions determine the extents that go with them. -/
theorem RowMajor.ext {f : Extents} (he : e.RowMajor) (hf : f.RowMajor) (hdims : e.dims = f.dims) : e = f := by
  rw [he, hf, hdims]

/-- A row whose length has changed is laid out like any other. -/
theorem RowMajor.withLength (h : e.RowMajor) (hrank : e.axes.length = 1) (length : Int64) :
    e.withLength length = .ofShape [length] := by
  obtain ⟨d, hd⟩ : ∃ d, e.dims = [d] := List.length_eq_one_iff.1 (e.length_dims.trans hrank)
  have haxes : e.axes = [⟨d, 1⟩] := by rw [h.axes_eq, hd]; rfl
  have hsize : Shape.size [length] = length := Int64.mul_one length
  rw [Extents.withLength, haxes, ofShape, hsize]
  rfl

/-- An index over all elements that is accepted is less than the size. -/
theorem lt_of_flatIndex {i : Int64} (h : e.flatIndex i = .ok n) : n < Shape.word e.size := checkIndex_lt h

/-- **A place computed from several indices is a place of the shape.** -/
theorem RowMajor.lt_volume_of_flatMultiIndex (he : e.RowMajor) {is : List Int64} (h : e.flatMultiIndex is = .ok n) :
    n < e.dims.volume := by
  unfold flatMultiIndex at h
  split at h
  · rw [he.axes_eq, Shape.place_axes] at h
    cases hm : e.dims.place is with
    | error =>
      rw [hm] at h
      cases h
    | ok m =>
      rw [hm] at h
      obtain rfl : (UInt64.ofNat m).toNat = n := Except.ok.inj h
      rw [UInt64.toNat_ofNat']
      exact (Nat.mod_le _ _).trans_lt (Shape.lt_volume_of_place hm)
  · cases h

end Extents

/-! ### Words of elements -/

/-- An element takes as many words as its kind says. -/
theorem length_elementWords (kind : ElementKind) (w : Words) : (elementWords kind w).length = kind.words := by
  cases kind <;> rfl

/-- Storing an element does not change the number of words. -/
theorem size_setElementAt (kind : ElementKind) (words : Array UInt64) (i : Nat) (w : Words) :
    (setElementAt kind words i w).size = words.size := by
  cases kind <;> simp [setElementAt]

/-- Numbers are packed with as many words each as the kind says. -/
theorem size_packNumbers (kind : ElementKind) (ns : List Number) :
    (packNumbers kind ns).size = ns.length * kind.words := by
  unfold packNumbers
  rw [List.size_toArray,
    length_flatMap_of_forall (f := fun n : Number => elementWords kind n.words) fun n => length_elementWords kind _]

/-- A computation for each member of a list gives as many results. -/
theorem length_of_mapM_eq_ok {α β ε : Type} {f : α → Except ε β} {xs : List α} {ys : List β}
    (h : xs.mapM f = .ok ys) : ys.length = xs.length := by
  induction xs generalizing ys with
  | nil =>
    cases h
    rfl
  | cons x xs ih =>
    rw [List.mapM_cons] at h
    cases hx : f x with
    | error e =>
      rw [hx] at h
      cases h
    | ok y =>
      cases hxs : xs.mapM f with
      | error e =>
        simp only [hx, hxs, bind, Except.bind] at h
        cases h
      | ok zs =>
        simp only [hx, hxs, bind, Except.bind, pure, Except.pure, Except.ok.injEq] at h
        rw [← h, List.length_cons, ih hxs, List.length_cons]

/-- One element for every place of the shape. -/
structure PlainArray.Sound (a : PlainArray) : Prop where
  layout : a.RowMajor
  count_eq : a.count = a.dims.volume
  size_eq : a.words.size = a.dims.volume * a.kind.words

/-- The place a word that is not negative stands for. -/
theorem Shape.word_of_toInt {i : Int64} {n : Nat} (h : i.toInt = n) : word i = n := by
  have hcond := BitVec.toInt_eq_toNat_cond i.toBitVec
  change i.toInt = if 2 * word i < _ then (word i : Int) else (word i : Int) - _ at hcond
  have hlt : word i < 18446744073709551616 := i.toUInt64.toNat_lt
  split at hcond <;> omega

/-- A word that is not negative is the place it stands for. -/
theorem Shape.toInt_of_word {i : Int64} {n : Nat} (hi : 0 ≤ i.toInt) (h : word i = n) : i.toInt = n := by
  have hword : word i = i.toInt.toNat := word_of_toInt (Int.toNat_of_nonneg hi).symm
  omega

/-- An array made with the words of its shape is sound. -/
theorem PlainArray.sound_ofShape {kind : ElementKind} {dims : Shape} {words : Array UInt64}
    (hcount : Shape.word dims.size = dims.volume) (hwords : words.size = dims.volume * kind.words) :
    (PlainArray.ofShape kind dims words).Sound := by
  have hdims : (PlainArray.ofShape kind dims words).dims = dims := Extents.dims_ofShape dims
  exact ⟨Extents.rowMajor_ofShape dims, hdims.symm ▸ hcount, hdims.symm ▸ hwords⟩

/-- **The words of an element are in the data.** -/
theorem PlainArray.Sound.inside {a : PlainArray} (h : a.Sound) {n : Nat} (hn : n < a.dims.volume) :
    (n + 1) * a.kind.words ≤ a.words.size :=
  h.size_eq ▸ Nat.mul_le_mul_right _ hn

/-- A view of a proper size selects one offset for each of its places. -/
theorem Extents.length_selected {view base : Extents} {starts : List Int64} (hview : view.size.toInt = view.dims.volume)
    (hstarts : starts.length = view.axes.length) (hbase : base.axes.length = view.axes.length) :
    (view.selected base starts).length = view.dims.volume := by
  have hoffsets : (Shape.windowOffsets starts view.dims base.strides).length = view.dims.volume :=
    Shape.length_windowOffsets (hstarts.trans view.length_dims.symm)
      ((base.length_strides.trans hbase).trans view.length_dims.symm)
  unfold selected
  split
  · exact hoffsets
  · rename_i hempty
    have hsize : ¬ 0 < view.size := fun h => hempty (by simp [h])
    rw [Int64.lt_iff_toInt_lt, hview] at hsize
    change ¬ (0 : Int) < _ at hsize
    rw [List.length_nil]
    omega

/-- The words of a window are as many as its places, times the words of an element. -/
theorem PlainArray.size_window (a : PlainArray) {view : ArrayObject} {starts : List Int64}
    (hview : view.size.toInt = view.dims.volume) (hstarts : starts.length = view.axes.length)
    (hbase : a.axes.length = view.axes.length) :
    (a.window view starts).size = view.dims.volume * view.kind.words := by
  unfold window
  rw [List.size_toArray, length_flatMap_of_forall fun offset => length_elementWords view.kind _,
    Extents.length_selected hview hstarts hbase]

/-! ### Heaps that go on -/

/-- The kind of elements of an array. -/
def Object.element? : Object → Option ElementKind
  | array a => some a.kind
  | _ => none

/-- An object with elements is an array. -/
theorem Object.exists_array {o : Object} {kind : ElementKind} (h : o.element? = some kind) :
    ∃ a, o = .array a ∧ a.kind = kind := by
  cases o with
  | array a => exact ⟨a, rfl, Option.some.inj h⟩
  | _ => cases h

namespace Heap

/-- **How a heap goes on**: cells are not reused, and an object that was there is still an array with elements
of the same kind, still no array, or gone. -/
structure Continues (h k : Heap) : Prop where
  size_le : h.cells.size ≤ k.cells.size
  element_eq : ∀ id o, id < h.cells.size → k.get? id = some o → (h.get? id).map Object.element? = some o.element?

/-- An object is in one of the cells. -/
theorem lt_size_of_get? {h : Heap} {id : ObjectId} {o : Object} (ho : h.get? id = some o) : id < h.cells.size := by
  by_contra hge
  unfold get? cell? at ho
  rw [Array.getElem?_eq_none (Nat.le_of_not_lt hge)] at ho
  cases ho

/-- A heap continues itself. -/
theorem Continues.refl (h : Heap) : Continues h h := ⟨le_rfl, fun _ _ _ ho => ho ▸ rfl⟩

/-- A heap that continues one that continues another continues that. -/
theorem Continues.trans {h k l : Heap} (hk : Continues h k) (hl : Continues k l) : Continues h l := by
  refine ⟨hk.size_le.trans hl.size_le, fun id o hid ho => ?_⟩
  obtain ⟨p, hp, hpo⟩ := Option.map_eq_some_iff.1 (hl.element_eq id o (hid.trans_le hk.size_le) ho)
  rw [hk.element_eq id p hid hp, hpo]

/-- An array at `id` has elements of kind `kind`, as long as there is one. -/
structure KindAt (h : Heap) (id : ObjectId) (kind : ElementKind) : Prop where
  lt_size : id < h.cells.size
  kind_eq : ∀ a, h.get? id = some (.array a) → a.kind = kind

/-- An array has its kind for good. -/
theorem KindAt.mono {h k : Heap} {id : ObjectId} {kind : ElementKind} (hid : h.KindAt id kind)
    (hk : h.Continues k) : k.KindAt id kind := by
  refine ⟨hid.lt_size.trans_le hk.size_le, fun a ha => ?_⟩
  obtain ⟨o, ho, helement⟩ := Option.map_eq_some_iff.1 (hk.element_eq id _ hid.lt_size ha)
  obtain ⟨b, rfl, hb⟩ := Object.exists_array helement
  exact hb.symm.trans (hid.kind_eq b ho)

/-- An array in the heap has its kind. -/
theorem KindAt.of_get? {h : Heap} {id : ObjectId} {a : ArrayObject} (ha : h.get? id = some (.array a)) :
    h.KindAt id a.kind := by
  refine ⟨lt_size_of_get? ha, fun b hb => ?_⟩
  rw [ha] at hb
  cases hb
  rfl

end Heap

/-- The data of an array of a heap goes with its shape and, in a view, with the kind of the base. The size of a view
is not negative: its elements are copied out only if it is positive. -/
structure ArrayObject.Sound (h : Heap) (a : ArrayObject) : Prop where
  layout : a.RowMajor
  count_eq : Shape.word a.size = a.dims.volume
  plain : ∀ words, a.data = .plain words → words.size = a.dims.volume * a.kind.words
  view : ∀ base starts, a.data = .view base starts →
    (starts.length = a.axes.length ∧ 0 ≤ a.size.toInt) ∧ h.KindAt base a.kind

/-- The data of an array goes with its shape in every heap that continues the one it is in. -/
theorem ArrayObject.Sound.mono {h k : Heap} {a : ArrayObject} (ha : a.Sound h) (hk : h.Continues k) : a.Sound k :=
  { ha with view := fun base starts hdata => (ha.view base starts hdata).imp_right (·.mono hk) }

/-- An array with words of its own is sound whatever the heap holds. -/
theorem PlainArray.Sound.object {a : PlainArray} (ha : a.Sound) (h : Heap) :
    ArrayObject.Sound h ⟨a.toExtents, a.kind, .plain a.words, trivial⟩ where
  layout := ha.layout
  count_eq := ha.count_eq
  plain := by
    rintro _ ⟨⟩
    exact ha.size_eq
  view := nofun

namespace Heap

/-- Every array of a heap has the data of its shape. -/
def Sound (h : Heap) : Prop := ∀ id a, h.get? id = some (.array a) → a.Sound h

/-- A heap that goes on from `h` and is sound. -/
structure SoundAfter (h k : Heap) : Prop where
  continues : h.Continues k
  sound : k.Sound

/-- A sound heap is sound after itself. -/
theorem SoundAfter.refl {h : Heap} (hh : h.Sound) : SoundAfter h h := ⟨.refl h, hh⟩

/-- Sound after a heap that is sound after another, sound after that. -/
theorem SoundAfter.trans {h k l : Heap} (hk : SoundAfter h k) (hl : SoundAfter k l) : SoundAfter h l :=
  ⟨hk.continues.trans hl.continues, hl.sound⟩

/-! ### Changes to single cells -/

variable {h k : Heap} {id : ObjectId}

/-- A change after which every array is an old one, or sound. -/
theorem SoundAfter.change {l : Heap} (hk : SoundAfter h k) (hl : k.Continues l)
    (harrays : ∀ id a, l.get? id = some (.array a) → k.get? id = some (.array a) ∨ a.Sound k) : SoundAfter h l := by
  refine ⟨hk.continues.trans hl, fun id a ha => ?_⟩
  rcases harrays id a ha with hold | hsound
  · exact (hk.sound id a hold).mono hl
  · exact hsound.mono hl

/-- Taking a reference changes no object. -/
theorem SoundAfter.retain (hk : SoundAfter h k) (id : ObjectId) : SoundAfter h (k.retain id) := by
  have hget := get?_retain k id
  refine hk.change ⟨?_, fun j o _ ho => ?_⟩ fun j a ha => .inl (hget j ▸ ha)
  · exact (Array.size_modify ..).ge
  · rw [← hget j, ho]
    rfl

/-- Cells are not taken away when objects are dropped. -/
theorem size_dropAll (h : Heap) (work : List ObjectId) : (h.dropAll work).cells.size = h.cells.size := by
  induction h, work using Heap.dropAll_induction with
  | nil h => rw [Heap.dropAll]
  | missing h j rest hc ih =>
    rw [Heap.dropAll_cons, hc]
    exact ih
  | last h j rest c hc hrefs ih =>
    rw [Heap.dropAll_cons, hc]
    dsimp only
    rw [if_pos hrefs, ih, Array.size_setIfInBounds]
  | shared h j rest c hc hrefs ih =>
    rw [Heap.dropAll_cons, hc]
    dsimp only
    rw [if_neg hrefs, ih, Array.size_setIfInBounds]

/-- Dropping references keeps the heap sound, whatever is freed. -/
theorem SoundAfter.dropAll (hk : SoundAfter h k) (work : List ObjectId) : SoundAfter h (k.dropAll work) := by
  refine hk.change ⟨(size_dropAll k work).ge, fun j o _ ho => ?_⟩ fun j a ha => .inl (get?_of_get?_dropAll ha)
  rw [get?_of_get?_dropAll ho]
  rfl

/-- A new object is behind all others, which stay as they are. -/
theorem get?_allocate (h : Heap) (o : Object) (j : ObjectId) :
    (h.allocate o).2.get? j = if j = h.cells.size then some o else h.get? j := by
  unfold get? cell? allocate
  rw [Array.getElem?_push]
  split <;> rfl

/-- A new object, sound if it is an array. -/
theorem SoundAfter.allocate (hk : SoundAfter h k) {o : Object} (ho : ∀ a, o = .array a → a.Sound k) :
    SoundAfter h (k.allocate o).2 := by
  have hget := get?_allocate k o
  refine hk.change ⟨?_, fun j p hj hp => ?_⟩ fun j a ha => ?_
  · exact (Array.size_push ..).ge.trans' (Nat.le_succ _)
  · rw [hget, if_neg hj.ne] at hp
    rw [hp]
    rfl
  · rw [hget] at ha
    split at ha
    · exact .inr (ho a (Option.some.inj ha))
    · exact .inl ha

/-- An object changed in place: it remains what it was, and it is sound if it is an array. -/
theorem SoundAfter.modifyObject (hk : SoundAfter h k) {f : Object → Object}
    (hf : ∀ o, k.get? id = some o → (f o).element? = o.element? ∧ ∀ a, f o = .array a → a.Sound k) :
    SoundAfter h (k.modifyObject id f) := by
  have hget := get?_modifyObject k id
  refine hk.change ⟨(Array.size_modify ..).ge, fun j p _ hp => ?_⟩ fun j a ha => ?_
  · rw [hget] at hp
    split at hp
    · rename_i hj
      subst hj
      obtain ⟨o, ho, rfl⟩ := Option.map_eq_some_iff.1 hp
      rw [ho, Option.map_some, (hf o ho).1]
    · rw [hp]
      rfl
  · rw [hget] at ha
    split at ha
    · rename_i hj
      subst hj
      obtain ⟨o, ho, hoa⟩ := Option.map_eq_some_iff.1 ha
      exact .inr ((hf o ho).2 a hoa)
    · exact .inl ha

/-- An array gets other data of its kind. -/
theorem SoundAfter.replace (hk : SoundAfter h k) {a : ArrayObject} (ha : h.get? id = some (.array a)) {b : PlainArray}
    (hb : b.Sound) (hkind : b.kind = a.kind) : SoundAfter h (k.modifyObject id fun _ => .ofPlain b) := by
  refine hk.modifyObject fun o ho => ⟨?_, ?_⟩
  · have helement := hk.continues.element_eq id o (lt_size_of_get? ha) ho
    rw [ha, Option.map_some, Option.some.injEq] at helement
    rw [← helement]
    exact congrArg some hkind
  · rintro _ ⟨⟩
    exact hb.object k

/-- **What the operations on arrays do keeps a heap sound.** It is enough to look at the few of them that change
objects. -/
theorem soundAfter_ofArrays : OfArrays (SoundAfter h) where
  retain _ id hk := hk.retain id
  dropAll _ work hk := hk.dropAll work
  allocate _ _ ho hk := hk.allocate fun a ha => absurd ha (ho a)
  modifyObject k id f hf hk := by
    refine hk.modifyObject fun o ho => ⟨?_, fun a ha => ?_⟩
    · cases o with
      | array a => rw [(hf _ a).2 rfl]
      | _ =>
        cases hfo : f _ with
        | array a => cases (hf _ a).1 hfo
        | _ => rfl
    · exact hk.sound id a ((hf o a).1 ha ▸ ho)

/-! ### Copying views out -/

/-- An operation that goes on soundly from wherever it starts. -/
theorem keeps_of_sound {α : Type} {m : HeapM α}
    (hm : ∀ k, k.Sound → Triple (· = k) m (fun _ => SoundAfter k) fun _ => SoundAfter k) : Keeps (SoundAfter h) m := by
  intro k hk
  refine Triple.mono (P := (· = k)) (hm k hk.sound) (fun _ hs => hs) (fun _ l hl => ?_) (fun _ l hl => ?_) k rfl
  · exact hk.trans hl
  · exact hk.trans hl

end Heap

/-- An object with words of its own is the array made of them. -/
theorem Object.eq_ofPlain {o : Object} {a : PlainArray} (h : o.plain? = some a) : o = .ofPlain a := by
  cases o with
  | array b =>
    obtain ⟨extents, kind, data, ends⟩ := b
    cases data with
    | plain words =>
      cases h
      rfl
    | view => cases h
  | _ => cases h

/-- An array with words of its own, in a sound heap, has as many as its shape asks for. -/
theorem Heap.Sound.plainArray {h : Heap} (hh : h.Sound) {id : ObjectId} {a : PlainArray}
    (ha : h.get? id = some (.ofPlain a)) : a.Sound :=
  have hsound := hh id _ ha
  ⟨hsound.layout, hsound.count_eq, hsound.plain _ rfl⟩

namespace Heap

variable {h : Heap}

/-- Copying a view out keeps a heap sound. -/
theorem keeps_soundAfter_materializeAt (depth : Nat) (id : ObjectId) :
    Keeps (SoundAfter h) (materializeAt depth id) := by
  induction depth generalizing id h with
  | zero => exact .throw _
  | succ depth ih =>
    refine keeps_of_sound fun k hk => .bind .get fun k' => .assuming (fun _ hs => hs.1.trans hs.2) ?_
    rintro rfl
    have hrefl (s : Heap) (hs : k' = s ∧ s = k') : SoundAfter k' s := hs.1 ▸ .refl hk
    split
    · rename_i a ha
      split
      · exact .pure hrefl
      · rename_i base starts hdata
        obtain ⟨⟨hstarts, hsize⟩, hbase⟩ := (hk id a ha).view base starts hdata
        refine .bind ((ih (h := k') base).mono hrefl (fun _ _ hl => hl) fun _ _ hl => hl) fun _ => ?_
        refine .bind .get fun l => ?_
        split
        · exact .throw fun _ hs => hs.2
        · rename_i b hb
          obtain ⟨o, ho, hplain⟩ := Option.bind_eq_some_iff.1 hb
          obtain rfl := Object.eq_ofPlain hplain
          dsimp only
          split
          · exact .throw (e := ErrorCode.index) fun _ hs => hs.2
          · rename_i hdims
            split
            · exact .throw (e := ErrorCode.index) fun _ hs => hs.2
            · rw [PlainArray.fetchWindow_eq, pure_bind]
              refine .bind (.modify (Q := SoundAfter k') ?_) fun _ => .modify fun _ hs => hs.dropAll _
              rintro s ⟨rfl, hs⟩
              have hsound := hk id a ha
              refine hs.replace ha (b := b.extract a starts) ⟨hsound.layout, hsound.count_eq, ?_⟩ rfl
              exact b.size_window (Shape.toInt_of_word hsize hsound.count_eq) hstarts (not_not.1 hdims)
    · exact .throw hrefl

end Heap

/-! ### Values as operands -/

/-- The kind of elements a scalar takes part in arithmetic as. -/
def ScalarTag.element : ScalarTag → ElementKind
  | bool | int | enum => .int
  | float => .float
  | complex => .complex

/-- **As an operand a value has elements of kind `kind`**, if it is one at all. -/
def Heap.Carries (h : Heap) (kind : ElementKind) : Value → Prop
  | .scalar tag _ => tag.element = kind
  | .object .array id => h.KindAt id kind
  | _ => True

namespace Heap

variable {h k : Heap} {kind : ElementKind} {v : Value}

/-- A value that carries elements of a kind does so in every heap that continues this one. -/
theorem Carries.mono (hv : h.Carries kind v) (hk : h.Continues k) : k.Carries kind v := by
  cases v with
  | none => trivial
  | scalar => exact hv
  | object o id =>
    cases o with
    | array => exact KindAt.mono hv hk
    | _ => trivial

/-- A number that carries elements of a kind is of that kind. -/
theorem Carries.kind_of_number? (hv : h.Carries kind v) {n : Number} (hn : v.number? = some n) : n.kind = kind := by
  cases v with
  | scalar tag w =>
    have htag : tag.element = kind := hv
    cases tag <;> cases hn <;> exact htag
  | _ => cases hn

/-- A number carries its own kind. -/
theorem carries_ofNumber (h : Heap) (n : Number) : h.Carries n.kind (.ofNumber n) := by
  cases n <;> rfl

/-- A scalar carries the kind its tag says. -/
theorem carries_of_tag (h : Heap) {tag : ScalarTag} (hv : v.tag = tag.tag) : h.Carries tag.element v := by
  cases v with
  | none => trivial
  | scalar tag' w =>
    obtain rfl : tag' = tag := by cases tag' <;> cases tag <;> first | rfl | cases hv
    exact rfl
  | object o id =>
    cases o with
    | array => cases tag <;> cases hv
    | _ => trivial

/-! ### Operations -/

/-- Copying a value takes references only. -/
theorem keeps_soundAfter_clone (v : Value) : Keeps (SoundAfter h) (clone v) := soundAfter_ofArrays.keeps_clone v

/-- Giving a value up drops references only. -/
theorem keeps_soundAfter_discard (v : Value) : Keeps (SoundAfter h) (discard v) := soundAfter_ofArrays.keeps_discard v

/-- A result that has been computed, taken over: nothing else happens. -/
theorem triple_lift {α : Type} {I : Heap → Prop} (e : Except ErrorCode α) :
    Triple I (lift e) (fun a k => e = .ok a ∧ I k) fun _ => I := by
  cases e with
  | ok a => exact .pure fun _ hk => ⟨rfl, hk⟩
  | error e => exact .throw fun _ hk => hk

/-- A value whose object is found is a reference to an object of the kind asked for. -/
theorem triple_objectOf (kind : ObjectKind) (v : Value) {I : Heap → Prop} :
    Triple I (objectOf kind v) (fun p k => I k ∧ v = .object kind p.1) fun _ => I := by
  unfold objectOf
  split
  · refine .bind .get fun k => ?_
    split
    · split
      · rename_i hkind
        exact .pure fun _ hs => ⟨hs.2, hkind ▸ rfl⟩
      · exact .throw fun _ hs => hs.2
    · exact .throw fun _ hs => hs.2
  · exact .throw fun _ hs => hs

/-- **The array behind a value is sound**, and of the kind the value carries. -/
theorem triple_plainArray (v : Value) : Triple (SoundAfter h) (plainArray v)
    (fun p k => SoundAfter h k ∧ k.get? p.1 = some (.ofPlain p.2) ∧ p.2.Sound ∧
      ∀ kind, h.Carries kind v → p.2.kind = kind)
    fun _ => SoundAfter h := by
  refine .bind (triple_objectOf .array v) fun ⟨id, _⟩ => .assuming (fun _ hk => hk.2) ?_
  rintro rfl
  have hmaterialize : Keeps (SoundAfter h) (materialize id) :=
    .bind Looks.get.keeps fun _ => keeps_soundAfter_materializeAt _ id
  refine .bind (hmaterialize.mono (fun _ hk => hk.1) (fun _ _ hk => hk) fun _ _ hk => hk) fun _ =>
    .bind .get fun k => ?_
  split
  · rename_i a ha
    obtain ⟨o, ho, hplain⟩ := Option.bind_eq_some_iff.1 ha
    obtain rfl := Object.eq_ofPlain hplain
    refine .pure ?_
    rintro _ ⟨rfl, hk⟩
    exact ⟨hk, ho, hk.sound.plainArray ho, fun kind hkind => (KindAt.mono hkind hk.continues).kind_eq _ ho⟩
  · exact .throw fun _ hk => hk.2

/-- An array that is looked up is copied out first, and sound. -/
theorem keeps_soundAfter_plainArray (v : Value) : Keeps (SoundAfter h) (plainArray v) :=
  (triple_plainArray v).mono (fun _ hk => hk) (fun _ _ hk => hk.1) fun _ _ hk => hk

/-- Reading an element copies the array out and looks at it. -/
theorem keeps_soundAfter_elementBy (v : Value) (place : Extents → Except ErrorCode Nat) :
    Keeps (SoundAfter h) (elementBy v place) :=
  .bind (keeps_soundAfter_plainArray v) fun _ => .bind (looks_lift _).keeps fun _ => .pure _

/-- Reading words at a place copies the array out and looks at it. -/
theorem keeps_soundAfter_wordsBy (access : ElementKind) (v : Value) (place : Extents → Except ErrorCode Nat) :
    Keeps (SoundAfter h) (wordsBy access v place) :=
  .bind (keeps_soundAfter_plainArray v) fun _ => .bind (looks_lift _).keeps fun _ => .pure _

/-- Storing an element, in whatever layout, keeps the number of words. -/
theorem SoundAfter.setElement (hk : SoundAfter h k) (id : ObjectId) (access : ElementKind) (i : Nat) (w : Words) :
    SoundAfter h (k.modifyObject id fun o => o.setElement access i w) := by
  refine hk.modifyObject fun o ho => ?_
  cases o with
  | array a =>
    obtain ⟨extents, kind, data, ends⟩ := a
    have hsound := hk.sound id _ ho
    cases data with
    | plain words =>
      refine ⟨rfl, ?_⟩
      rintro _ ⟨⟩
      refine PlainArray.Sound.object (a := ⟨extents, kind, _⟩) ⟨hsound.layout, hsound.count_eq, ?_⟩ k
      exact (size_setElementAt access words i w).trans (hsound.plain words rfl)
    | view base starts =>
      refine ⟨rfl, ?_⟩
      rintro _ ⟨⟩
      exact hsound
  | _ => exact ⟨rfl, nofun⟩

/-- Storing an element replaces words by as many. -/
theorem keeps_soundAfter_setElementBy (v : Value) (place : Extents → Except ErrorCode Nat) (w : Words) :
    Keeps (SoundAfter h) (setElementBy v place w) :=
  .bind (keeps_soundAfter_plainArray v) fun _ => .bind (.pure _) fun ⟨id, kind, _⟩ =>
    .bind (looks_lift _).keeps fun i => .modify fun _ hk => hk.setElement id kind i w

/-- Storing words as an element of any kind replaces words by as many. -/
theorem keeps_soundAfter_setWordsBy (access : ElementKind) (v : Value) (place : Extents → Except ErrorCode Nat)
    (w : Words) : Keeps (SoundAfter h) (setWordsBy access v place w) :=
  .bind (keeps_soundAfter_plainArray v) fun _ => .bind (.pure _) fun ⟨id, _⟩ =>
    .bind (looks_lift _).keeps fun i => .modify fun _ hk => hk.setElement id access i w

/-- Overwriting a slot of an object does not concern arrays. -/
theorem keeps_soundAfter_overwriteSlot (kind : ObjectKind) (target : Value) (i : Nat) (f : Value → Value) :
    Keeps (SoundAfter h) (overwriteSlot kind target i f) := soundAfter_ofArrays.keeps_overwriteSlot kind target i f

/-- Storing into a list does not concern arrays. -/
theorem keeps_soundAfter_listSet (list : Value) (i : Int64) (v : Value) : Keeps (SoundAfter h) (listSet list i v) :=
  soundAfter_ofArrays.keeps_listSet list i v

/-- Joining strings makes a new string and does not concern arrays. -/
theorem keeps_soundAfter_concat (x y : Value) : Keeps (SoundAfter h) (concat x y) :=
  soundAfter_ofArrays.keeps_concat x y

/-- Replacing a byte of a string does not concern arrays. -/
theorem keeps_soundAfter_setChar (v : Value) (i ch : Int64) : Keeps (SoundAfter h) (setChar v i ch) :=
  soundAfter_ofArrays.keeps_setChar v i ch

/-! ### Arithmetic -/

end Heap

/-- The array of an operand is sound. -/
def Operand.Sound : Operand → Prop
  | array a => a.Sound
  | scalar _ => True

/-- The common shape of two sound operands has as many places as its size says. -/
theorem Operand.count_of_shape {x y : Operand} {dims : Shape} (hx : x.Sound) (hy : y.Sound)
    (h : x.shape y = .ok dims) : Shape.word dims.size = dims.volume := by
  have hcount_of {a : PlainArray} (ha : a.Sound) : Shape.word a.dims.size = a.dims.volume :=
    ha.layout.size_eq ▸ ha.count_eq
  cases x with
  | array a =>
    have hcount : Shape.word a.dims.size = a.dims.volume := hcount_of hx
    cases y with
    | array b =>
      change (if a.dims = b.dims then Except.ok a.dims else Except.error ErrorCode.shape) = _ at h
      split at h
      · cases h
        exact hcount
      · cases h
    | scalar n =>
      cases h
      exact hcount
  | scalar m =>
    cases y with
    | array b =>
      cases h
      exact hcount_of hy
    | scalar n => cases h

/-- **Elementwise arithmetic makes sound arrays of the wider kind.** -/
theorem Operand.sound_combine {op : ArithOp} {x y : Operand} {a : PlainArray} (hx : x.Sound) (hy : y.Sound)
    (h : x.combine op y = .ok a) : a.Sound ∧ a.kind = x.kind.join y.kind := by
  unfold combine at h
  cases hshape : x.shape y with
  | error e =>
    rw [hshape] at h
    cases h
  | ok dims =>
    have hcount := count_of_shape hx hy hshape
    cases hns : (List.range (Shape.word dims.size)).mapM fun i =>
        Number.applyAt op (x.kind.join y.kind) (x.number i) (y.number i) with
    | error e =>
      simp only [hshape, hns, bind, Except.bind] at h
      cases h
    | ok ns =>
      simp only [hshape, hns, bind, Except.bind, pure, Except.pure, Except.ok.injEq] at h
      subst h
      refine ⟨PlainArray.sound_ofShape hcount ?_, rfl⟩
      rw [size_packNumbers, length_of_mapM_eq_ok hns, List.length_range, hcount]

/-- A converted number has the kind asked for. -/
theorem Number.kind_of_convert {m n : Number} {kind : ElementKind} (h : m.convert kind = .ok n) : n.kind = kind := by
  cases m <;> cases kind <;> cases h <;> rfl

/-- An operation on two numbers of one kind gives a number of that kind. -/
theorem Number.kind_of_applySame {op : ArithOp} {x y n : Number} (h : applySame op x y = .ok n) : n.kind = x.kind := by
  unfold applySame at h
  split at h
  · rename_i i j
    cases hop : op.int i j with
    | error e =>
      rw [hop] at h
      cases h
    | ok k =>
      rw [hop] at h
      cases h
      rfl
  · cases h
    rfl
  · rename_i z w
    cases hop : op.complex z w with
    | error e =>
      rw [hop] at h
      cases h
    | ok u =>
      rw [hop] at h
      cases h
      rfl
  · cases h

/-- An operation at a kind gives a number of that kind. -/
theorem Number.kind_of_applyAt {op : ArithOp} {kind : ElementKind} {x y n : Number}
    (h : applyAt op kind x y = .ok n) : n.kind = kind := by
  unfold applyAt at h
  cases hx : x.convert kind with
  | error e =>
    rw [hx] at h
    cases h
  | ok a =>
    cases hy : y.convert kind with
    | error e =>
      simp only [hx, hy, bind, Except.bind] at h
      cases h
    | ok b =>
      simp only [hx, hy, bind, Except.bind] at h
      exact (kind_of_applySame h).trans (kind_of_convert hx)

namespace Heap

variable {h : Heap}

/-- An operand that is taken up is sound, and of the kind its value carries. -/
theorem triple_operand (v : Value) : Triple (SoundAfter h) (operand v)
    (fun p k => SoundAfter h k ∧ p.Sound ∧ ∀ kind, h.Carries kind v → p.kind = kind) fun _ => SoundAfter h := by
  unfold operand
  split
  · exact .bind (triple_plainArray v) fun _ => .pure fun _ hk => ⟨hk.1, hk.2.2⟩
  · cases hn : v.number? with
    | none => exact .throw fun _ hk => hk
    | some n => exact .pure fun k hk => ⟨hk, trivial, fun kind hkind => hkind.kind_of_number? hn⟩

/-- What arithmetic on two values gives: elements of the wider kind. -/
def Computes (h : Heap) (m : HeapM Value) (x y : Value) : Prop :=
  Triple (SoundAfter h) m
    (fun v k => SoundAfter h k ∧ ∀ kx ky, h.Carries kx x → h.Carries ky y → k.Carries (kx.join ky) v)
    fun _ => SoundAfter h

/-- Arithmetic on arrays gives a value of the wider kind. -/
theorem computes_arrayArith (op : ArithOp) (x y : Value) : h.Computes (arrayArith op x y) x y := by
  refine .bind (triple_operand x) fun p => .bind (Q := fun q k => SoundAfter h k ∧ (p.Sound ∧ q.Sound) ∧
    ∀ kx ky, h.Carries kx x → h.Carries ky y → p.kind.join q.kind = kx.join ky) ?_ fun q => ?_
  · refine .assuming (fun _ hk => hk.2) fun ⟨hp, hx⟩ => ?_
    refine (triple_operand y).mono (fun _ hk => hk.1) (fun q k ⟨hk, hq, hy⟩ => ⟨hk, ⟨hp, hq⟩, ?_⟩) fun _ _ hk => hk
    intro kx ky hkx hky
    rw [hx kx hkx, hy ky hky]
  · rw [combine_eq]
    refine .bind ((triple_lift (p.combine op q)).mono (fun _ hk => hk) (fun _ _ hk => hk) fun _ _ hk => hk.1) ?_
    rintro a k ⟨ha, hk, ⟨hp, hq⟩, hkind⟩
    obtain ⟨hsound, hjoin⟩ := Operand.sound_combine hp hq ha
    have hnew : SoundAfter h (k.allocate (.ofPlain a)).2 := by
      refine hk.allocate ?_
      rintro _ ⟨⟩
      exact hsound.object k
    refine ⟨hnew, fun kx ky hkx hky => ?_⟩
    rw [← hkind kx ky hkx hky, ← hjoin]
    exact KindAt.of_get? (a := ⟨a.toExtents, a.kind, .plain a.words, trivial⟩)
      ((get?_allocate k (.ofPlain a) k.cells.size).trans (if_pos rfl))

/-- Generic arithmetic gives a value of the wider kind. -/
theorem computes_genericArith (op : ArithOp) (x y : Value) : h.Computes (genericArith op x y) x y := by
  unfold genericArith
  split
  · exact computes_arrayArith op x y
  · split
    · refine .bind .get fun k => ?_
      rintro k' ⟨rfl, hk⟩
      exact ⟨hk.allocate nofun, fun _ _ _ _ => trivial⟩
    · split
      · rename_i m n hm hn
        refine .bind (triple_lift (Number.apply op m n)) fun q => .pure ?_
        rintro k ⟨hq, hk⟩
        refine ⟨hk, fun kx ky hkx hky => ?_⟩
        have hkind : q.kind = m.kind.join n.kind := Number.kind_of_applyAt hq
        rw [← hkx.kind_of_number? hm, ← hky.kind_of_number? hn, ← hkind]
        exact carries_ofNumber k q
      · exact .throw fun _ hk => hk

/-- What keeps soundness after `k` may go on from `k`, wherever `k` itself came from. -/
theorem SoundAfter.goesOn {α : Type} {k : Heap} {m : HeapM α} (hk : SoundAfter h k) (hm : Keeps (SoundAfter k) m) :
    Triple (· = k) m (fun _ => SoundAfter h) fun _ => SoundAfter h := by
  refine hm.mono ?_ (fun _ _ hl => hk.trans hl) fun _ _ hl => hk.trans hl
  rintro _ rfl
  exact .refl hk.sound

/-- Assigning one element keeps a heap sound. -/
theorem keeps_soundAfter_assignOne (id : ObjectId) (kind : ElementKind) (src : Value) (source : Operand) (i : Nat) :
    Keeps (SoundAfter h) (assignOne id kind src source i) :=
  .bind (looks_sourceNumber src source i).keeps fun _ => .bind (looks_lift _).keeps fun m =>
    .modify fun _ hk => hk.setElement id kind i m.words

/-- Taking an operand up copies out an array, if it is one. -/
theorem keeps_soundAfter_operand (v : Value) : Keeps (SoundAfter h) (operand v) :=
  (triple_operand v).mono (fun _ hk => hk) (fun _ _ hk => hk.1) fun _ _ hk => hk

/-- Assigning to all elements keeps a heap sound, also if it stops at an element that does not convert. -/
theorem keeps_soundAfter_assignAll (dst src : Value) : Keeps (SoundAfter h) (assignAll dst src) := by
  refine .bind (keeps_soundAfter_plainArray dst) fun ⟨id, a⟩ => .bind (keeps_soundAfter_operand src) fun source => ?_
  have hloop : Keeps (SoundAfter h) ((List.range a.count).forM (assignOne id a.kind src source)) :=
    .forM (fun i => keeps_soundAfter_assignOne id a.kind src source i) _
  cases source with
  | scalar n => exact hloop
  | array b =>
    dsimp only
    split
    · exact .throw _
    · exact hloop

end Heap

end RegisterVM
