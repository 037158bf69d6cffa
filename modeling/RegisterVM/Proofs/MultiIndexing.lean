import RegisterVM.Heap.Element
import RegisterVM.Proofs.Materialization
import RegisterVM.Proofs.PackedElements
import RegisterVM.Proofs.RowMajor

/-!
# Elements by multi-index

Indices in reach of a well-formed array name one element, the one at the row-major position of the tuple they stand
for, and all others are refused. Since a position belongs to one tuple only, a store is seen through the indices that
stand for the same tuple and through no others, whether elements are named by one index for each dimension or by a
single one (`Heap.StoredAt`).
-/

namespace RegisterVM

namespace Heap

variable {h k : Heap} {id : ObjectId} {a : PlainArray} {n : Nat}

/-! ### Single elements -/

/-- Reading an element of an array with its own words. -/
theorem elementBy_of_plain (place : Extents → Except ErrorCode Nat) (ha : h.get? id = some (.ofPlain a))
    (hn : place a.toExtents = .ok n) :
    elementBy (.object .array id) place h = .ok (.ofElement a.kind (a.element n)) h := by
  unfold elementBy
  rw [bind_of_ok (plainArray_of_plain ha)]
  dsimp only
  rw [hn]
  rfl

/-- Reading an element of whatever denotes an array. -/
theorem exists_elementBy (place : Extents → Except ErrorCode Nat) (ha : h.Denotes id a)
    (hn : place a.toExtents = .ok n) :
    ∃ k, elementBy (.object .array id) place h = .ok (.ofElement a.kind (a.element n)) k := by
  obtain ⟨k, hk, -, -⟩ := exists_plainArray ha
  refine ⟨k, ?_⟩
  unfold elementBy
  rw [bind_of_ok hk]
  dsimp only
  rw [hn]
  rfl

/-- A store copies the array out and replaces one of its elements. -/
theorem exists_setElementBy (place : Extents → Except ErrorCode Nat) (ha : h.Denotes id a)
    (hn : place a.toExtents = .ok n)
    (w : Words) :
    ∃ k l, h.Settles k ∧ k.get? id = some (.ofPlain a) ∧ l.get? id = some (.ofPlain (a.store n w)) ∧
      (∀ j, j ≠ id → l.get? j = k.get? j) ∧ setElementBy (.object .array id) place w h = .ok () l := by
  obtain ⟨k, hk, hsettles, hget⟩ := exists_plainArray ha
  have hmodify := get?_modifyObject k id
  refine ⟨k, k.modifyObject id fun o => o.setElement a.kind n w, hsettles, hget, ?_, fun j hj => ?_, ?_⟩
  · rw [hmodify, if_pos rfl, hget]
    rfl
  · rw [hmodify, if_neg (Ne.symm hj)]
  · unfold setElementBy
    rw [bind_of_ok hk]
    change (lift (place a.toExtents) >>= fun i => modify (·.modifyObject id fun o => o.setElement a.kind i w)) k = _
    rw [hn]
    rfl

/-! ### Stores -/

/-- **The words have been stored at the tuple `js` of an array and nowhere else.** -/
structure StoredAt (h : Heap) (id : ObjectId) (kind : ElementKind) (e : Extents) (js : List Nat) (w : Words)
    (k : Heap) :
    Prop where
  /-- indices that stand for the tuple read the words that were stored, as many as an element has -/
  own : ∀ is, e.dims.Reaches is → e.dims.normalized is = js →
    ∃ v, arrayGetMulti (.object .array id) is k = .ok v k ∧ elementWords kind v.words = elementWords kind w
  /-- so does the single index of its position -/
  ownFlat : ∀ i, e.flatIndex i = .ok (e.dims.position js) →
    ∃ v, arrayGet (.object .array id) i k = .ok v k ∧ elementWords kind v.words = elementWords kind w
  /-- all other indices read what they read before -/
  others : ∀ is, e.dims.Reaches is → e.dims.normalized is ≠ js →
    ∃ v l, arrayGetMulti (.object .array id) is h = .ok v l ∧ arrayGetMulti (.object .array id) is k = .ok v k
  othersFlat : ∀ i n, e.flatIndex i = .ok n → n ≠ e.dims.position js →
    ∃ v l, arrayGet (.object .array id) i h = .ok v l ∧ arrayGet (.object .array id) i k = .ok v k
  /-- other arrays have the elements they had, or those of the view they were -/
  elsewhere : ∀ j b, j ≠ id → k.get? j = some (.ofPlain b) → h.Denotes j b

/-- **Storing by indices in reach** stores at the tuple they stand for. -/
theorem storedAt_of_denotes (ha : h.Denotes id a) (hshaped : a.Shaped) {is : List Int64} (his : a.dims.Reaches is)
    (w : Words) : ∃ k, arraySetMulti (.object .array id) is w h = .ok () k ∧
      h.StoredAt id a.kind a.toExtents (a.dims.normalized is) w k := by
  have hplace {is : List Int64} (his : a.dims.Reaches is) := hshaped.fits.flatMultiIndex_of_reaches his
  have htuple {is : List Int64} (his : a.dims.Reaches is) := Shape.normalized_mem_tuples hshaped.fits.dims his
  obtain ⟨k, l, hsettles, -, hget, hothers, hset⟩ := exists_setElementBy (·.flatMultiIndex is) ha (hplace his) w
  have hstored : elementWords a.kind (Value.ofElement a.kind (a.kind.keep w)).words = elementWords a.kind w := by
    rw [words_ofElement, elementWords_keep, elementWords_keep]
  have hself := PlainArray.element_store_self (hshaped.sound.inside (Shape.position_lt (htuple his))) w
  refine ⟨l, hset, ⟨fun js hjs heq => ?_, fun i hi => ?_, fun js hjs hne => ?_, fun i n hi hne => ?_,
    fun j b hj hb => ?_⟩⟩
  · have hread := elementBy_of_plain (·.flatMultiIndex js) hget (hplace hjs)
    rw [heq, hself] at hread
    exact ⟨_, hread, hstored⟩
  · have hread := elementBy_of_plain (·.flatIndex i) hget hi
    rw [hself] at hread
    exact ⟨_, hread, hstored⟩
  · -- another tuple is at another position
    have hposition : a.dims.position (a.dims.normalized js) ≠ a.dims.position (a.dims.normalized is) := fun heq =>
      hne ((Shape.bijOn_position a.dims).injOn (htuple hjs) (htuple his) heq)
    have hread := elementBy_of_plain (·.flatMultiIndex js) hget (hplace hjs)
    rw [PlainArray.element_store_of_ne hposition] at hread
    obtain ⟨l', hbefore⟩ := exists_elementBy (·.flatMultiIndex js) ha (hplace hjs)
    exact ⟨_, l', hbefore, hread⟩
  · have hread := elementBy_of_plain (·.flatIndex i) hget hi
    rw [PlainArray.element_store_of_ne hne] at hread
    obtain ⟨l', hbefore⟩ := exists_elementBy (·.flatIndex i) ha hi
    exact ⟨_, l', hbefore, hread⟩
  · rw [hothers j hj] at hb
    exact hsettles.denotes_of_readsAt (.plain hb)

/-- What an array denotes has its kind and extents. -/
theorem Denotes.kind_extents_eq {o : ArrayObject} (ha : h.Denotes id a) (ho : h.get? id = some (.array o)) :
    a.kind = o.kind ∧ a.toExtents = o.toExtents := by
  obtain ⟨n, hn⟩ := ha
  cases hn with
  | plain hid =>
    rw [ho] at hid
    cases hid
    exact ⟨rfl, rfl⟩
  | view hid =>
    have heq := ho.symm.trans hid.get?_eq
    cases heq
    exact ⟨rfl, rfl⟩

/-- **Row-major multi-indexing is a bijection, so a store hits one element.** Indices of a well-formed array are
accepted exactly if there is one for each dimension, none past either end. They then give the row-major position of
the tuple they stand for, which is less than the size; tuples and positions correspond one to one. What is stored at a
tuple is read back there, and nothing else changes. -/
theorem multiIndex_rowMajor (hh : h.WellFormed) {o : ArrayObject} (ho : h.get? id = some (.array o)) :
    (∀ is, (∃ n, o.flatMultiIndex is = .ok n) ↔
      List.Forall₂ (fun i d => -d.toInt ≤ i.toInt ∧ i.toInt < d.toInt) is o.dims) ∧
    (∀ is n, o.flatMultiIndex is = .ok n →
      (n : Int) < o.size.toInt ∧ n = o.dims.position (o.dims.normalized is)) ∧
    Set.BijOn o.dims.position {js | List.Forall₂ (fun (j : Nat) d => (j : Int) < d.toInt) js o.dims}
      {n | (n : Int) < o.size.toInt} ∧
    ∀ a, h.Denotes id a → ∀ is w, o.dims.Reaches is → ∃ k, arraySetMulti (.object .array id) is w h = .ok () k ∧
      h.StoredAt id o.kind o.toExtents (o.dims.normalized is) w k := by
  have hfits : o.toExtents.Fits := Extents.fits_iff_laidOut.2 (hh id o ho).layout
  have hsize : o.size.toInt = o.dims.volume := hfits.toInt_size
  refine ⟨fun is => ?_, fun is n hn => ?_, ?_, fun a ha is w his => ?_⟩
  · refine ⟨?_, fun his => ⟨_, hfits.flatMultiIndex_of_reaches his⟩⟩
    rintro ⟨n, hn⟩
    by_contra his
    rw [hfits.flatMultiIndex_of_not_reaches his] at hn
    cases hn
  · by_cases his : o.dims.Reaches is
    · rw [hfits.flatMultiIndex_of_reaches his] at hn
      cases hn
      have hlt := Shape.position_lt (Shape.normalized_mem_tuples hfits.dims his)
      exact ⟨by omega, rfl⟩
    · rw [hfits.flatMultiIndex_of_not_reaches his] at hn
      cases hn
  · have htuples : {js | List.Forall₂ (fun (j : Nat) d => (j : Int) < d.toInt) js o.dims} = {js | js ∈ o.dims.tuples} :=
      Set.ext fun js => hfits.dims.mem_tuples.symm
    have hpositions : {n : Nat | (n : Int) < o.size.toInt} = Set.Iio o.dims.volume := by
      refine Set.ext fun n => ?_
      change (n : Int) < o.size.toInt ↔ n < o.dims.volume
      omega
    rw [htuples, hpositions]
    exact Shape.bijOn_position o.dims
  · obtain ⟨hkind, hextents⟩ := ha.kind_extents_eq ho
    rw [← hextents] at his
    rw [← hkind, ← hextents]
    exact storedAt_of_denotes ha (hh.shaped.denotes ha) his w

/-- Two elements of the last row of a complex array, seen through a view. -/
theorem multiIndex_rowMajor_window :
    let base : PlainArray := .ofShape .complex [2, 3] #[1, 2, 3, 4, 5, 6, 7, 8, 9, 10, 11, 12]
    let view : ArrayObject := .view .complex 0 [(1, 1), (1, 2)] (by decide)
    let h : Heap := ⟨#[some ⟨2, .ofPlain base⟩, some ⟨1, .array view⟩]⟩
    h.WellFormed ∧ h.get? 1 = some (.array view) ∧ h.Denotes 1 (.ofShape .complex [1, 2] #[9, 10, 11, 12]) ∧
      Shape.Reaches [1, 2] [-1, -1] ∧ Shape.normalized [1, 2] [-1, -1] = [0, 1] ∧
      ∃ k, arraySetMulti (.object .array 1) [-1, -1] ⟨20, 21⟩ h = .ok () k ∧
        h.StoredAt 1 .complex (.ofShape [1, 2]) [0, 1] ⟨20, 21⟩ k := by
  intro base view h
  have hbase : base.Shaped := by decide +kernel
  have hinside : Shape.Inside [2, 3] [1, 1] [1, 2] :=
    .cons (by decide) (by decide) (by decide) (.cons (by decide) (by decide) (by decide) .nil)
  have hwf : h.WellFormed := by
    intro id a ha
    rcases id with _ | _ | id
    · cases ha
      exact hbase.wellFormed h
    · cases ha
      exact ArrayObject.wellFormed_view (b := base) rfl hbase _ hinside
    · cases ha
  have hview : h.get? 1 = some (.array view) := rfl
  have hviewAt : h.ViewAt 1 view 0 [1, 1] := ⟨rfl, rfl⟩
  have hreads : h.ReadsAt 0 0 base := .plain rfl
  have hdenotes : h.Denotes 1 (.ofShape .complex [1, 2] #[9, 10, 11, 12]) :=
    ⟨1, .view hviewAt hreads rfl (by decide)⟩
  have hreaches : Shape.Reaches [1, 2] [-1, -1] := .cons ⟨by decide, by decide⟩ (.cons ⟨by decide, by decide⟩ .nil)
  obtain ⟨-, -, -, hstore⟩ := multiIndex_rowMajor hwf hview
  exact ⟨hwf, hview, hdenotes, hreaches, by decide, hstore _ hdenotes _ ⟨20, 21⟩ hreaches⟩

end Heap

end RegisterVM
