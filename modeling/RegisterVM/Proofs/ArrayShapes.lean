import RegisterVM.Proofs.CountedOperations
import RegisterVM.Proofs.ShapeLayout

/-!
# Arrays and the bases of views

Every array has a shape that fits. One that holds its own words has as many as its shape has places, and a view is a
window of spans on an array that holds its own words, has elements of the same kind and as many dimensions
(`Heap.Shaped`). An array with its own words keeps them for good, whatever happens to their number, so bases of views
stay fit for it (`Heap.PlainAt`).

A base may shrink or grow while there are views on it. The window is checked again when a view is copied out, and since
it is made of spans the check shows that it is inside of what the base is by then.
-/

namespace RegisterVM

/-- An array with its own words, one element for every place of a shape that fits. -/
structure PlainArray.Shaped (a : PlainArray) : Prop where
  fits : a.toExtents.Fits
  size_eq : a.words.size = a.dims.volume * a.kind.words

instance (a : PlainArray) : Decidable a.Shaped :=
  decidable_of_iff (a.toExtents.Fits ∧ a.words.size = a.dims.volume * a.kind.words)
    ⟨fun h => ⟨h.1, h.2⟩, fun h => ⟨h.fits, h.size_eq⟩⟩

/-- A shaped array is sound. -/
theorem PlainArray.Shaped.sound {a : PlainArray} (ha : a.Shaped) : a.Sound :=
  ⟨ha.fits.layout, ha.fits.word_size, ha.size_eq⟩

/-- An array made with the words of a shape that fits is shaped. -/
theorem PlainArray.shaped_ofShape {kind : ElementKind} {dims : Shape} {words : Array UInt64} (hdims : dims.Fits)
    (hwords : words.size = dims.volume * kind.words) : (PlainArray.ofShape kind dims words).Shaped :=
  ⟨Extents.fits_ofShape hdims, (Extents.dims_ofShape dims).symm ▸ hwords⟩

namespace Heap

/-- What is at `id`, as long as something is, is an array with its own words. -/
structure PlainAt (h : Heap) (id : ObjectId) (kind : ElementKind) (rank : Nat) : Prop where
  lt_size : id < h.cells.size
  plain : ∀ o, h.get? id = some o → ∃ b, o = .ofPlain b ∧ b.kind = kind ∧ b.axes.length = rank

end Heap

/-- The shape of an array fits, and its data goes with it. -/
structure ArrayObject.Shaped (h : Heap) (a : ArrayObject) : Prop where
  fits : a.toExtents.Fits
  plain : ∀ words, a.data = .plain words → words.size = a.dims.volume * a.kind.words
  view : ∀ base starts, a.data = .view base starts →
    List.Forall₂ Shape.IsSpan starts a.dims ∧ h.PlainAt base a.kind a.axes.length

/-- A shaped array is so as an object, whatever the heap. -/
theorem PlainArray.Shaped.object {a : PlainArray} (ha : a.Shaped) (h : Heap) :
    ArrayObject.Shaped h ⟨a.toExtents, a.kind, .plain a.words, trivial⟩ where
  fits := ha.fits
  plain := by
    rintro _ ⟨⟩
    exact ha.size_eq
  view := nofun

namespace Heap

/-- Every array of a heap is shaped. -/
def Shaped (h : Heap) : Prop := ∀ id a, h.get? id = some (.array a) → a.Shaped h

variable {h k : Heap} {id : ObjectId} {kind : ElementKind} {rank : Nat}

/-- An array with its own words in a shaped heap is shaped. -/
theorem Shaped.plainArray (hh : h.Shaped) {a : PlainArray} (ha : h.get? id = some (.ofPlain a)) : a.Shaped :=
  have hshaped := hh id _ ha
  ⟨hshaped.fits, hshaped.plain _ rfl⟩

/-- An array that holds its own words can be the base of views. -/
theorem plainAt_of_get? {a : PlainArray} (ha : h.get? id = some (.ofPlain a)) :
    h.PlainAt id a.kind a.axes.length := by
  refine ⟨lt_size_of_get? ha, fun o ho => ⟨a, ?_, rfl, rfl⟩⟩
  rw [ha] at ho
  exact (Option.some.inj ho).symm

/-! ### Changes to single cells -/

namespace Shaped

/-- A change after which bases are still bases, and every array is an old one or shaped. -/
theorem change (hh : h.Shaped) (hplain : ∀ id kind rank, h.PlainAt id kind rank → k.PlainAt id kind rank)
    (harrays : ∀ id a, k.get? id = some (.array a) → h.get? id = some (.array a) ∨ a.Shaped h) : k.Shaped := by
  intro id a ha
  have hold : a.Shaped h := (harrays id a ha).elim (hh id a) fun hnew => hnew
  exact { hold with view := fun base starts hdata => (hold.view base starts hdata).imp_right (hplain base _ _) }

/-- Objects may go. -/
theorem of_get? (hh : h.Shaped) (hsize : k.cells.size = h.cells.size)
    (hget : ∀ id o, k.get? id = some o → h.get? id = some o) : k.Shaped :=
  hh.change (fun id _ _ hid => ⟨hsize ▸ hid.lt_size, fun o ho => hid.plain o (hget id o ho)⟩)
    fun id _ ha => .inl (hget id _ ha)

/-- One reference more keeps arrays shaped. -/
theorem retain (hh : h.Shaped) (id : ObjectId) : (h.retain id).Shaped :=
  hh.of_get? (Array.size_modify ..) fun j _ ho => get?_retain h id j ▸ ho

/-- Dropping references keeps arrays shaped. -/
theorem dropAll (hh : h.Shaped) (work : List ObjectId) : (h.dropAll work).Shaped :=
  hh.of_get? (size_dropAll h work) fun _ _ ho => get?_of_get?_dropAll ho

/-- A new object, shaped if it is an array. -/
theorem allocate (hh : h.Shaped) {o : Object} (ho : ∀ a, o = .array a → a.Shaped h) : (h.allocate o).2.Shaped := by
  have hget := get?_allocate h o
  refine hh.change (fun id kind rank hid => ⟨?_, fun p hp => ?_⟩) fun id a ha => ?_
  · exact hid.lt_size.trans_le ((Array.size_push ..).ge.trans' (Nat.le_succ _))
  · rw [hget, if_neg hid.lt_size.ne] at hp
    exact hid.plain p hp
  · rw [hget] at ha
    split at ha
    · exact .inr (ho a (Option.some.inj ha))
    · exact .inl ha

/-- An object changed in place: shaped if it is an array, and still with words of its own if it had them. -/
theorem modifyObject (hh : h.Shaped) {f : Object → Object}
    (harray : ∀ o a, h.get? id = some o → f o = .array a → a.Shaped h)
    (hplain : ∀ b, h.get? id = some (.ofPlain b) →
      ∃ c, f (.ofPlain b) = .ofPlain c ∧ c.kind = b.kind ∧ c.axes.length = b.axes.length) :
    (h.modifyObject id f).Shaped := by
  have hget := get?_modifyObject h id
  refine hh.change (fun j kind rank hj => ⟨?_, fun p hp => ?_⟩) fun j a ha => ?_
  · exact (Array.size_modify ..).symm ▸ hj.lt_size
  · rw [hget] at hp
    split at hp
    · rename_i hid
      subst hid
      obtain ⟨o, ho, rfl⟩ := Option.map_eq_some_iff.1 hp
      obtain ⟨b, rfl, rfl, rfl⟩ := hj.plain o ho
      exact hplain b ho
    · exact hj.plain p hp
  · rw [hget] at ha
    split at ha
    · rename_i hid
      subst hid
      obtain ⟨o, ho, hoa⟩ := Option.map_eq_some_iff.1 ha
      exact .inr (harray o a ho hoa)
    · exact .inl ha

/-- Being shaped is an invariant of arrays. -/
theorem ofArrays : OfArrays Shaped where
  retain _ id hk := hk.retain id
  dropAll _ work hk := hk.dropAll work
  allocate _ _ ho hk := hk.allocate fun a ha => absurd ha (ho a)
  modifyObject _ id _ hf hk :=
    hk.modifyObject (fun o a ho ha => hk id a ((hf o a).1 ha ▸ ho)) fun b _ => ⟨b, (hf _ _).2 rfl, rfl, rfl⟩

/-- An array with its own words gets others. -/
theorem replace (hh : h.Shaped) {b : PlainArray} (hid : h.PlainAt id b.kind b.axes.length) (hb : b.Shaped) :
    (h.modifyObject id fun _ => .ofPlain b).Shaped := by
  refine hh.modifyObject ?_ fun c hc => ⟨b, rfl, ?_⟩
  · rintro _ _ _ ⟨⟩
    exact hb.object h
  · obtain ⟨b', hb', hkind, hrank⟩ := hid.plain _ hc
    obtain rfl := Object.ofPlain_injective hb'
    exact ⟨hkind.symm, hrank.symm⟩

end Shaped

/-! ### Copying views out -/

/-- An array with its own words stays one while the heap settles. -/
theorem Settles.plainAt (hk : h.Settles k) (hid : h.PlainAt id kind rank) : k.PlainAt id kind rank := by
  refine ⟨hk.size_eq ▸ hid.lt_size, fun o ho => ?_⟩
  rcases hk.object id o ho with hold | ⟨_, _, _, _, hview, -, -⟩
  · exact hid.plain o hold
  · obtain ⟨b, hb, -⟩ := hid.plain _ hview.get?_eq
    exact absurd (hb ▸ hview.get?_eq) hview.not_plain

/-- A view is a window of spans on an array that holds its own words. -/
theorem Shaped.viewAt (hh : h.Shaped) {v : ArrayObject} {base : ObjectId} {starts : List Int64}
    (hv : h.ViewAt id v base starts) :
    List.Forall₂ Shape.IsSpan starts v.dims ∧ h.PlainAt base v.kind v.axes.length :=
  (hh id v hv.get?_eq).view base starts hv.data_eq

/-- What an array denotes is shaped. -/
theorem Shaped.denotes (hh : h.Shaped) {a : PlainArray} (ha : h.Denotes id a) : a.Shaped := by
  obtain ⟨n, hn⟩ := ha
  cases hn with
  | plain hid => exact hh.plainArray hid
  | @view n _ base v starts b hid hbase hlength hfits =>
    have hshaped := hh id v hid.get?_eq
    have hstarts : starts.length = v.axes.length := (hh.viewAt hid).1.length_eq.trans v.length_dims
    exact ⟨hshaped.fits, b.size_window hshaped.fits.toInt_size hstarts hlength⟩

/-- Settling keeps arrays shaped. -/
theorem Shaped.of_settles (hh : h.Shaped) (hk : h.Settles k) : k.Shaped := by
  refine hh.change (fun _ _ _ hid => hk.plainAt hid) fun id a ha => ?_
  rcases hk.object id _ ha with hold | ⟨_, _, _, b, -, hdenotes, hb⟩
  · exact .inl hold
  · cases hb
    exact .inr ((hh.denotes hdenotes).object h)

/-- Looking at the heap first. -/
theorem get_bind {α : Type} (f : Heap → HeapM α) (h : Heap) : (get >>= f) h = f h h := rfl

end Heap

end RegisterVM
