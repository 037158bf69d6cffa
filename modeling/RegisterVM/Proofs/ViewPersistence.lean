import RegisterVM.Proofs.OperationInvariants

/-!
# Views stay as they were made

A view can be copied out, and then it is no view any more, or it can go. Nothing else ever happens to it: no operation
changes the window of a view or attaches it to another base, and no array with words of its own becomes a view. So
what is a view after a run was the same view before, unless it was made in between (`SlotOperation.Runs.viewsFrom`).
-/

namespace RegisterVM

namespace Heap

/-- Among the objects that `h` has cells for, the views of `k` are views of `h`. -/
structure ViewsFrom (h k : Heap) : Prop where
  size_le : h.cells.size ≤ k.cells.size
  view : ∀ id a base starts, id < h.cells.size → k.get? id = some (.array a) → a.data = .view base starts →
    h.get? id = some (.array a)

namespace ViewsFrom

variable {h k l : Heap}

/-- A heap has the views it has. -/
theorem refl (h : Heap) : h.ViewsFrom h := ⟨le_rfl, fun _ _ _ _ _ ha _ => ha⟩

/-- Views that go back to a heap in between go back to where it started. -/
theorem trans (hk : h.ViewsFrom k) (hl : k.ViewsFrom l) : h.ViewsFrom l :=
  ⟨hk.size_le.trans hl.size_le, fun id a base starts hid ha hdata =>
    hk.view id a base starts hid (hl.view id a base starts (hid.trans_le hk.size_le) ha hdata) hdata⟩

/-! ### Changes to single cells -/

/-- Objects may go. -/
theorem of_get? (hsize : k.cells.size = h.cells.size) (hget : ∀ id o, k.get? id = some o → h.get? id = some o) :
    h.ViewsFrom k :=
  ⟨hsize.ge, fun id _ _ _ _ ha _ => hget id _ ha⟩

/-- One reference more makes no view. -/
theorem retain (h : Heap) (id : ObjectId) : h.ViewsFrom (h.retain id) :=
  of_get? (Array.size_modify ..) fun j _ ho => get?_retain h id j ▸ ho

/-- Dropping references makes no view. -/
theorem dropAll (h : Heap) (work : List ObjectId) : h.ViewsFrom (h.dropAll work) :=
  of_get? (size_dropAll h work) fun _ _ ho => get?_of_get?_dropAll ho

/-- A new object, also if it is a view, has a new cell. -/
theorem allocate (h : Heap) (o : Object) : h.ViewsFrom (h.allocate o).2 := by
  refine ⟨(Array.size_push ..).ge.trans' (Nat.le_succ _), fun id a base starts hid ha _ => ?_⟩
  rwa [get?_allocate, if_neg hid.ne] at ha

/-- Changing an object makes no view if it turns nothing into one. -/
theorem modifyObject (h : Heap) (id : ObjectId) {f : Object → Object}
    (hf : ∀ o a base starts, f o = .array a → a.data = .view base starts → o = .array a) :
    h.ViewsFrom (h.modifyObject id f) := by
  refine ⟨(Array.size_modify ..).ge, fun j a base starts _ ha hdata => ?_⟩
  rw [get?_modifyObject] at ha
  split at ha
  · obtain ⟨o, ho, hoa⟩ := Option.map_eq_some_iff.1 ha
    rw [ho, hf o a base starts hoa hdata]
  · exact ha

/-- An array gets words of its own. -/
theorem replace (h : Heap) (id : ObjectId) (b : PlainArray) : h.ViewsFrom (h.modifyObject id fun _ => .ofPlain b) := by
  refine modifyObject h id fun o a base starts ha hdata => ?_
  cases ha
  cases hdata

/-- Storing an element makes no view. -/
theorem setElement (h : Heap) (id : ObjectId) (access : ElementKind) (i : Nat) (w : Words) :
    h.ViewsFrom (h.modifyObject id fun o => o.setElement access i w) := by
  refine modifyObject h id fun o a base starts ha hdata => ?_
  cases o with
  | array b =>
    obtain ⟨extents, kind, data, ends⟩ := b
    cases data with
    | plain words =>
      cases ha
      cases hdata
    | view base starts => exact ha
  | _ => cases ha

/-- Copying views out makes no view. -/
theorem of_settles (hk : h.Settles k) : h.ViewsFrom k :=
  ⟨hk.size_eq.ge, fun _ _ _ _ _ ha hdata => (hk.viewAt ⟨ha, hdata⟩).get?_eq⟩

/-- The views that were there form an invariant of arrays. -/
theorem ofArrays (h : Heap) : OfArrays h.ViewsFrom where
  retain k id hk := hk.trans (.retain k id)
  dropAll k work hk := hk.trans (.dropAll k work)
  allocate k o _ hk := hk.trans (.allocate k o)
  modifyObject k id _ hf hk := hk.trans (.modifyObject k id fun o a _ _ ha _ => (hf o a).1 ha)

end ViewsFrom

/-! ### Operations -/

section

variable (h : Heap)

/-- Looking an array up makes no view. -/
theorem keeps_viewsFrom_plainArray (v : Value) : Keeps h.ViewsFrom (plainArray v) :=
  (triple_plainArray_of_settles (fun _ _ hk hl => hk.trans (.of_settles hl)) v).mono (fun _ hk => hk)
    (fun _ _ hk => hk.1)
    fun _ _ hk => hk

/-- New objects do not matter. -/
theorem keeps_viewsFrom_new (o : Object) : Keeps h.ViewsFrom (new o) := fun k hk => hk.trans (.allocate k o)

/-- Arithmetic on arrays makes no view. -/
theorem keeps_viewsFrom_arrayArith (op : ArithOp) (x y : Value) : Keeps h.ViewsFrom (arrayArith op x y) := by
  have hoperand := keeps_operand (keeps_viewsFrom_plainArray h)
  exact .bind (hoperand x) fun p => .bind (hoperand y) fun q => .bind (looks_combine op p q).keeps fun c =>
    keeps_viewsFrom_new h (.ofPlain c)

/-- Assigning makes no view. -/
theorem keeps_viewsFrom_assignAll (dst src : Value) : Keeps h.ViewsFrom (assignAll dst src) := by
  have hplain := keeps_viewsFrom_plainArray h
  refine .bind (hplain dst) fun p => .bind (keeps_operand hplain src) fun source => ?_
  have hloop : Keeps h.ViewsFrom ((List.range p.2.count).forM (assignOne p.1 p.2.kind src source)) :=
    .forM (fun i => .bind (looks_sourceNumber src source i).keeps fun _ => .bind (looks_lift _).keeps fun m =>
      .modify fun k hk => hk.trans (.setElement k p.1 p.2.kind i m.words)) _
  cases source with
  | scalar n => exact hloop
  | array b =>
    dsimp only
    split
    · exact .throw _
    · exact hloop

/-- Changing the length of a row makes no view. -/
theorem keeps_viewsFrom_resize (v : Value) (length : Int64) : Keeps h.ViewsFrom (resize v length) := by
  unfold resize
  split
  · exact .throw _
  · refine .bind (keeps_viewsFrom_plainArray h v) fun p => ?_
    dsimp only
    split
    · exact .throw _
    · exact .bind (.pure _) fun _ => .modify fun k hk => hk.trans (.replace k p.1 _)

/-- Storing an element makes no view, wherever it is. -/
theorem keeps_viewsFrom_setElementBy (v : Value) (place : Extents → Except ErrorCode Nat) (w : Words) :
    Keeps h.ViewsFrom (setElementBy v place w) :=
  .bind (keeps_viewsFrom_plainArray h v) fun _ => .bind (.pure _) fun p => .bind (looks_lift _).keeps fun i =>
    .modify fun k hk => hk.trans (.setElement k p.1 p.2.1 i w)

/-- Taking a view makes one in a new cell only. -/
theorem keeps_viewsFrom_slice (v : Value) (window : List (Int64 × Int64)) : Keeps h.ViewsFrom (slice v window) := by
  refine .bind (triple_running (keeps_viewsFrom_plainArray h v)) fun p => ?_
  dsimp only
  split
  · exact .throw _
  · split
    · exact .throw _
    · exact .bind (.modify fun k hk => hk.trans (.retain k p.1)) fun _ => triple_running (keeps_viewsFrom_new h _)

/-- **No operation turns an object that was there into a view.** -/
theorem ViewsFrom.ofOperations : OfOperations h.ViewsFrom where
  toOfArrays := ofArrays h
  plainArray := keeps_viewsFrom_plainArray h
  arrayArith := keeps_viewsFrom_arrayArith h
  assignAll := keeps_viewsFrom_assignAll h
  slice := keeps_viewsFrom_slice h
  resize := keeps_viewsFrom_resize h
  setElementBy := keeps_viewsFrom_setElementBy h

end

end Heap

end RegisterVM
