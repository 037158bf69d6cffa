import RegisterVM.Proofs.ArrayData

/-!
# Reference counts

The references to an object come from the outside, its `roots`, and from the other objects of the heap:
items of containers and bases of views. A heap is `Counted` for its roots when the count of every object is
the number of these references and nothing without a reference is left. Counters are 32-bit words that wrap when they
are full (`Heap.refCount_retain`), so a reference may only be taken where there is `Room` for it.

What an operation does to the references is said by the roots before and behind it. A new object takes over
the references it holds and is itself a new root (`Counted.allocate`); a dropped reference is a root before and
is gone behind, whatever has been freed on the way (`Counted.dropAll`); what an object that is changed in place gives
up and gets is exchanged among the roots (`Counted.modifyObject`).
-/

namespace RegisterVM

/-- The references a value is, none or one. -/
def Value.refs (v : Value) : List ObjectId := v.ref?.toList

/-- The references of a list of values are those of its first value and of the others. -/
theorem Value.filterMap_ref?_cons (v : Value) (vs : List Value) :
    (v :: vs).filterMap Value.ref? = v.refs ++ vs.filterMap Value.ref? := by
  cases v <;> rfl

/-- Replacing one entry of a list exchanges what the entry contributes. -/
theorem count_flatMap_set {α : Type} (f : α → List ObjectId) {l : List α} {i : Nat} {x : α} (hx : l[i]? = some x)
    (y : α) (j : ObjectId) :
    ((l.set i y).flatMap f).count j + (f x).count j = (l.flatMap f).count j + (f y).count j := by
  induction l generalizing i with
  | nil => simp at hx
  | cons z l ih =>
    cases i with
    | zero =>
      obtain rfl : z = x := by simpa using hx
      simp only [List.set_cons_zero, List.flatMap_cons, List.count_append]
      omega
    | succ i =>
      have hrest := ih (i := i) (by simpa using hx)
      simp only [List.set_cons_succ, List.flatMap_cons, List.count_append]
      omega

/-- Replacing a value in a row takes its references away and adds those of the new one. -/
theorem count_refs_setIfInBounds {vs : Array Value} {i : Nat} {old : Value} (hold : vs[i]? = some old) (v : Value)
    (j : ObjectId) : ((vs.setIfInBounds i v).toList.filterMap Value.ref?).count j + old.refs.count j =
      (vs.toList.filterMap Value.ref?).count j + v.refs.count j := by
  rw [List.filterMap_eq_flatMap_toList, List.filterMap_eq_flatMap_toList, Array.toList_setIfInBounds]
  exact count_flatMap_set _ (by simpa using hold) v j

/-- Changing an entry that is there is setting it. -/
theorem modify_eq_setIfInBounds {α : Type} {cells : Array α} {i : Nat} {x : α} (hx : cells[i]? = some x) (g : α → α) :
    cells.modify i g = cells.setIfInBounds i (g x) := by
  refine Array.ext_getElem? fun j => ?_
  rw [Array.getElem?_modify, Array.getElem?_setIfInBounds]
  by_cases hj : i = j
  · subst hj
    have hlt : i < cells.size := (Array.getElem?_eq_some_iff.1 hx).1
    rw [if_pos rfl, if_pos rfl, if_pos hlt, hx, Option.map_some]
  · rw [if_neg hj, if_neg hj]

/-- The references a cell holds. -/
def Cell.outgoing : Option Cell → List ObjectId
  | some c => c.object.references
  | none => []

namespace Heap

/-- The references the objects of a heap hold. -/
def inner (h : Heap) : List ObjectId := h.cells.toList.flatMap Cell.outgoing

/-- **Every count is the number of references**, from the roots and from the objects of the heap, and every
object has at least one. -/
structure Counted (h : Heap) (roots : List ObjectId) : Prop where
  exact : ∀ id, h.refCount id = roots.count id + h.inner.count id
  positive : ∀ id c, h.cell? id = some c → 0 < c.refs.toNat

/-- Every counter has room for `n` more references. -/
def Room (h : Heap) (n : Nat) : Prop := ∀ id, h.refCount id + n < 4294967296

/-- There is room for the rest after a part has been used up. -/
theorem Room.mono {h k : Heap} {m n : Nat} (hh : h.Room n) (hle : ∀ id, k.refCount id + m ≤ h.refCount id + n) :
    k.Room m := fun id => (hle id).trans_lt (hh id)

/-- Room can be decided cell by cell. -/
theorem room_iff {h : Heap} {n : Nat} :
    h.Room n ↔ n < 4294967296 ∧ ∀ x ∈ h.cells, (x.map fun c => c.refs.toNat).getD 0 + n < 4294967296 := by
  refine ⟨fun hh => ⟨?_, fun x hx => ?_⟩, fun ⟨hn, hh⟩ id => ?_⟩
  · have hend := hh h.cells.size
    omega
  · obtain ⟨id, hid, rfl⟩ := Array.getElem_of_mem hx
    have hcount : h.refCount id = (h.cells[id].map fun c => c.refs.toNat).getD 0 := by simp [refCount, cell?, hid]
    exact hcount ▸ hh id
  · unfold refCount cell?
    cases hid : h.cells[id]? with
    | none => simpa using hn
    | some x => exact hh x (Array.mem_of_getElem? hid)

instance (h : Heap) (n : Nat) : Decidable (h.Room n) := decidable_of_iff' _ room_iff

/-- What a value refers to, if anything, is there. -/
def Live (h : Heap) (v : Value) : Prop := ∀ id, v.ref? = some id → (h.get? id).isSome

variable {h : Heap} {id : ObjectId} {roots roots' : List ObjectId}

/-- A cell that is found is stored under its number. -/
theorem getElem?_of_cell? {c : Cell} (hc : h.cell? id = some c) : h.cells[id]? = some (some c) := by
  unfold cell? at hc
  cases hcell : h.cells[id]? with
  | none =>
    rw [hcell] at hc
    cases hc
  | some cell =>
    rw [hcell] at hc
    exact congrArg some hc

/-- What is there is what its cell holds. -/
theorem exists_cell?_of_get? {o : Object} (ho : h.get? id = some o) :
    ∃ c, h.cell? id = some c ∧ c.object = o :=
  Option.map_eq_some_iff.1 ho

/-- Changing an object replaces its cell. -/
theorem modifyObject_eq {c : Cell} (hc : h.cell? id = some c) (f : Object → Object) :
    h.modifyObject id f = ⟨h.cells.setIfInBounds id (some { c with object := f c.object })⟩ :=
  congrArg Heap.mk (modify_eq_setIfInBounds (getElem?_of_cell? hc) _)

/-- One reference more replaces the cell of the object. -/
theorem retain_eq {c : Cell} (hc : h.cell? id = some c) :
    h.retain id = ⟨h.cells.setIfInBounds id (some { c with refs := c.refs + 1 })⟩ :=
  congrArg Heap.mk (modify_eq_setIfInBounds (getElem?_of_cell? hc) _)

/-- Replacing a cell changes what is there at its place, and nowhere else. -/
theorem cell?_setIfInBounds {c : Cell} (hc : h.cell? id = some c) (x : Option Cell) (j : ObjectId) :
    cell? ⟨h.cells.setIfInBounds id x⟩ j = if id = j then x else h.cell? j := by
  unfold cell?
  rw [Array.getElem?_setIfInBounds]
  by_cases hj : id = j
  · have hlt : id < h.cells.size := (Array.getElem?_eq_some_iff.1 (getElem?_of_cell? hc)).1
    simp [hj, hj ▸ hlt]
  · rw [if_neg hj, if_neg hj]

/-- Replacing a cell takes the references of its object away and adds those of the new one. -/
theorem count_inner_setIfInBounds {c : Cell} (hc : h.cell? id = some c) (x : Option Cell) (j : ObjectId) :
    (inner ⟨h.cells.setIfInBounds id x⟩).count j + c.object.references.count j =
      h.inner.count j + (Cell.outgoing x).count j := by
  unfold inner
  rw [Array.toList_setIfInBounds]
  exact count_flatMap_set Cell.outgoing (x := some c) (by simpa using getElem?_of_cell? hc) x j

/-- What an object refers to is referred to from inside of the heap. -/
theorem mem_inner {o : Object} (ho : h.get? id = some o) {j : ObjectId} (hj : j ∈ o.references) : j ∈ h.inner := by
  obtain ⟨c, hc, rfl⟩ := exists_cell?_of_get? ho
  refine List.mem_flatMap.2 ⟨some c, ?_, hj⟩
  exact List.mem_of_getElem? (by simpa using getElem?_of_cell? hc)

/-- A new object has a cell of its own, with one reference; other cells stay. -/
theorem cell?_allocate (h : Heap) (o : Object) (j : ObjectId) :
    (h.allocate o).2.cell? j = if j = h.cells.size then some ⟨1, o⟩ else h.cell? j := by
  unfold allocate cell?
  dsimp only
  rw [Array.getElem?_push]
  split
  · rfl
  · rfl

/-- **A counter that is full wraps to zero.** -/
theorem refCount_retain (hid : (h.get? id).isSome) : (h.retain id).refCount id = (h.refCount id + 1) % 4294967296 := by
  obtain ⟨o, ho⟩ := Option.isSome_iff_exists.1 hid
  obtain ⟨c, hc, -⟩ := exists_cell?_of_get? ho
  rw [retain_eq hc, refCount, cell?_setIfInBounds hc, if_pos rfl, refCount, hc]
  exact UInt32.toNat_add c.refs 1

/-- Retaining an object raises counters by at most one. -/
theorem refCount_retain_le (h : Heap) (id j : ObjectId) : (h.retain id).refCount j ≤ h.refCount j + 1 := by
  cases hc : h.cell? id with
  | none =>
    have hsame : h.retain id = h := by
      unfold retain
      congr 1
      refine Array.ext_getElem? fun i => ?_
      rw [Array.getElem?_modify]
      split
      · rename_i hi
        subst hi
        unfold cell? at hc
        rcases hcell : h.cells[id]? with _ | _ | c
        · rfl
        · rfl
        · rw [hcell] at hc
          cases hc
      · rfl
    rw [hsame]
    exact Nat.le_succ _
  | some c =>
    by_cases hj : id = j
    · subst hj
      rw [refCount_retain (by rw [get?, hc]; rfl)]
      exact Nat.mod_le _ _
    · rw [retain_eq hc, refCount, cell?_setIfInBounds hc, if_neg hj]
      exact Nat.le_succ _

/-- So does retaining a value. -/
theorem refCount_retainValue_le (h : Heap) (v : Value) (j : ObjectId) :
    (h.retainValue v).refCount j ≤ h.refCount j + 1 := by
  unfold retainValue
  split
  · exact refCount_retain_le h _ j
  · exact Nat.le_succ _

namespace Counted

/-- Only how often an object is among the roots counts. -/
theorem congr (hh : h.Counted roots) (hcount : ∀ j, roots.count j = roots'.count j) : h.Counted roots' :=
  ⟨fun j => hcount j ▸ hh.exact j, hh.positive⟩

/-- The order of the roots does not matter. -/
theorem perm (hh : h.Counted roots) (hroots : roots.Perm roots') : h.Counted roots' := hh.congr hroots.count_eq

/-- **An object is there exactly as long as there is a reference to it.** -/
theorem isSome_iff (hh : h.Counted roots) :
    (h.get? id).isSome ↔ 0 < roots.count id + h.inner.count id := by
  rw [← hh.exact id]
  unfold get? refCount
  cases hc : h.cell? id with
  | none => simp
  | some c => simpa using hh.positive id c hc

/-- What is among the roots is there. -/
theorem isSome_of_mem_roots (hh : h.Counted roots) (hid : id ∈ roots) : (h.get? id).isSome :=
  hh.isSome_iff.2 (Nat.add_pos_left (List.count_pos_iff.2 hid) _)

/-- What is referred to from inside of the heap is there. -/
theorem isSome_of_mem_inner (hh : h.Counted roots) (hid : id ∈ h.inner) : (h.get? id).isSome :=
  hh.isSome_iff.2 (Nat.add_pos_right _ (List.count_pos_iff.2 hid))

/-! ### One cell changes -/

/-- A cell gets another count and object: the references of both sides have to balance. -/
theorem setCell (hh : h.Counted roots) {c : Cell} (hc : h.cell? id = some c) {x : Option Cell}
    (hx : ∀ d, x = some d → 0 < d.refs.toNat)
    (hid : (x.map fun d => d.refs.toNat).getD 0 + c.object.references.count id + roots.count id =
      roots'.count id + c.refs.toNat + (Cell.outgoing x).count id)
    (hother : ∀ j, j ≠ id → c.object.references.count j + roots.count j =
      roots'.count j + (Cell.outgoing x).count j) :
    Counted ⟨h.cells.setIfInBounds id x⟩ roots' := by
  refine ⟨fun j => ?_, fun j d hd => ?_⟩
  · have hexact := hh.exact j
    have hinner := count_inner_setIfInBounds hc x j
    unfold refCount at hexact ⊢
    rw [cell?_setIfInBounds hc]
    by_cases hj : id = j
    · subst hj
      rw [hc] at hexact
      rw [if_pos rfl]
      simp only [Option.map_some, Option.getD_some] at hexact
      omega
    · have hbalance := hother j (Ne.symm hj)
      rw [if_neg hj]
      omega
  · rw [cell?_setIfInBounds hc] at hd
    split at hd
    · exact hx d hd
    · exact hh.positive j d hd

/-- A reference is taken to an object whose counter is not full. -/
theorem retain (hh : h.Counted roots) (hid : (h.get? id).isSome) (hroom : h.refCount id + 1 < 4294967296) :
    (h.retain id).Counted (id :: roots) := by
  obtain ⟨o, ho⟩ := Option.isSome_iff_exists.1 hid
  obtain ⟨c, hc, -⟩ := exists_cell?_of_get? ho
  have hcount : (c.refs + 1).toNat = c.refs.toNat + 1 := by
    rw [refCount, hc] at hroom
    rw [UInt32.toNat_add]
    exact Nat.mod_eq_of_lt hroom
  rw [retain_eq hc]
  refine hh.setCell hc ?_ ?_ fun j hj => ?_
  · rintro _ ⟨⟩
    exact hcount ▸ Nat.succ_pos _
  · simp only [Option.map_some, Option.getD_some, Cell.outgoing, List.count_cons_self, hcount]
    omega
  · rw [List.count_cons_of_ne (Ne.symm hj)]
    exact Nat.add_comm _ _

/-- **Retaining a value** keeps counts exact: its reference is one more root. -/
theorem retainValue (hh : h.Counted roots) {v : Value} (hv : h.Live v) (hroom : h.Room 1) :
    (h.retainValue v).Counted (v.refs ++ roots) := by
  unfold Heap.retainValue Value.refs
  cases href : v.ref? with
  | none => exact hh
  | some id => exact hh.retain (hv id href) (hroom id)

/-- **An object changed in place** gives up the references it had for those it gets. -/
theorem modifyObject (hh : h.Counted roots) {f : Object → Object} {o : Object} (ho : h.get? id = some o)
    (hbalance : ∀ j, roots.count j + o.references.count j = roots'.count j + (f o).references.count j) :
    (h.modifyObject id f).Counted roots' := by
  obtain ⟨c, hc, rfl⟩ := exists_cell?_of_get? ho
  rw [modifyObject_eq hc]
  refine hh.setCell hc ?_ ?_ fun j _ => ?_
  · rintro _ ⟨⟩
    exact hh.positive id c hc
  · have := hbalance id
    simp only [Option.map_some, Option.getD_some, Cell.outgoing]
    omega
  · have := hbalance j
    simp only [Cell.outgoing]
    omega

/-- **Dropping references** keeps counts exact: they are no roots any more. -/
theorem dropAll {work : List ObjectId} (hh : h.Counted (work ++ roots)) : (h.dropAll work).Counted roots := by
  induction h, work using Heap.dropAll_induction with
  | nil h =>
    rw [Heap.dropAll]
    exact hh
  | missing h id rest hc ih =>
    -- the reference on the list is counted, so its object is there
    have hlive : (h.get? id).isSome := hh.isSome_of_mem_roots (by simp)
    simp [get?, hc] at hlive
  | last h id rest c hc hrefs ih =>
    have hone : c.refs.toNat = 1 := by rw [hrefs]; rfl
    rw [Heap.dropAll_cons, hc]
    dsimp only
    rw [if_pos hrefs]
    refine ih (hh.setCell hc (by rintro _ ⟨⟩) ?_ fun j hj => ?_)
    · simp only [Option.map_none, Option.getD_none, Cell.outgoing, List.count_append, List.cons_append,
        List.count_cons_self, List.count_nil]
      omega
    · simp only [Cell.outgoing, List.count_append, List.cons_append, List.count_cons_of_ne (Ne.symm hj), List.count_nil]
      omega
  | shared h id rest c hc hrefs ih =>
    have hpos := hh.positive id c hc
    have hne : c.refs.toNat ≠ 1 := fun heq => hrefs (UInt32.toNat_inj.1 heq)
    have hcount : (c.refs - 1).toNat = c.refs.toNat - 1 := UInt32.toNat_sub_of_le _ _ hpos
    rw [Heap.dropAll_cons, hc]
    dsimp only
    rw [if_neg hrefs]
    refine ih (hh.setCell hc ?_ ?_ fun j hj => ?_)
    · rintro _ ⟨⟩
      change 0 < (c.refs - 1).toNat
      omega
    · simp only [Option.map_some, Option.getD_some, Cell.outgoing, List.cons_append, List.count_cons_self, hcount]
      omega
    · simp only [Cell.outgoing, List.cons_append, List.count_cons_of_ne (Ne.symm hj)]
      omega

/-- So does dropping a value. -/
theorem dropValue {v : Value} (hh : h.Counted (v.refs ++ roots)) : (h.dropValue v).Counted roots := by
  unfold Heap.dropValue
  unfold Value.refs at hh
  cases href : v.ref? with
  | none =>
    rw [href] at hh
    exact hh
  | some id =>
    rw [href] at hh
    exact dropAll hh

/-- **A new object** takes over the references it holds; the reference to it is a root. -/
theorem allocate {o : Object} (hh : h.Counted (o.references ++ roots)) :
    (h.allocate o).2.Counted (h.cells.size :: roots) := by
  have hinner : (h.allocate o).2.inner = h.inner ++ o.references := by
    unfold Heap.allocate inner
    simp [Cell.outgoing]
  refine ⟨fun j => ?_, fun j c hc => ?_⟩
  · have hexact := hh.exact j
    unfold refCount at hexact ⊢
    rw [cell?_allocate, hinner]
    rw [List.count_append] at hexact ⊢
    by_cases hj : j = h.cells.size
    · -- nothing referred to the cell before there was one
      have hnone : h.cell? j = none := by simp [hj, cell?]
      rw [hnone] at hexact
      rw [if_pos hj, hj, List.count_cons_self, ← hj]
      simp only [Option.map_none, Option.getD_none, Option.map_some, Option.getD_some, UInt32.toNat_one] at hexact ⊢
      omega
    · rw [if_neg hj, List.count_cons_of_ne (Ne.symm hj)]
      omega
  · rw [cell?_allocate] at hc
    split at hc
    · cases hc
      exact Nat.one_pos
    · exact hh.positive j c hc

end Counted

/-- It is enough to look at the cells there are. -/
theorem counted_of_cells (hlt : ∀ id ∈ roots ++ h.inner, id < h.cells.size)
    (hcells : ∀ id < h.cells.size, h.refCount id = roots.count id + h.inner.count id ∧
      (h.cell? id).all fun c => 0 < c.refs.toNat) : h.Counted roots := by
  refine ⟨fun id => ?_, fun id c hc => ?_⟩
  · by_cases hid : id < h.cells.size
    · exact (hcells id hid).1
    · have hnone : h.refCount id = 0 := by simp [refCount, cell?, Array.getElem?_eq_none (Nat.le_of_not_lt hid)]
      rw [hnone, ← List.count_append, List.count_eq_zero.2 fun hmem => hid (hlt id hmem)]
  · have hid := (Array.getElem?_eq_some_iff.1 (getElem?_of_cell? hc)).1
    simpa [hc] using (hcells id hid).2

end Heap

end RegisterVM
