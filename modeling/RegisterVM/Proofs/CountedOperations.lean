import RegisterVM.Proofs.Settling

/-!
# What heap operations do to the references

An operation that only looks at arrays settles the heap, whichever way it ends. One that makes a value hands it over
as a new root and leaves all slots alone (`Yields`); one that changes the contents of arrays leaves the references as
they were (`Changes`). When any of them fails, the heap has settled and that is all.
-/

namespace RegisterVM
namespace Heap

/-! ### Looking at arrays -/

section

variable {I : Heap → Prop} (hplain : ∀ v, Keeps I (plainArray v))

include hplain

/-- Taking up an operand keeps what copying out keeps. -/
theorem keeps_operand (v : Value) : Keeps I (operand v) := by
  unfold operand
  split
  · exact .bind (hplain v) fun _ => .pure _
  · cases v.number? with
    | none => exact .throw _
    | some n => exact .pure _

/-- Reading an element keeps what copying out keeps. -/
theorem keeps_elementBy (v : Value) (place : Extents → Except ErrorCode Nat) : Keeps I (elementBy v place) :=
  .bind (hplain v) fun _ => .bind (looks_lift _).keeps fun _ => .pure _

/-- Comparing arrays keeps what copying them out keeps. -/
theorem keeps_arraysEqual (x y : Value) : Keeps I (arraysEqual x y) := by
  refine .bind (keeps_attempt (keeps_arrayContents (hplain x))) fun p =>
    .bind (keeps_attempt (keeps_arrayContents (hplain y))) fun q => ?_
  split
  · exact .pure _
  · exact .pure _

omit hplain in
/-- Comparing rows of values keeps what comparing two of them keeps. -/
theorem keeps_allEqual {same : Value → Value → HeapM Bool} (hsame : ∀ x y, Keeps I (same x y)) (xs ys : List Value) :
    Keeps I (allEqual same xs ys) := by
  induction xs generalizing ys with
  | nil => cases ys <;> exact .pure _
  | cons x xs ih =>
    cases ys with
    | nil => exact .pure _
    | cons y ys =>
      refine .bind (hsame x y) fun b => ?_
      cases b with
      | true => exact ih ys
      | false => exact .pure _

/-- Comparing values keeps what copying out keeps, however deep it goes. -/
theorem keeps_equalAt (depth : Nat) (x y : Value) : Keeps I (equalAt depth x y) := by
  induction depth generalizing x y with
  | zero => exact .pure _
  | succ depth ih =>
    have hitems (xs ys : Array Value) : Keeps I (itemsEqual (equalAt depth) xs ys) := by
      unfold itemsEqual
      split
      · exact keeps_allEqual ih _ _
      · exact .pure _
    unfold equalAt
    split
    · exact .pure _
    · split
      · exact .pure _
      · exact .pure _
    · split
      · exact .pure _
      · split
        · exact .bind Looks.get.keeps fun _ => .bind Looks.get.keeps fun _ => .pure _
        · exact keeps_arraysEqual hplain _ _
        · exact .pure _
        · refine .bind Looks.get.keeps fun h => ?_
          split
          · exact hitems _ _
          · exact .pure _
        · refine .bind Looks.get.keeps fun h => ?_
          split
          · exact hitems _ _
          · exact .pure _
    · exact .pure _

/-- Comparing values keeps what copying out keeps. -/
theorem keeps_equal (x y : Value) : Keeps I (equal x y) :=
  .bind Looks.get.keeps fun _ => keeps_equalAt hplain _ x y

end

variable {h k l : Heap} {id : ObjectId} {roots : List ObjectId}

/-- Whatever copying views out does not disturb is kept by looking at an array. -/
theorem triple_plainArray_of_settles {I : Heap → Prop} (hI : ∀ k l, I k → k.Settles l → I l) (v : Value) :
    Triple I (plainArray v) (fun p k => I k ∧ k.get? p.1 = some (.ofPlain p.2)) fun _ => I := by
  refine .bind (triple_objectOf .array v) fun ⟨id, _⟩ => .assuming (fun _ hk => hk.2) ?_
  rintro rfl
  have hmaterialize : Keeps I (materialize id) := by
    refine .bind Looks.get.keeps fun _ => fun k hk => ?_
    exact (triple_materializeAt _ id).mono (fun _ hs => hs) (fun _ l hl => hI k l hk hl.1)
      (fun _ l hl => hI k l hk hl) k rfl
  refine .bind (hmaterialize.mono (fun _ hk => hk.1) (fun _ _ hk => hk) fun _ _ hk => hk) fun _ =>
    .bind .get fun k => ?_
  split
  · rename_i a ha
    obtain ⟨o, ho, hplain⟩ := Option.bind_eq_some_iff.1 ha
    obtain rfl := Object.eq_ofPlain hplain
    refine .pure ?_
    rintro _ ⟨rfl, hk⟩
    exact ⟨hk, ho⟩
  · exact .throw fun _ hk => hk.2

/-- Looking an array up settles the heap, and the array has words of its own then. -/
theorem triple_settled_plainArray (v : Value) : Triple (h.Settled roots) (plainArray v)
    (fun p k => h.Settled roots k ∧ k.get? p.1 = some (.ofPlain p.2)) fun _ => h.Settled roots :=
  triple_plainArray_of_settles (fun _ _ hk hl => ⟨hl.counted roots hk.counted, hk.settles.trans hl⟩) v

/-- Looking an array up settles the heap. -/
theorem keeps_settled_plainArray (v : Value) : Keeps (h.Settled roots) (plainArray v) :=
  (triple_settled_plainArray v).mono (fun _ hk => hk) (fun _ _ hk => hk.1) fun _ _ hk => hk

/-! ### Slots of the objects that were there -/

/-- What was there and still is has the slots it had. -/
structure KeepsSlots (h k : Heap) : Prop where
  size_le : h.cells.size ≤ k.cells.size
  slots_eq : ∀ id o, id < h.cells.size → k.get? id = some o → (h.get? id).map Object.slots = some o.slots

namespace KeepsSlots

/-- Slots that are kept twice are kept. -/
theorem trans (hk : h.KeepsSlots k) (hl : k.KeepsSlots l) : h.KeepsSlots l := by
  refine ⟨hk.size_le.trans hl.size_le, fun id o hid ho => ?_⟩
  obtain ⟨p, hp, hpo⟩ := Option.map_eq_some_iff.1 (hl.slots_eq id o (hid.trans_le hk.size_le) ho)
  rw [hk.slots_eq id p hid hp, hpo]

/-- Taking a reference keeps all slots. -/
theorem retain (h : Heap) (id : ObjectId) : h.KeepsSlots (h.retain id) := by
  refine ⟨(Array.size_modify ..).ge, fun j o _ ho => ?_⟩
  rw [← get?_retain h id j, ho]
  rfl

/-- Taking a reference to the object of a value, if any, keeps all slots. -/
theorem retainValue (h : Heap) (v : Value) : h.KeepsSlots (h.retainValue v) := by
  unfold Heap.retainValue
  split
  · exact retain h _
  · exact ⟨le_rfl, fun _ _ _ ho => ho ▸ rfl⟩

/-- Dropping references keeps the slots of what is still there. -/
theorem dropAll (h : Heap) (work : List ObjectId) : h.KeepsSlots (h.dropAll work) := by
  refine ⟨(size_dropAll h work).ge, fun j o _ ho => ?_⟩
  rw [get?_of_get?_dropAll ho]
  rfl

/-- A new object keeps the slots of all others. -/
theorem allocate (h : Heap) (o : Object) : h.KeepsSlots (h.allocate o).2 := by
  refine ⟨(Array.size_push ..).ge.trans' (Nat.le_succ _), fun j p hj hp => ?_⟩
  rw [get?_allocate, if_neg hj.ne] at hp
  rw [hp]
  rfl

/-- Changing an object but not its slots. -/
theorem modifyObject (h : Heap) (id : ObjectId) {f : Object → Object} (hf : ∀ o, (f o).slots = o.slots) :
    h.KeepsSlots (h.modifyObject id f) := by
  refine ⟨(Array.size_modify ..).ge, fun j p _ hp => ?_⟩
  rw [get?_modifyObject] at hp
  split at hp
  · obtain ⟨o, ho, rfl⟩ := Option.map_eq_some_iff.1 hp
    rw [ho, Option.map_some, hf]
  · rw [hp]
    rfl

end KeepsSlots

/-- Copying views out keeps all slots, which arrays have none of. -/
theorem Settles.keepsSlots (hk : h.Settles k) : h.KeepsSlots k := by
  refine ⟨hk.size_eq.ge, fun id o _ ho => ?_⟩
  rcases hk.object id o ho with hold | ⟨v, base, starts, a, hview, -, rfl⟩
  · rw [hold]
    rfl
  · rw [hview.get?_eq]
    rfl

/-- A heap in which old objects have their slots, with every reference counted. -/
structure Grown (h : Heap) (roots : List ObjectId) (k : Heap) : Prop where
  counted : k.Counted roots
  slots : h.KeepsSlots k

/-- A settled heap counts as one in which nothing new was made. -/
theorem Settled.grown (hk : h.Settled roots k) : h.Grown roots k := ⟨hk.counted, hk.settles.keepsSlots⟩

/-- **An operation that makes a value**: the value is a new root. -/
def Yields {ε : Type} (h : Heap) (roots : List ObjectId) (m : EStateM ε Heap Value) : Prop :=
  Triple (h.Settled roots) m (fun v k => h.Grown (v.refs ++ roots) k) fun _ => h.Settled roots

/-- **An operation that changes contents** and no references. -/
def Changes {α : Type} (h : Heap) (roots : List ObjectId) (m : HeapM α) : Prop :=
  Triple (h.Settled roots) m (fun _ k => k.Counted roots) fun _ => h.Settled roots

/-- An operation after which the heap has settled, and no more, changes no references. -/
theorem Changes.of_keeps {α : Type} {m : HeapM α} (hm : Keeps (h.Settled roots) m) : h.Changes roots m :=
  hm.mono (fun _ hk => hk) (fun _ _ hk => hk.counted) fun _ _ hk => hk

/-! ### Making values -/

/-- Nothing is referred to by a scalar. -/
theorem yields_pure {v : Value} (hv : v.ref? = none) : h.Yields roots (pure v : HeapM Value) := by
  refine .pure fun k hk => ?_
  rw [Value.refs, hv]
  exact hk.grown

/-- A new object takes over the references it holds. -/
theorem triple_new (o : Object) {E : ErrorCode → Heap → Prop} :
    Triple (h.Grown (o.references ++ roots)) (new o) (fun v k => h.Grown (v.refs ++ roots) k) E :=
  fun k hk => ⟨hk.counted.allocate, hk.slots.trans (.allocate k o)⟩

/-- A new object without references is a new root. -/
theorem yields_new {o : Object} (ho : o.references = []) : h.Yields roots (new o) := by
  refine (triple_new o).mono (fun k hk => ?_) (fun _ _ hk => hk) fun _ _ hk => hk
  rw [ho]
  exact hk.grown

/-- Combining operands looks at them only: both have been copied out by then. -/
theorem looks_combine (op : ArithOp) (x y : Operand) : Looks (combine op x y) := by
  rw [combine_eq]
  exact looks_lift _

/-- Arithmetic on arrays makes a new array. -/
theorem yields_arrayArith (op : ArithOp) (x y : Value) : h.Yields roots (arrayArith op x y) :=
  .bind (keeps_operand keeps_settled_plainArray x) fun p => .bind (keeps_operand keeps_settled_plainArray y) fun q =>
    .bind (looks_combine op p q).keeps fun _ => yields_new rfl

/-- Joining strings makes a new string. -/
theorem yields_concat (x y : Value) : h.Yields roots (concat x y) := .bind Looks.get.keeps fun _ => yields_new rfl

/-- A number refers to nothing. -/
theorem ref?_ofNumber (n : Number) : (Value.ofNumber n).ref? = none := by
  cases n <;> rfl

/-- Generic arithmetic makes a number, a string or an array. -/
theorem yields_genericArith (op : ArithOp) (x y : Value) : h.Yields roots (genericArith op x y) := by
  unfold genericArith
  split
  · exact yields_arrayArith op x y
  · split
    · exact yields_concat x y
    · split
      · exact .bind (looks_lift _).keeps fun n => yields_pure (ref?_ofNumber n)
      · exact .throw fun _ hk => hk

/-- Arithmetic by opcode makes a value if arithmetic does. -/
theorem yields_arithByOpcode {arith : ArithOp → Value → Value → HeapM Value}
    (harith : ∀ op x y, h.Yields roots (arith op x y)) (op : Opcode) (x y : Value) :
    h.Yields roots (arithByOpcode arith op x y) := by
  unfold arithByOpcode
  split
  · exact harith _ x y
  · exact .throw fun _ hk => hk

/-- What an operation does, whichever way it ends, when it cannot stop the machine. -/
theorem triple_running {α : Type} {P : Heap → Prop} {m : HeapM α} {Q : α → Heap → Prop} {E : Heap → Prop}
    (hm : Triple P m Q fun _ => E) : Triple P (running m) Q fun _ => E := by
  intro k hk
  have hend := hm k hk
  unfold running
  cases hmk : m k with
  | ok a l =>
    rw [hmk] at hend
    exact hend
  | error e l =>
    rw [hmk] at hend
    exact hend

/-- A view takes a reference to its base. -/
theorem yields_slice (hh : h.Counted roots) (hroom : h.Room 1) (v : Value) (window : List (Int64 × Int64)) :
    h.Yields roots (slice v window) := by
  refine .bind (triple_running (triple_settled_plainArray v)) fun ⟨id, a⟩ => ?_
  dsimp only
  split
  · exact .throw fun _ hk => hk.1
  · split
    · exact .throw fun _ hk => hk.1
    · refine .bind (.modify (Q := h.Grown ([id] ++ roots)) fun k ⟨hk, ha⟩ => ?_) fun _ =>
        triple_running (E := h.Settled roots) (triple_new (.array (.view a.kind id window _)))
      exact ⟨hk.counted.retain (by rw [ha]; rfl) (hk.room hh hroom id), hk.settles.keepsSlots.trans (.retain k id)⟩

/-! ### Items -/

/-- What a slot of an object refers to is among the references of the object. -/
theorem ref?_mem_references {o : Object} {v : Value} (hv : v ∈ o.slots) {j : ObjectId} (hj : v.ref? = some j) :
    j ∈ o.references := by
  cases o with
  | string bytes => simp [Object.slots] at hv
  | array a => simp [Object.slots] at hv
  | list items | tuple items | record c items => exact List.mem_filterMap.2 ⟨v, Array.mem_toList_iff.2 hv, hj⟩

/-- What a slot of an object refers to is there. -/
theorem Counted.live_of_mem_slots (hh : h.Counted roots) {o : Object} (ho : h.get? id = some o) {v : Value}
    (hv : v ∈ o.slots) : h.Live v :=
  fun _ hj => hh.isSome_of_mem_inner (mem_inner ho (ref?_mem_references hv hj))

/-- The slots that are found are those of an object in the heap. -/
theorem triple_slotsOf (kind : ObjectKind) (v : Value) {I : Heap → Prop} : Triple I (slotsOf kind v)
    (fun p k => I k ∧ ∃ o, k.get? p.1 = some o ∧ p.2 = o.slots) fun _ => I := by
  refine .bind (Q := fun p k => I k ∧ k.get? p.1 = some p.2) ?_ fun ⟨id, o⟩ => .pure fun k hk => ⟨hk.1, o, hk.2, rfl⟩
  unfold objectOf
  split
  · refine .bind .get fun k => ?_
    split
    · rename_i o ho
      split
      · refine .pure ?_
        rintro _ ⟨rfl, hk⟩
        exact ⟨hk, ho⟩
      · exact .throw fun _ hk => hk.2
    · exact .throw fun _ hk => hk.2
  · exact .throw fun _ hk => hk

/-- An accepted index of a row is less than its length. -/
theorem checkIndex_lt_size {i : Int64} {n k : Nat} (hk : checkIndex i (Int64.ofNat n) = .ok k) : k < n := by
  have hlt := checkIndex_lt hk
  have hword : Shape.word (Int64.ofNat n) = n % 18446744073709551616 := by
    rw [Shape.word, Int64.toUInt64_ofNat', UInt64.toNat_ofNat']
  have := Nat.mod_le n 18446744073709551616
  omega

/-- An item of a list is there, and nothing else happens. -/
theorem triple_listItem (list : Value) (i : Int64) : Triple (h.Settled roots) (listItem list i)
    (fun v k => h.Settled roots k ∧ k.Live v) fun _ => h.Settled roots := by
  refine .bind (triple_slotsOf .list list) fun ⟨id, items⟩ => ?_
  refine .bind ((looks_lift _).triple.mono (fun _ hk => hk) (fun _ _ hk => hk) fun _ _ hk => hk.1) fun n => ?_
  refine .pure fun k ⟨hn, hk, o, ho, hitems⟩ => ⟨hk, ?_⟩
  dsimp only at ho hitems
  subst hitems
  rw [Array.getD_eq_getD_getElem?]
  cases hitem : o.slots[n]? with
  | none => exact nofun
  | some v => exact hk.counted.live_of_mem_slots ho (Array.mem_of_getElem? hitem)

/-- A copy of a value that is there is a new root, as long as its counter has room. -/
theorem triple_clone (hh : h.Counted roots) (hroom : h.Room 1) {v : Value} :
    Triple (fun k => h.Settled roots k ∧ k.Live v) (clone v) (fun w k => h.Grown (w.refs ++ roots) k)
      fun _ => h.Settled roots :=
  fun k ⟨hk, hv⟩ =>
    ⟨hk.counted.retainValue hv (hk.room hh hroom), hk.settles.keepsSlots.trans (.retainValue k v)⟩

/-- Reading an item of a list makes a copy of it. -/
theorem yields_listGet (hh : h.Counted roots) (hroom : h.Room 1) (list : Value) (i : Int64) :
    h.Yields roots (listGet list i) :=
  .bind (triple_listItem list i) fun _ => triple_clone hh hroom

/-! ### Storing items -/

end Heap

/-- A slot of an object gives up its reference for another. -/
theorem Object.count_references_withSlots {o : Object} {i : Nat} {old : Value} (hold : o.slots[i]? = some old)
    (v : Value) (j : ObjectId) : (o.withSlots (o.slots.setIfInBounds i v)).references.count j + old.refs.count j =
      o.references.count j + v.refs.count j := by
  cases o with
  | string bytes => simp [slots] at hold
  | array a => simp [slots] at hold
  | list items | tuple items | record c items => exact count_refs_setIfInBounds hold v j

namespace Heap

variable {h k l : Heap} {id : ObjectId} {roots : List ObjectId}

/-- An item that is replaced becomes a root: nobody has given it up yet. -/
theorem Counted.storeItem {v old : Value} (hh : h.Counted (v.refs ++ roots)) {o : Object} (ho : h.get? id = some o)
    {i : Nat} (hold : o.slots[i]? = some old) :
    (h.modifyObject id fun o => o.withSlots (o.slots.setIfInBounds i v)).Counted (old.refs ++ roots) := by
  refine hh.modifyObject ho fun j => ?_
  have := Object.count_references_withSlots hold v j
  rw [List.count_append, List.count_append]
  omega

/-- Taking a reference to a value changes no object. -/
theorem get?_retainValue (h : Heap) (v : Value) (j : ObjectId) : (h.retainValue v).get? j = h.get? j := by
  unfold retainValue
  split
  · exact get?_retain h _ j
  · rfl

/-- Storing into a slot gives up what was there, so counts stay exact. -/
theorem triple_storeSlot {i : Nat} {v : Value} {E : ErrorCode → Heap → Prop} :
    Triple (fun k => k.Counted roots ∧ k.Room 1 ∧ k.Live v ∧ ∃ o, k.get? id = some o ∧ i < o.slots.size)
      (storeSlot id i v) (fun _ k => k.Counted roots) E := by
  refine .bind (.modify (Q := fun k => k.Counted (v.refs ++ roots) ∧ ∃ o, k.get? id = some o ∧ i < o.slots.size) ?_)
    fun _ => .bind .get fun k => ?_
  · rintro k ⟨hk, hroom, hv, o, ho, hi⟩
    exact ⟨hk.retainValue hv hroom, o, (get?_retainValue k v id).trans ho, hi⟩
  · split
    · rename_i o ho
      refine .bind (.modify (Q := fun k => k.Counted ((o.slots.getD i .none).refs ++ roots)) ?_) fun _ =>
        .modify fun _ hl => hl.dropValue
      rintro _ ⟨rfl, hk, o', ho', hi⟩
      obtain rfl : o = o' := Option.some.inj (ho.symm.trans ho')
      refine hk.storeItem ho ?_
      rw [Array.getD_eq_getD_getElem?, Array.getElem?_eq_getElem hi, Option.getD_some]
    · rename_i ho
      refine .pure ?_
      rintro _ ⟨rfl, -, o, ho', -⟩
      rw [ho'] at ho
      cases ho

/-- Storing into a list keeps counts exact; if there is no such item, nothing has happened but views copied out. -/
theorem triple_listSet (hh : h.Counted roots) (hroom : h.Room 1) (list : Value) (i : Int64) (v : Value) :
    Triple (fun k => h.Settled roots k ∧ k.Live v) (listSet list i v) (fun _ k => k.Counted roots)
      fun _ => h.Settled roots := by
  refine .bind ((triple_slotsOf .list list).mono (fun _ hk => hk) (fun _ _ hk => hk) fun _ _ hk => hk.1)
    fun ⟨id, items⟩ => ?_
  refine .bind ((triple_lift _).mono (fun _ hk => hk) (fun _ _ hk => hk) fun _ _ hk => hk.1.1) fun n => ?_
  refine triple_storeSlot.mono ?_ (fun _ _ hk => hk) fun _ _ hk => hk
  rintro k ⟨hn, ⟨hk, hv⟩, o, ho, rfl⟩
  exact ⟨hk.counted, hk.room hh hroom, hv, o, ho, checkIndex_lt_size hn⟩

/-! ### Changing contents -/

/-- What changes contents after `k` may go on from `k`, wherever `k` itself came from. -/
theorem Settled.goesOn {α : Type} {m : HeapM α} (hk : h.Settled roots k) (hm : k.Changes roots m) :
    Triple (· = k) m (fun _ l => l.Counted roots) fun _ => h.Settled roots := by
  refine hm.mono ?_ (fun _ _ hl => hl) fun _ _ hl => .trans hk.settles hl
  rintro _ rfl
  exact hk.counted.settled

/-- An array that had its words gets others, if it is still there. -/
theorem Settled.replace (hl : k.Settled roots l) {a : PlainArray} (ha : k.get? id = some (.ofPlain a))
    (b : PlainArray) :
    (l.modifyObject id fun _ => .ofPlain b).Counted roots := by
  refine hl.counted.replace fun o ho => ?_
  rw [hl.settles.get?_of_plain ha ho]
  rfl

/-- The operand `source` read from the value `v` can still be read, with the extents and the kind it had. -/
def Offers (k : Heap) (v : Value) : Operand → Prop
  | .scalar _ => True
  | .array b => ∃ id c, v.ref? = some id ∧ k.get? id = some (.ofPlain c) ∧ c.toExtents = b.toExtents ∧ c.kind = b.kind

/-- The array that is looked at is the one the value refers to. -/
theorem triple_plainArray_ref? {I : Heap → Prop} (hI : ∀ k l, I k → k.Settles l → I l) (v : Value) :
    Triple I (plainArray v) (fun p k => I k ∧ k.get? p.1 = some (.ofPlain p.2) ∧ v.ref? = some p.1) fun _ => I := by
  intro k hk
  have hend := triple_plainArray_of_settles hI v k hk
  cases hp : plainArray v k with
  | ok p l =>
    rw [hp] at hend
    exact ⟨hend.1, hend.2, by rw [(kind_of_plainArray hp).1]; rfl⟩
  | error e l =>
    rw [hp] at hend
    exact hend

/-- An operand that is taken up can be read from the heap as it is then. -/
theorem triple_operand_offers {I : Heap → Prop} (hI : ∀ k l, I k → k.Settles l → I l) (v : Value) :
    Triple I (operand v) (fun q k => I k ∧ k.Offers v q) fun _ => I := by
  unfold operand
  split
  · exact .bind (triple_plainArray_ref? hI v) fun p => .pure fun k hk => ⟨hk.1, p.1, p.2, hk.2.2, hk.2.1, rfl, rfl⟩
  · cases v.number? with
    | none => exact .throw fun _ hk => hk
    | some n => exact .pure fun k hk => ⟨hk, trivial⟩

/-- An operand can still be read after an element of some array has been stored, maybe one of its own. -/
theorem Offers.setElement {v : Value} {source : Operand} (hk : k.Offers v source) (id : ObjectId) (access : ElementKind)
    (i : Nat) (w : Words) : (k.modifyObject id fun o => o.setElement access i w).Offers v source := by
  cases source with
  | scalar n => trivial
  | array b =>
    obtain ⟨j, c, hj, hc, hextents, hkind⟩ := hk
    by_cases hid : id = j
    · subst hid
      refine ⟨id, { c with words := setElementAt access c.words i w }, hj, ?_, hextents, hkind⟩
      rw [get?_modifyObject, if_pos rfl, hc]
      rfl
    · exact ⟨j, c, hj, by rw [get?_modifyObject, if_neg hid, hc], hextents, hkind⟩

/-- A number of the operand's kind is read, and nothing changes. -/
theorem Offers.exists_sourceNumber {v : Value} {source : Operand} (hk : k.Offers v source) (i : Nat) :
    ∃ n, sourceNumber v source i k = .ok n k ∧ n.kind = source.kind := by
  cases source with
  | scalar n => exact ⟨n, rfl, rfl⟩
  | array b =>
    obtain ⟨j, c, hj, hc, -, hkind⟩ := hk
    refine ⟨c.number i, ?_, ?_⟩
    · have hplain : (v.ref?.bind k.get?).bind Object.plain? = some c := by rw [hj, Option.bind_some, hc]; rfl
      have hget : (get : HeapM Heap) k = .ok k k := rfl
      refine (bind_of_ok hget).trans ?_
      rw [hplain]
      rfl
    · unfold PlainArray.number
      rw [Operand.kind, ← hkind]
      cases c.kind <;> rfl

end Heap

/-- A number converts to a kind unless it is complex and the kind is not. -/
theorem Number.convert_cases (n : Number) (kind : ElementKind) :
    (¬ (n.kind = .complex ∧ kind ≠ .complex) ∧ ∃ m, n.convert kind = .ok m) ∨
      (n.kind = .complex ∧ kind ≠ .complex) ∧ n.convert kind = .error .shape := by
  cases n <;> cases kind <;> simp [Number.kind, Number.convert]

/-- The numbers of an operand do not convert to the kind. -/
def Operand.Narrows (q : Operand) (kind : ElementKind) : Prop := q.kind = .complex ∧ kind ≠ .complex

namespace Heap

variable {h k l : Heap} {id : ObjectId} {roots : List ObjectId} {v : Value} {source : Operand} {kind : ElementKind}

/-- **One element is converted and stored, or refused**, and which of the two does not depend on the element. -/
theorem assignOne_cases (hk : k.Offers v source) (id : ObjectId) (kind : ElementKind) (i : Nat) :
    (¬ source.Narrows kind ∧
      ∃ w, assignOne id kind v source i k = .ok () (k.modifyObject id fun o => o.setElement kind i w)) ∨
    source.Narrows kind ∧ assignOne id kind v source i k = .error .shape k := by
  obtain ⟨n, hn, hkind⟩ := hk.exists_sourceNumber i
  unfold assignOne Operand.Narrows
  rw [bind_of_ok hn, ← hkind]
  rcases n.convert_cases kind with ⟨hnot, m, hm⟩ | ⟨hnarrows, he⟩
  · rw [hm]
    exact .inl ⟨hnot, m.words, rfl⟩
  · rw [he]
    exact .inr ⟨hnarrows, rfl⟩

/-- **The loop of an assignment refuses the first element or none**: when it fails nothing has been written. -/
theorem triple_assignLoop {I : Heap → Prop}
    (hstore : ∀ l i w, I l → I (l.modifyObject id fun o => o.setElement kind i w)) (hk : I k)
    (hsource : k.Offers v source) (xs : List Nat) :
    Triple (· = k) (xs.forM (assignOne id kind v source)) (fun _ => I) fun _ l => l = k := by
  by_cases hnarrows : source.Narrows kind
  · cases xs with
    | nil =>
      refine .pure ?_
      rintro _ rfl
      exact hk
    | cons x xs =>
      rintro _ rfl
      rcases assignOne_cases hsource id kind x with ⟨hnot, -⟩ | ⟨-, he⟩
      · exact absurd hnarrows hnot
      · have hend : (x :: xs).forM (assignOne id kind v source) _ = .error .shape _ := bind_of_error he
        rw [hend]
  · have hloop : Triple (fun l => I l ∧ l.Offers v source) (xs.forM (assignOne id kind v source))
        (fun _ l => I l ∧ l.Offers v source) fun _ _ => False := by
      induction xs with
      | nil => exact .pure fun _ hl => hl
      | cons x xs ih =>
        refine .bind (fun l hl => ?_) fun _ => ih
        rcases assignOne_cases hl.2 id kind x with ⟨-, w, hw⟩ | ⟨hnarrows', -⟩
        · rw [hw]
          exact ⟨hstore l x w hl.1, hl.2.setElement id kind x w⟩
        · exact absurd hnarrows' hnarrows
    refine hloop.mono ?_ (fun _ _ hl => hl.1) fun _ _ hl => hl.elim
    rintro _ rfl
    exact ⟨hk, hsource⟩

/-- Storing an element does not change the references. -/
theorem Counted.setElement (hk : k.Counted roots) (id : ObjectId) (access : ElementKind) (i : Nat) (w : Words) :
    (k.modifyObject id fun o => o.setElement access i w).Counted roots := by
  refine hk.replace fun o _ => ?_
  cases o with
  | array a =>
    obtain ⟨_, _, data, _⟩ := a
    cases data <;> rfl
  | _ => rfl

/-- Assigning to all elements changes contents only. -/
theorem changes_assignAll (dst src : Value) : h.Changes roots (assignAll dst src) := by
  refine .bind (keeps_settled_plainArray dst) fun ⟨id, a⟩ =>
    .bind (triple_operand_offers (fun _ _ hk hl => ⟨hl.counted roots hk.counted, hk.settles.trans hl⟩) src)
      fun source => ?_
  have hloop : Triple (fun k => h.Settled roots k ∧ k.Offers src source)
      ((List.range a.count).forM (assignOne id a.kind src source)) (fun _ k => k.Counted roots)
      fun _ => h.Settled roots := by
    intro k hk
    refine (triple_assignLoop (I := (·.Counted roots)) ?_ hk.1.counted hk.2 _).mono (fun _ hl => hl) (fun _ _ hl => hl)
      (fun _ _ hl => hl ▸ hk.1) k rfl
    exact fun l i w hl => hl.setElement id a.kind i w
  cases source with
  | scalar n => exact hloop
  | array b =>
    dsimp only
    split
    · exact .throw fun _ hl => hl.1
    · exact hloop

/-- Changing the length of a row changes contents only. -/
theorem changes_resize (v : Value) (length : Int64) : h.Changes roots (resize v length) := by
  unfold resize
  split
  · exact .throw fun _ hk => hk
  · refine Triple.bind (triple_settled_plainArray v) fun ⟨id, a⟩ => ?_
    dsimp only
    split
    · exact .throw fun _ hk => hk.1
    · refine .bind (Q := fun _ k => h.Settled roots k ∧ k.get? id = some (.ofPlain a)) (.pure fun _ hk => hk)
        fun _ => ?_
      exact .modify fun k ⟨hk, ha⟩ => hk.counted.settled.replace ha _

/-- Storing an element changes contents only. -/
theorem changes_setElementBy (v : Value) (place : Extents → Except ErrorCode Nat) (w : Words) :
    h.Changes roots (setElementBy v place w) := by
  exact Triple.bind (keeps_settled_plainArray v) fun _ => .bind (Keeps.pure _) fun ⟨id, kind, _⟩ =>
    .bind (looks_lift _).keeps fun i => .modify fun k hk => hk.counted.setElement id kind i w

/-! ### Bytes -/

/-- Bytes are those of a string in the heap. -/
theorem bytes?_eq_some {v : Value} {bytes : Array UInt8} (hv : h.bytes? v = some bytes) :
    ∃ id, v = .object .string id ∧ h.get? id = some (.string bytes) := by
  unfold bytes? at hv
  split at hv
  · rename_i id
    split at hv
    · rename_i bytes' ho
      cases hv
      exact ⟨id, rfl, ho⟩
    · cases hv
  · cases hv

/-- What replacing a byte makes of the value `v` and the heap `k`: a changed copy if the string is shared, the string
changed in place otherwise. -/
inductive BytePut (k : Heap) (id : ObjectId) (bytes : Array UInt8) (n : Nat) (b : UInt8) : Value → Heap → Prop
  | copied : 1 < k.refCount id → BytePut k id bytes n b (.object .string k.cells.size)
      ((k.allocate (.string (bytes.setIfInBounds n b))).2.dropAll [id])
  | inPlace : k.refCount id ≤ 1 → BytePut k id bytes n b (.object .string id) (k.modifyObject id fun o => o.setByte n b)

/-- **Replacing a byte** looks at the string and then does one of two things, or fails and has done nothing. -/
theorem triple_setChar (k : Heap) (v : Value) (i ch : Int64) : Triple (· = k) (setChar v i ch)
    (fun w l => ∃ id bytes n, v = .object .string id ∧ k.get? id = some (.string bytes) ∧
      checkIndex i (Int64.ofNat bytes.size) = .ok n ∧ k.BytePut id bytes n ch.toUInt64.toUInt8 w l)
    fun _ l => l = k := by
  refine .bind .get fun k' => .assuming (fun _ hs => hs.1.trans hs.2) ?_
  rintro rfl
  split
  · rename_i bytes id hbytes href
    obtain ⟨id', rfl, ho⟩ := bytes?_eq_some hbytes
    cases href
    refine .bind ((triple_lift _).mono (fun _ hs => hs) (fun _ _ hs => hs) fun _ _ hs => hs.2) fun n =>
      .bind .get fun k => ?_
    split
    · rename_i hshared
      rintro _ ⟨rfl, hn, rfl, -⟩
      exact ⟨id, bytes, n, rfl, ho, hn, .copied hshared⟩
    · rename_i hsingle
      rintro _ ⟨rfl, hn, rfl, -⟩
      exact ⟨id, bytes, n, rfl, ho, hn, .inPlace (Nat.not_lt.1 hsingle)⟩
  · exact .throw fun _ hs => hs.2

/-- The references to the string that was there are given up for those to the string that is there now. -/
theorem BytePut.grown {bytes : Array UInt8} {n : Nat} {b : UInt8} {w : Value} (hput : k.BytePut id bytes n b w l)
    (hk : k.Counted (id :: roots)) : k.Grown (w.refs ++ roots) l := by
  cases hput with
  | copied =>
    have hcopy := Counted.allocate (o := .string (bytes.setIfInBounds n b)) hk
    exact ⟨Counted.dropAll (hcopy.perm (List.Perm.swap id _ _)), (KeepsSlots.allocate k _).trans (.dropAll _ _)⟩
  | inPlace =>
    refine ⟨hk.replace fun o _ => ?_, .modifyObject k id fun o => ?_⟩
    · cases o <;> rfl
    · cases o <;> rfl

end Heap

end RegisterVM
