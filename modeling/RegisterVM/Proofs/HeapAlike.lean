import RegisterVM.Heap.Element
import RegisterVM.Heap.Slots
import RegisterVM.Heap.Text
import RegisterVM.Proofs.Alike
import RegisterVM.Proofs.ElementAccess

/-!
# Heap operations cannot tell heaps apart

Every heap operation does the same on heaps and values that are alike: it fails for the same reason
or gives results that are alike, and the heaps it leaves are alike (`Heap.Agree`). There is one lemma
for each operation, in the order in which the operations use each other.
-/

namespace RegisterVM

namespace Heap

/-- Two operations do the same on heaps that are alike, with results related by `R`. -/
def Agree (strict : Bool) {α β : Type} (R : α → β → Prop) (m : HeapM α) (m' : HeapM β) : Prop :=
  ∀ h h', h.Alike strict h' →
    Ends (fun a b k k' => R a b ∧ k.Alike strict k') (Heap.Alike strict) (m h) (m' h')

namespace Agree

variable {strict : Bool} {α β γ δ : Type} {R : α → β → Prop} {S : γ → δ → Prop}

/-- Actions that agree, each followed by actions that agree on related results. -/
theorem bind {m : HeapM α} {m' : HeapM β} {f : α → HeapM γ} {f' : β → HeapM δ}
    (hm : Agree strict R m m') (hf : ∀ a b, R a b → Agree strict S (f a) (f' b)) :
    Agree strict S (m >>= f) (m' >>= f') := fun h h' hh =>
  Ends.bind (hm h h' hh) fun a b k k' hab => hf a b hab.1 k k' hab.2

/-- Related values, returned. -/
theorem pure {a : α} {b : β} (hab : R a b) : Agree strict R (pure a) (pure b) :=
  fun _ _ hh => ⟨hab, hh⟩

/-- Both fail with the same error. -/
theorem throw (e : ErrorCode) : Agree strict R (throw e) (throw e) := fun _ _ hh => ⟨rfl, hh⟩

/-- Both read their heaps, which are alike. -/
theorem get : Agree strict (Heap.Alike strict) (MonadState.get) (MonadState.get) :=
  fun _ _ hh => ⟨hh, hh⟩

/-- Changes that lead from heaps that are alike to heaps that are alike. -/
theorem modify {f g : Heap → Heap} (hfg : ∀ h h', h.Alike strict h' → (f h).Alike strict (g h')) :
    Agree strict (· = ·) (modify f : HeapM Unit) (modify g) := fun h h' hh => ⟨rfl, hfg h h' hh⟩

/-- A result that has been computed is the same on both sides. -/
theorem lift {x : Except ErrorCode α} {R : α → α → Prop} (hR : ∀ a, R a a) :
    Agree strict R (lift x) (lift x) := by
  cases x with
  | ok a => exact pure (hR a)
  | error e => exact throw e

/-- An attempt goes on with heaps that are alike, whether or not it failed. -/
theorem attempt {m m' : HeapM α} (h : Agree strict (· = ·) m m') :
    Agree strict (· = ·) (attempt m) (Heap.attempt m') := by
  intro k k' hk
  have hend := h k k' hk
  unfold Heap.attempt
  cases hm : m k <;> cases hm' : m' k' <;> rw [hm, hm'] at hend
  · exact ⟨congrArg Except.ok hend.1, hend.2⟩
  · exact hend.elim
  · exact hend.elim
  · exact ⟨congrArg Except.error hend.1, hend.2⟩

/-- One operation for each item of two lists. -/
theorem mapM {f : γ → HeapM α} {f' : δ → HeapM α} {xs : List γ} {ys : List δ}
    (h : List.Forall₂ S xs ys) (hf : ∀ x y, S x y → Agree strict (· = ·) (f x) (f' y)) :
    Agree strict (· = ·) (xs.mapM f) (ys.mapM f') := by
  induction h with
  | nil => exact pure rfl
  | cons hxy _ ih =>
    rw [List.mapM_cons, List.mapM_cons]
    refine bind (hf _ _ hxy) fun a b hab => bind ih fun as bs habs => pure ?_
    rw [hab, habs]

/-- One operation for each item of a list. -/
theorem forM {f f' : γ → HeapM Unit} (xs : List γ) (hf : ∀ x, Agree strict (· = ·) (f x) (f' x)) :
    Agree strict (· = ·) (xs.forM f) (xs.forM f') := by
  induction xs with
  | nil => exact pure rfl
  | cons x xs ih => exact bind (hf x) fun _ _ _ => ih

end Agree

variable {strict : Bool} {v v' w w' : Value}

/-! ### References -/

/-- Copies of values that are alike are alike. -/
theorem agree_clone (hv : v.Alike strict v') : Agree strict (Value.Alike strict) (clone v) (clone v') :=
  .bind (.modify fun _ _ hh => hh.retainValue hv) fun _ _ _ => .pure hv

/-- Giving up values that refer to the same object, if any. -/
theorem agree_discard (hv : v.ref? = v'.ref?) : Agree strict (· = ·) (discard v) (discard v') :=
  .modify fun _ _ hh => hh.dropValue hv

/-- New objects that are alike get the same name. -/
theorem agree_new {o o' : Object} (ho : o.Alike strict o') : Agree strict (· = ·) (new o) (new o') := by
  have hkind := ho.kind_eq
  intro h h' hh
  obtain ⟨hid, hheap⟩ := hh.allocate ho
  change (Value.object o.kind (h.allocate o).1 = .object o'.kind (h'.allocate o').1) ∧ _
  exact ⟨by rw [hkind, hid], hheap⟩

/-- Names equal and objects alike. -/
def NamedAlike (strict : Bool) (p p' : ObjectId × Object) : Prop :=
  p.1 = p'.1 ∧ p.2.Alike strict p'.2

/-- The objects that values which are alike refer to are alike. -/
theorem agree_objectOf (kind : ObjectKind) (hv : v.Alike strict v') :
    Agree strict (NamedAlike strict) (objectOf kind v) (objectOf kind v') := by
  cases hv with
  | scalar => exact .throw _
  | refl v =>
    cases v with
    | none => exact .throw _
    | scalar => exact .throw _
    | object k id =>
      refine .bind .get fun h h' hh => ?_
      have hid := hh.get? id
      revert hid
      generalize h.get? id = o, h'.get? id = o'
      rintro (ho | -)
      · dsimp only
        split
        · exact .pure ⟨rfl, ho⟩
        · exact .throw _
      · exact .throw _

/-! ### Slots -/

/-- So are their slots. -/
theorem agree_slotsOf (kind : ObjectKind) (hv : v.Alike strict v') :
    Agree strict (fun p p' => p.1 = p'.1 ∧ SlotsAlike strict p.2 p'.2) (slotsOf kind v)
      (slotsOf kind v') :=
  .bind (agree_objectOf kind hv) fun _ _ ho => .pure ⟨ho.1, ho.2.slots⟩

/-- Slots at the same position hold values that are alike. -/
theorem agree_readSlot (kind : ObjectKind) (hv : v.Alike strict v') (i : Nat) :
    Agree strict (Value.Alike strict) (readSlot kind v i) (readSlot kind v' i) := by
  refine .bind (agree_slotsOf kind hv) fun ⟨_, xs⟩ ⟨_, ys⟩ ⟨_, hslots⟩ => ?_
  have hi := hslots i
  dsimp only at hi ⊢
  revert hi
  generalize xs[i]? = x, ys[i]? = y
  rintro (hxy | -)
  · exact .pure hxy
  · exact .throw _

/-- Slots that are missing on both sides count as empty. -/
theorem getD_alike {xs ys : Array Value} (h : SlotsAlike strict xs ys) (i : Nat) :
    (xs.getD i .none).Alike strict (ys.getD i .none) := by
  have hi := h i
  rw [Array.getD_eq_getD_getElem?, Array.getD_eq_getD_getElem?]
  revert hi
  generalize xs[i]? = x, ys[i]? = y
  rintro (hxy | -)
  · exact hxy
  · exact .refl _

/-- Storing values that are alike into the same slot. -/
theorem agree_storeSlot (id : ObjectId) (i : Nat) (hv : v.Alike strict v') :
    Agree strict (· = ·) (storeSlot id i v) (storeSlot id i v') := by
  refine .bind (.modify fun _ _ hh => hh.retainValue hv) fun _ _ _ => .bind .get fun h h' hh => ?_
  have hid := hh.get? id
  revert hid
  generalize h.get? id = o, h'.get? id = o'
  rintro (ho | -)
  · refine .bind (.modify fun _ _ hh => hh.modifyObject fun o o' _ ho => ?_) fun _ _ _ =>
      agree_discard (getD_alike ho.slots i).ref?_eq
    exact ho.withSlots (ho.slots.setIfInBounds hv)
  · exact .pure rfl

/-- Overwriting a slot by functions that lead from values which are alike to values which are alike. -/
theorem agree_overwriteSlot (kind : ObjectKind) (hv : v.Alike strict v') (i : Nat)
    {f g : Value → Value} (hfg : ∀ x y, x.Alike strict y → (f x).Alike strict (g y)) :
    Agree strict (· = ·) (overwriteSlot kind v i f) (overwriteSlot kind v' i g) := by
  refine .bind (agree_slotsOf kind hv) fun ⟨id, xs⟩ ⟨id', ys⟩ ⟨hid, hslots⟩ => ?_
  obtain rfl : id = id' := hid
  dsimp only
  rw [hslots.size_eq]
  split
  · refine .modify fun _ _ hh => hh.modifyObject fun o o' _ ho => ?_
    exact ho.withSlots (ho.slots.modify (fun x y _ hxy => hfg x y hxy) fun _ _ _ _ hxy => hxy)
  · exact .throw _

/-- Items at the same position of lists that are alike. -/
theorem agree_listItem (hv : v.Alike strict v') (i : Int64) :
    Agree strict (Value.Alike strict) (listItem v i) (listItem v' i) := by
  refine .bind (agree_slotsOf .list hv) fun ⟨_, xs⟩ ⟨_, ys⟩ ⟨_, hslots⟩ => ?_
  dsimp only
  rw [Pointwise.size_eq hslots]
  refine .bind (.lift (R := (· = ·)) fun _ => rfl) fun k _ hk => .pure ?_
  rw [hk]
  exact getD_alike hslots _

/-- Storing values that are alike into the same item of a list. -/
theorem agree_listSet (hv : v.Alike strict v') (i : Int64) (hw : w.Alike strict w') :
    Agree strict (· = ·) (listSet v i w) (listSet v' i w') := by
  refine .bind (agree_slotsOf .list hv) fun ⟨id, xs⟩ ⟨id', ys⟩ ⟨hid, hslots⟩ => ?_
  obtain rfl : id = id' := hid
  dsimp only
  rw [Pointwise.size_eq hslots]
  refine .bind (.lift (R := (· = ·)) fun _ => rfl) fun k _ hk => ?_
  rw [hk]
  exact agree_storeSlot _ _ hw

/-! ### Arrays -/

/-- Arrays with words of their own are the same in both heaps: the words of an array are never told apart. -/
theorem plain?_eq {h h' : Heap} (hh : h.Alike strict h') (id : ObjectId) :
    (h.get? id).bind Object.plain? = (h'.get? id).bind Object.plain? := by
  have hid := hh.get? id
  revert hid
  generalize h.get? id = o, h'.get? id = o'
  rintro (ho | -)
  · cases ho <;> rfl
  · rfl

/-- Copying out does the same on both sides, however many bases the view is away from its words. -/
theorem agree_materializeAt (depth : Nat) (id : ObjectId) :
    Agree strict (· = ·) (materializeAt depth id) (materializeAt depth id) := by
  induction depth generalizing id with
  | zero => exact .throw _
  | succ depth ih =>
    refine .bind .get fun h h' hh => ?_
    have hid := hh.get? id
    revert hid
    generalize h.get? id = o, h'.get? id = o'
    rintro (@⟨o, o', ho⟩ | -)
    · cases ho with
      | list => exact .throw _
      | tuple => exact .throw _
      | record => exact .throw _
      | refl =>
        cases o with
        | string => exact .throw _
        | list => exact .throw _
        | tuple => exact .throw _
        | record => exact .throw _
        | array a =>
          dsimp only
          cases a.data with
          | plain => exact .pure rfl
          | view base starts =>
            refine .bind (ih base) fun _ _ _ => .bind .get fun h h' hh => ?_
            rw [plain?_eq hh base]
            cases (h'.get? base).bind Object.plain? with
            | none => exact .throw _
            | some b =>
              dsimp only
              split
              · exact .throw _
              · split
                · exact .throw _
                · rw [PlainArray.fetchWindow_eq, pure_bind]
                  refine .bind (.modify fun _ _ hh => hh.modifyObject fun _ _ _ _ => .refl _) ?_
                  exact fun _ _ _ => .modify fun _ _ hh => hh.dropAll _
    · exact .throw _

/-- Copying out an array does the same on both sides. -/
theorem agree_materialize (id : ObjectId) :
    Agree strict (· = ·) (materialize id) (materialize id) := by
  refine .bind .get fun h h' hh => ?_
  rw [hh.size_eq]
  exact agree_materializeAt _ _

/-- An array looked up on both sides is the same. -/
theorem agree_plainArray (hv : v.Alike strict v') :
    Agree strict (· = ·) (plainArray v) (plainArray v') := by
  refine .bind (agree_objectOf .array hv) fun ⟨id, o⟩ ⟨id', o'⟩ ⟨hid, _⟩ => ?_
  obtain rfl : id = id' := hid
  refine .bind (agree_materialize id) fun _ _ _ => .bind .get fun h h' hh => ?_
  rw [plain?_eq hh id]
  cases (h'.get? id).bind Object.plain? with
  | none => exact .throw _
  | some a => exact .pure rfl

/-- Its values are the same. -/
theorem agree_arrayValues (hv : v.Alike strict v') :
    Agree strict (· = ·) (arrayValues v) (arrayValues v') := by
  rw [arrayValues_eq, arrayValues_eq]
  exact .bind (agree_plainArray hv) fun _ _ hp => .pure (by rw [hp])

/-! ### Kinds of arrays -/

/-- Every array of `h'` was there in `h`, with the same kind of elements. -/
def KeepsKinds (h h' : Heap) : Prop :=
  ∀ id a, h'.get? id = some (.array a) → ∃ b, h.get? id = some (.array b) ∧ b.kind = a.kind

/-- A heap keeps its own kinds. -/
theorem KeepsKinds.refl (h : Heap) : KeepsKinds h h := fun _ a ha => ⟨a, ha, rfl⟩

/-- Kinds that are kept twice are kept. -/
theorem KeepsKinds.trans {h k l : Heap} (hk : KeepsKinds h k) (hl : KeepsKinds k l) :
    KeepsKinds h l := by
  intro id a ha
  obtain ⟨b, hb, hba⟩ := hl id a ha
  obtain ⟨c, hc, hcb⟩ := hk id b hb
  exact ⟨c, hc, hcb.trans hba⟩

/-- A cell that was there before, set back. -/
theorem get?_of_get?_setIfInBounds {h : Heap} {id j : ObjectId} {c : Option Cell} {o : Object}
    (hc : ∀ d, c = some d → h.get? j = some d.object)
    (ho : Heap.get? ⟨h.cells.setIfInBounds j c⟩ id = some o) : h.get? id = some o := by
  unfold get? cell? at ho
  rw [Array.getElem?_setIfInBounds] at ho
  by_cases hj : j = id
  · rw [if_pos hj] at ho
    split at ho
    · cases c with
      | none => simp at ho
      | some d =>
        rw [← hj, hc d rfl]
        simpa using ho
    · simp at ho
  · rw [if_neg hj] at ho
    exact ho

/-- Objects that are still there after references were dropped are unchanged. -/
theorem get?_of_get?_dropAll {h : Heap} {work : List ObjectId} {id : ObjectId} {o : Object}
    (ho : (h.dropAll work).get? id = some o) : h.get? id = some o := by
  induction h, work using Heap.dropAll_induction with
  | nil h =>
    rw [Heap.dropAll] at ho
    exact ho
  | missing h j rest hc ih =>
    rw [Heap.dropAll_cons, hc] at ho
    exact ih ho
  | last h j rest c hc hrefs ih =>
    rw [Heap.dropAll_cons, hc] at ho
    dsimp only at ho
    rw [if_pos hrefs] at ho
    exact get?_of_get?_setIfInBounds (by simp) (ih ho)
  | shared h j rest c hc hrefs ih =>
    rw [Heap.dropAll_cons, hc] at ho
    dsimp only at ho
    rw [if_neg hrefs] at ho
    refine get?_of_get?_setIfInBounds ?_ (ih ho)
    rintro _ ⟨⟩
    simp [get?, hc]

/-- Changing one object leaves the others as they are. -/
theorem get?_modifyObject (h : Heap) (id j : ObjectId) (f : Object → Object) :
    (h.modifyObject id f).get? j = if id = j then (h.get? j).map f else h.get? j := by
  unfold get? cell? modifyObject
  rw [Array.getElem?_modify]
  split
  · rcases h.cells[j]? with _ | _ | c <;> rfl
  · rfl

/-- Taking a reference changes no object. -/
theorem get?_retain (h : Heap) (id j : ObjectId) : (h.retain id).get? j = h.get? j := by
  unfold get? cell? retain
  rw [Array.getElem?_modify]
  split
  · rcases h.cells[j]? with _ | _ | c <;> rfl
  · rfl

/-- Dropping references changes no kind. -/
theorem keepsKinds_dropAll (h : Heap) (work : List ObjectId) : KeepsKinds h (h.dropAll work) :=
  fun _ a ha => ⟨a, get?_of_get?_dropAll ha, rfl⟩

/-- From heaps with `P` an operation that ends normally ends with `Q`. -/
def Ensures {α : Type} (P : Heap → Prop) (m : HeapM α) (Q : α → Heap → Prop) : Prop :=
  ∀ h, P h → ∀ a k, m h = .ok a k → Q a k

namespace Ensures

variable {α β : Type} {P : Heap → Prop} {Q : α → Heap → Prop} {R : β → Heap → Prop}

/-- Actions in sequence, where success is all that is asked about. -/
theorem bind {m : HeapM α} {f : α → HeapM β} (hm : Ensures P m Q)
    (hf : ∀ a, Ensures (Q a) (f a) R) : Ensures P (m >>= f) R := by
  intro h hP b l hl
  change EStateM.bind m f h = .ok b l at hl
  unfold EStateM.bind at hl
  cases hk : m h with
  | ok a k =>
    rw [hk] at hl
    exact hf a k (hm h hP a k hk) b l hl
  | error e k =>
    rw [hk] at hl
    cases hl

/-- Returning a value for which the postcondition holds. -/
theorem pure {a : α} (h : ∀ k, P k → Q a k) : Ensures P (pure a) Q := by
  rintro k hk _ _ ⟨⟩
  exact h k hk

/-- A failure ensures anything. -/
theorem throw (e : ErrorCode) : Ensures P (throw e) Q := by
  rintro _ _ _ _ ⟨⟩

/-- Reading the heap gives a heap in which the precondition holds. -/
theorem get : Ensures P get fun a k => a = k ∧ P k := by
  rintro k hk _ _ ⟨⟩
  exact ⟨rfl, hk⟩

/-- Changing the heap by a function that leads from the precondition to the postcondition. -/
theorem modify {f : Heap → Heap} {Q : Heap → Prop} (h : ∀ k, P k → Q (f k)) :
    Ensures P (modify f) fun _ => Q := by
  rintro k hk _ _ ⟨⟩
  exact h k hk

/-- What the heaps before tell can be used throughout. -/
theorem assuming {φ : Prop} {m : HeapM α} (hφ : ∀ k, P k → φ) (h : φ → Ensures P m Q) :
    Ensures P m Q := fun k hk => h (hφ k hk) k hk

/-- A precondition can be strengthened. -/
theorem weaken {P' : Heap → Prop} {m : HeapM α} (h : Ensures P' m Q) (hP : ∀ k, P k → P' k) :
    Ensures P m Q := fun k hk => h k (hP k hk)

end Ensures

/-- An array may be replaced by one of its kind. -/
theorem KeepsKinds.modifyObject {h k : Heap} (hk : KeepsKinds h k) {id : ObjectId} {a : ArrayObject}
    (hid : ∃ b, h.get? id = some (.array b) ∧ b.kind = a.kind) :
    KeepsKinds h (k.modifyObject id fun _ => .array a) := by
  intro j c hc
  rw [get?_modifyObject] at hc
  split at hc
  · rename_i hj
    subst hj
    obtain ⟨o, -, ⟨⟩⟩ := Option.map_eq_some_iff.1 hc
    exact hid
  · exact hk j c hc

/-- Copying views out keeps the kinds of arrays. -/
theorem ensures_materializeAt (depth : Nat) (id : ObjectId) (h : Heap) :
    Ensures (KeepsKinds h) (materializeAt depth id) fun _ => KeepsKinds h := by
  induction depth generalizing id with
  | zero => exact .throw _
  | succ depth ih =>
    refine .bind .get fun k => ?_
    split
    · rename_i a ha
      split
      · exact .pure fun _ hk => hk.2
      · rename_i base starts hdata
        refine .assuming (fun _ hk => hk.2 id a (hk.1 ▸ ha)) fun hid => ?_
        refine .bind ((ih base).weaken fun _ hk => hk.2) fun _ => .bind .get fun k => ?_
        split
        · exact .throw _
        · dsimp only
          split
          · exact .bind (.throw (Q := fun _ _ => False) _) fun _ _ hk => hk.elim
          · split
            · exact .bind (.throw (Q := fun _ _ => False) _) fun _ _ hk => hk.elim
            · rw [PlainArray.fetchWindow_eq, pure_bind]
              refine .bind (.modify fun k hk => hk.2.modifyObject hid) fun _ => .modify fun k hk => ?_
              exact hk.trans (keepsKinds_dropAll k [base])
    · exact .throw _

/-- An object with words of its own is an array of the kind it says. -/
theorem kind_of_plain? {o : Object} {a : PlainArray} (h : o.plain? = some a) :
    ∃ c, o = .array c ∧ c.kind = a.kind := by
  cases o with
  | string => cases h
  | list => cases h
  | tuple => cases h
  | record => cases h
  | array c =>
    refine ⟨c, rfl, ?_⟩
    unfold Object.plain? at h
    dsimp only at h
    split at h
    · cases h
      rfl
    · cases h

/-- **The array behind a value has the kind its object had.** -/
theorem kind_of_plainArray {v : Value} {h k : Heap} {id : ObjectId} {a : PlainArray}
    (hk : plainArray v h = .ok (id, a) k) :
    v = .object .array id ∧ ∃ b, h.get? id = some (.array b) ∧ b.kind = a.kind := by
  have hpost : Ensures (· = h) (plainArray v) fun p _ =>
      v = .object .array p.1 ∧ ∃ b, h.get? p.1 = some (.array b) ∧ b.kind = p.2.kind := by
    have hobject : Ensures (· = h) (objectOf .array v) fun p k => v = .object .array p.1 ∧ k = h := by
      unfold objectOf
      split
      · refine .bind .get fun k => ?_
        split
        · split
          · rename_i hkind
            exact .pure fun _ hk => ⟨by rw [hkind], hk.2⟩
          · exact .throw _
        · exact .throw _
      · exact .throw _
    refine .bind hobject fun ⟨id, _⟩ => .assuming (fun _ hk => hk.1) fun hv => ?_
    have hmat : Ensures (fun k => v = .object .array id ∧ k = h) (materialize id) fun _ =>
        KeepsKinds h := .bind .get fun k => (ensures_materializeAt _ id h).weaken fun l hl => by
      rw [hl.2.2]
      exact .refl h
    refine .bind hmat fun _ => .bind .get fun k => ?_
    split
    · rename_i a ha
      obtain ⟨o, ho, hplain⟩ := Option.bind_eq_some_iff.1 ha
      obtain ⟨c, rfl, hc⟩ := kind_of_plain? hplain
      refine .pure fun l hl => ⟨hv, ?_⟩
      obtain ⟨b, hb, hbc⟩ := hl.2 id c (hl.1 ▸ ho)
      exact ⟨b, hb, hbc.trans hc⟩
    · exact .throw _
  exact hpost h rfl _ _ hk

/-- Elements at the same place are the same. -/
theorem agree_elementBy (hv : v.Alike strict v') (place : Extents → Except ErrorCode Nat) :
    Agree strict (· = ·) (elementBy v place) (elementBy v' place) := by
  refine .bind (agree_plainArray hv) fun p _ hp => ?_
  subst hp
  exact .bind (.lift fun _ => rfl) fun _ _ hi => .pure (by rw [hi])

/-- The words of an element cover the words of the array's kind. -/
theorem setElementAt_congr {kind : ElementKind} {words : Array UInt64} {i : Nat} {x y : Words}
    (h : Words.Same kind.scalar x y) : setElementAt kind words i x = setElementAt kind words i y := by
  unfold setElementAt
  cases kind with
  | int => rw [h.1]
  | float => rw [h.1]
  | complex => rw [h.eq_of_complex]

/-- Storing words into an array; what is stored into an array of complex numbers has to agree in
both words. -/
theorem ends_setElementBy {h h' : Heap} (hh : h.Alike strict h') (hv : v.Alike strict v')
    (place : Extents → Except ErrorCode Nat) {x y : Words}
    (hxy : ∀ id a, v = .object .array id → h.get? id = some (.array a) →
      Words.Same a.kind.scalar x y) :
    Ends (fun a b k k' => a = b ∧ k.Alike strict k') (Heap.Alike strict)
      (setElementBy v place x h) (setElementBy v' place y h') := by
  have hplain : Ends (fun p p' k k' => (p = p' ∧ k.Alike strict k') ∧ Words.Same p.2.kind.scalar x y)
      (Heap.Alike strict) (plainArray v h) (plainArray v' h') := by
    refine (agree_plainArray hv h h' hh).and_left fun ⟨id, a⟩ k hk => ?_
    obtain ⟨hid, b, hb, hkind⟩ := kind_of_plainArray hk
    exact hkind ▸ hxy id b hid hb
  refine Ends.bind hplain fun ⟨id, a⟩ _ k k' ⟨⟨hp, hk⟩, hsame⟩ => ?_
  subst hp
  refine Ends.bind (Q := fun p p' l l' => p = p' ∧ p = (id, a.kind, a.toExtents) ∧ l.Alike strict l')
    ⟨rfl, rfl, hk⟩ fun _ _ k k' ⟨hp, hpart, hk⟩ => ?_
  subst hp hpart
  refine Ends.bind (Agree.lift (R := (· = ·)) (fun _ => rfl) k k' hk) fun i _ k k' ⟨hi, hk⟩ => ?_
  subst hi
  refine ⟨rfl, hk.modifyObject fun o o' _ ho => ?_⟩
  cases ho with
  | list slots => exact .list slots
  | tuple slots => exact .tuple slots
  | record slots => exact .record slots
  | refl =>
    have hset : o.setElement a.kind i x = o.setElement a.kind i y := by
      unfold Object.setElement
      split
      · rw [setElementAt_congr hsame]
      · rfl
    rw [hset]
    exact .refl _

/-- An element read under the kind of its array. -/
theorem ends_wordsBy {h h' : Heap} (hh : h.Alike strict h') (hv : v.Alike strict v')
    (place : Extents → Except ErrorCode Nat) {access : ElementKind}
    (hkind : ∀ id a, v = .object .array id → h.get? id = some (.array a) → a.kind = access) :
    Ends (fun x w k k' => w = x.words ∧ k.Alike strict k') (Heap.Alike strict)
      (elementBy v place h) (wordsBy access v' place h') := by
  have hplain : Ends (fun p p' k k' => (p = p' ∧ k.Alike strict k') ∧ p.2.kind = access)
      (Heap.Alike strict) (plainArray v h) (plainArray v' h') := by
    refine (agree_plainArray hv h h' hh).and_left fun ⟨id, a⟩ k hk => ?_
    obtain ⟨hid, b, hb, hb'⟩ := kind_of_plainArray hk
    exact hb' ▸ hkind id b hid hb
  refine Ends.bind hplain ?_
  rintro ⟨id, a⟩ _ k k' ⟨⟨rfl, hk⟩, rfl⟩
  refine Ends.bind (Agree.lift (R := (· = ·)) (fun _ => rfl) k k' hk) ?_
  rintro i _ l l' ⟨rfl, hl⟩
  refine ⟨?_, hl⟩
  change elementAt a.kind a.words i = (Value.ofElement a.kind (elementAt a.kind a.words i)).words
  cases a.kind <;> rfl

/-- Arrays of one kind, in heaps that are alike. -/
theorem kind_of_alike {h h' : Heap} (hh : h.Alike strict h') (hv : v.Alike strict v') {kind : ElementKind}
    (hkind : ∀ id a, v = .object .array id → h.get? id = some (.array a) → a.kind = kind) {id : ObjectId}
    {a : ArrayObject} (hv' : v' = .object .array id) (ha : h'.get? id = some (.array a)) : a.kind = kind := by
  subst hv'
  have hv : v = .object .array id := by
    cases hv
    rfl
  refine hkind id a hv ?_
  have hid := hh.get? id
  rw [ha] at hid
  cases ho : h.get? id with
  | none =>
    rw [ho] at hid
    cases hid
  | some o =>
    rw [ho] at hid
    cases hid with
    | some halike =>
      cases halike
      rfl

/-- Storing under the kind of the array is storing as the array has it. -/
theorem setWordsBy_eq {h : Heap} {place : Extents → Except ErrorCode Nat} {access : ElementKind} (w : Words)
    (hkind : ∀ id a, v = .object .array id → h.get? id = some (.array a) → a.kind = access) :
    setWordsBy access v place w h = setElementBy v place w h := by
  unfold setWordsBy setElementBy
  change EStateM.bind (plainArray v) _ h = EStateM.bind (plainArray v) _ h
  unfold EStateM.bind
  cases hk : plainArray v h with
  | error e k => rfl
  | ok p k =>
    obtain ⟨id, a⟩ := p
    obtain ⟨hid, b, hb, hb'⟩ := kind_of_plainArray hk
    have ha : a.kind = access := hb' ▸ hkind id b hid hb
    subst ha
    rfl

/-- Operands taken up on both sides are the same. -/
theorem agree_operand (hv : v.Alike strict v') : Agree strict (· = ·) (operand v) (operand v') := by
  unfold operand
  rw [← hv.tag_eq, ← hv.number?_eq]
  split
  · exact .bind (agree_plainArray hv) fun _ _ hp => .pure (by rw [hp])
  · cases v.number? with
    | none => exact .throw _
    | some n => exact .pure rfl

/-- Arithmetic on arrays gives the same value on both sides. -/
theorem agree_arrayArith (op : ArithOp) (hv : v.Alike strict v') (hw : w.Alike strict w') :
    Agree strict (· = ·) (arrayArith op v w) (arrayArith op v' w') := by
  refine .bind (agree_operand hv) fun p _ hp => .bind (agree_operand hw) fun q _ hq => ?_
  subst hp hq
  rw [combine_eq]
  refine .bind (.lift (R := (· = ·)) fun _ => rfl) fun a _ ha => ?_
  subst ha
  exact agree_new (.refl _)

/-- The bytes of strings that are alike are the same. -/
theorem bytes?_eq {h h' : Heap} (hh : h.Alike strict h') (hv : v.Alike strict v') :
    h.bytes? v = h'.bytes? v' := by
  cases hv with
  | scalar => rfl
  | refl =>
    rcases v with _ | _ | ⟨k, id⟩
    · rfl
    · rfl
    · cases k with
      | array => rfl
      | list => rfl
      | tuple => rfl
      | object => rfl
      | string =>
        have hid := hh.get? id
        dsimp only [bytes?]
        revert hid
        generalize h.get? id = o, h'.get? id = o'
        rintro (ho | -)
        · cases ho <;> rfl
        · rfl

/-- Other values than strings count as empty. -/
theorem bytesOrEmpty_eq_getD (h : Heap) (v : Value) : h.bytesOrEmpty v = (h.bytes? v).getD #[] := by
  rcases v with _ | _ | ⟨k, id⟩
  · rfl
  · rfl
  · cases k with
    | array => rfl
    | list => rfl
    | tuple => rfl
    | object => rfl
    | string =>
      dsimp only [bytesOrEmpty, bytes?]
      rcases h.get? id with _ | o
      · rfl
      · cases o <;> rfl

/-- So they are with other values counted as empty. -/
theorem bytesOrEmpty_eq {h h' : Heap} (hh : h.Alike strict h') (hv : v.Alike strict v') :
    h.bytesOrEmpty v = h'.bytesOrEmpty v' := by
  rw [bytesOrEmpty_eq_getD, bytesOrEmpty_eq_getD, bytes?_eq hh hv]

/-- Joining strings gives the same string on both sides. -/
theorem agree_concat (hv : v.Alike strict v') (hw : w.Alike strict w') :
    Agree strict (· = ·) (concat v w) (concat v' w') := by
  refine .bind .get fun h h' hh => ?_
  rw [bytesOrEmpty_eq hh hv, bytesOrEmpty_eq hh hw]
  exact agree_new (.refl _)

/-- Generic arithmetic gives the same value on both sides, since numbers have no second word that matters. -/
theorem agree_genericArith (op : ArithOp) (hv : v.Alike strict v') (hw : w.Alike strict w') :
    Agree strict (· = ·) (genericArith op v w) (genericArith op v' w') := by
  unfold genericArith
  rw [← hv.tag_eq, ← hw.tag_eq, ← hv.number?_eq, ← hw.number?_eq]
  split
  · exact agree_arrayArith op hv hw
  · split
    · exact agree_concat hv hw
    · cases v.number? with
      | none => exact .throw _
      | some m =>
        cases w.number? with
        | none => exact .throw _
        | some n => exact .bind (.lift fun _ => rfl) fun _ _ hr => .pure (by rw [hr])

/-- With an array, or nothing where an array is declared, generic arithmetic is elementwise. -/
theorem genericArith_eq_arrayArith (op : ArithOp) {x y : Value}
    (h : (x.tag = .array ∨ x = .none) ∨ (y.tag = .array ∨ y = .none)) :
    genericArith op x y = arrayArith op x y := by
  unfold genericArith
  by_cases harray : (x.tag = .array || y.tag = .array) = true
  · rw [if_pos harray]
  · rw [if_neg harray]
    have hx : x.tag ≠ .array := fun hx => harray (by simp [hx])
    have hy : y.tag ≠ .array := fun hy => harray (by simp [hy])
    have hnone : x = .none ∨ y = .none := h.imp (·.resolve_left hx) (·.resolve_left hy)
    rw [if_neg (by rcases hnone with rfl | rfl <;> simp [Value.tag])]
    unfold arrayArith operand
    rw [if_neg hx, if_neg hy]
    rcases hnone with rfl | rfl
    · rfl
    · cases x.number? <;> rfl

/-- The numbers of an operand are the same on both sides. -/
theorem agree_sourceNumber (hv : v.Alike strict v') (q : Operand) (i : Nat) :
    Agree strict (· = ·) (sourceNumber v q i) (sourceNumber v' q i) := by
  cases q with
  | scalar n => exact .pure rfl
  | array _ =>
    refine .bind .get fun h h' hh => ?_
    rw [← hv.ref?_eq]
    cases v.ref? with
    | none => exact .throw _
    | some id =>
      dsimp only [Option.bind_some]
      rw [plain?_eq hh id]
      cases (h'.get? id).bind Object.plain? with
      | none => exact .throw _
      | some b => exact .pure rfl

/-- Storing the same words in the same element. -/
theorem agree_storeAs (access : ElementKind) (id : ObjectId) (i : Nat) (x : Words) :
    Agree strict (· = ·) (storeAs access id i x) (storeAs access id i x) := by
  rw [storeAs_eq]
  refine .modify fun _ _ hh => hh.modifyObject fun o o' _ ho => ?_
  cases ho with
  | list slots => exact .list slots
  | tuple slots => exact .tuple slots
  | record slots => exact .record slots
  | refl => exact .refl _

/-- Assigning to all elements does the same on both sides. -/
theorem agree_assignAll (hv : v.Alike strict v') (hw : w.Alike strict w') :
    Agree strict (· = ·) (assignAll v w) (assignAll v' w') := by
  refine .bind (agree_plainArray hv) fun ⟨id, a⟩ _ hp => .bind (agree_operand hw) fun q _ hq => ?_
  subst hp hq
  have hloop : Agree strict (· = ·) ((List.range a.count).forM (assignOne id a.kind w q))
      ((List.range a.count).forM (assignOne id a.kind w' q)) := by
    refine .forM _ fun i => .bind (agree_sourceNumber hw q i) fun n _ hn => ?_
    subst hn
    refine .bind (.lift (R := (· = ·)) fun _ => rfl) fun m _ hm => ?_
    subst hm
    exact agree_storeAs _ _ _ _
  cases q with
  | scalar n => exact hloop
  | array b =>
    dsimp only
    split
    · exact .throw _
    · exact hloop

/-! ### Strings and sizes -/

/-- Strings that are alike compare in the same way. -/
theorem compareStrings_eq {h h' : Heap} (hh : h.Alike strict h') (hv : v.Alike strict v')
    (hw : w.Alike strict w') : h.compareStrings v w = h'.compareStrings v' w' := by
  unfold compareStrings
  rw [bytesOrEmpty_eq hh hv, bytesOrEmpty_eq hh hw]

/-- The byte at an index is the same. -/
theorem agree_charAt (hv : v.Alike strict v') (i : Int64) :
    Agree strict (· = ·) (charAt v i) (charAt v' i) := by
  refine .bind .get fun h h' hh => ?_
  rw [bytes?_eq hh hv]
  cases h'.bytes? v' with
  | none => exact .throw _
  | some bytes => exact .bind (.lift fun _ => rfl) fun _ _ hk => .pure (by rw [hk])

/-- Replacing the same byte gives values that are alike. -/
theorem agree_setChar (hv : v.Alike strict v') (i ch : Int64) :
    Agree strict (Value.Alike strict) (setChar v i ch) (setChar v' i ch) := by
  refine .bind .get fun h h' hh => ?_
  rw [bytes?_eq hh hv, ← hv.ref?_eq]
  cases h'.bytes? v' with
  | none => exact .throw _
  | some bytes =>
    cases hid : v.ref? with
    | none => exact .throw _
    | some id =>
      refine .bind (.lift (R := (· = ·)) fun _ => rfl) fun k _ hk => .bind .get fun h h' hh => ?_
      subst hk
      rw [hh.refCount_eq]
      split
      · refine .bind (agree_new (.refl _)) fun fresh _ hfresh => ?_
        subst hfresh
        exact .bind (agree_discard hv.ref?_eq) fun _ _ _ => .pure (.refl _)
      · refine .bind (.modify fun _ _ hh => hh.modifyObject fun o o' _ ho => ?_) fun _ _ _ => .pure hv
        cases ho with
        | refl => exact .refl _
        | list slots => exact .list slots
        | tuple slots => exact .tuple slots
        | record slots => exact .record slots

/-- Sizes are the same. -/
theorem agree_size (hv : v.Alike strict v') : Agree strict (· = ·) (size v) (size v') := by
  refine .bind .get fun h h' hh => ?_
  rw [← hv.ref?_eq]
  cases v.ref? with
  | none => exact .throw _
  | some id =>
    have hid := hh.get? id
    dsimp only [Option.bind]
    revert hid
    generalize h.get? id = o, h'.get? id = o'
    rintro (@⟨o, o', ho⟩ | -)
    · cases ho with
      | list slots => exact .pure (by rw [Pointwise.size_eq slots])
      | tuple => exact .throw _
      | record => exact .throw _
      | refl =>
        cases o with
        | string => exact .pure rfl
        | array => exact .pure rfl
        | list => exact .pure rfl
        | tuple => exact .throw _
        | record => exact .throw _
    · exact .throw _

/-- Values that are alike count as true or not alike. -/
theorem truthy_eq {h h' : Heap} (hh : h.Alike strict h') (hv : v.Alike strict v') :
    h.truthy v = h'.truthy v' := by
  cases hv with
  | @scalar t w w' _ narrow lo => cases t <;> simp_all [truthy, Words.bool]
  | refl v =>
    rcases v with _ | ⟨t, w⟩ | ⟨k, id⟩
    · rfl
    · cases t <;> rfl
    · cases k with
      | string => simp only [truthy, bytesOrEmpty_eq hh (.refl _)]
      | array => rfl
      | list => rfl
      | tuple => rfl
      | object => rfl

/-! ### Text -/

/-- Slots that are alike, as lists. -/
theorem forall₂_toList {xs ys : Array Value} (h : SlotsAlike strict xs ys) :
    List.Forall₂ (Value.Alike strict) xs.toList ys.toList := by
  rw [List.forall₂_iff_get]
  refine ⟨by simpa using Pointwise.size_eq h, fun i hi hi' => ?_⟩
  have hx : xs[i]? = some (xs.toList.get ⟨i, hi⟩) := by simp at hi; simp [hi]
  obtain ⟨y, hy, hxy⟩ := Pointwise.exists_of_some h hx
  have hy' : ys[i]? = some (ys.toList.get ⟨i, hi'⟩) := by simp at hi'; simp [hi']
  rw [hy', Option.some.injEq] at hy
  rwa [hy]

/-- The text of values that are alike is the same, however deep it goes. -/
theorem agree_textAt (depth : Nat) (hv : v.Alike strict v') :
    Agree strict (· = ·) (textAt depth v) (textAt depth v') := by
  have hitems : ∀ {h h' : Heap}, h.Alike strict h' → ∀ id,
      List.Forall₂ (Value.Alike strict) (((h.get? id).map Object.slots).getD #[]).toList
        (((h'.get? id).map Object.slots).getD #[]).toList := by
    intro h h' hh id
    have hid := hh.get? id
    revert hid
    generalize h.get? id = o, h'.get? id = o'
    rintro (ho | -)
    · exact forall₂_toList ho.slots
    · exact .nil
  induction depth generalizing v v' with
  | zero => exact .pure rfl
  | succ depth ih =>
    cases hv with
    | @scalar t w w' _ narrow lo =>
      cases t with
      | complex => exact absurd rfl narrow
      | bool => exact .pure (by rw [Words.bool, Words.bool, lo])
      | int => exact .pure (by rw [Words.int, Words.int, lo])
      | enum => exact .pure (by rw [Words.int, Words.int, lo])
      | float => exact .pure (by rw [lo])
    | refl =>
      rcases v with _ | ⟨t, w⟩ | ⟨k, id⟩
      · exact .pure rfl
      · cases t <;> exact .pure rfl
      · cases k with
        | string => exact .bind .get fun h h' hh => .pure (by rw [bytesOrEmpty_eq hh (.refl _)])
        | array =>
          refine .bind (.attempt (agree_arrayValues (.refl _))) fun p _ hp => ?_
          subst hp
          cases p with
          | error => exact .pure rfl
          | ok values =>
            have hitems : List.Forall₂ (Value.Alike strict) values values :=
              List.forall₂_same.2 fun _ _ => .refl _
            exact .bind (.mapM hitems fun _ _ => ih) fun _ _ htexts => .pure (by rw [htexts])
        | list =>
          exact .bind .get fun h h' hh => .bind (.mapM (hitems hh id) fun _ _ => ih)
            fun _ _ htexts => .pure (by rw [htexts])
        | tuple =>
          exact .bind .get fun h h' hh => .bind (.mapM (hitems hh id) fun _ _ => ih)
            fun _ _ htexts => .pure (by rw [htexts])
        | object =>
          refine .bind .get fun h h' hh => ?_
          have hid := hh.get? id
          revert hid
          generalize h.get? id = o, h'.get? id = o'
          rintro (@⟨o, o', ho⟩ | -)
          · cases ho with
            | refl => cases o <;> exact .pure rfl
            | list => exact .pure rfl
            | tuple => exact .pure rfl
            | record => exact .pure rfl
          · exact .pure rfl

/-- The text of values that are alike is the same. -/
theorem agree_text (hv : v.Alike strict v') : Agree strict (· = ·) (text v) (text v') := by
  refine .bind .get fun h h' hh => ?_
  rw [hh.size_eq]
  exact agree_textAt _ hv

end Heap

end RegisterVM
