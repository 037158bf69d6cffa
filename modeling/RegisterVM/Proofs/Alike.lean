import Mathlib
import RegisterVM.Heap.Basic

/-!
# Values that cannot be told apart

A scalar of one word has a second payload word nobody should look at. Two values are alike when they
are equal up to that word (`Value.Alike false`); in the strict sense alike means equal
(`Value.Alike true`). Slots, objects and heaps are alike when their values are, with the same objects
under the same names and the same numbers of references.

What reads a value as a scalar of some kind sees the same words in two values that are alike, except
that a complex reading of a one-word scalar sees the second word (`Value.Alike.same`).

`Ends` compares the ends of two runs of actions: both normal with related results, or the same
failure. Proofs go through actions by `Ends.bind`.
-/

namespace RegisterVM

/-! ### Pointwise relations -/

/-- Nothing is related to nothing only. -/
theorem eq_none_of_rel {α β : Type} {R : α → β → Prop} {y : Option β} (h : Option.Rel R none y) :
    y = none := by
  cases h
  rfl

/-- What something is related to is something. -/
theorem exists_of_rel {α β : Type} {R : α → β → Prop} {x : α} {y : Option β}
    (h : Option.Rel R (some x) y) : ∃ z, y = some z ∧ R x z := by
  cases h with
  | some hxz => exact ⟨_, rfl, hxz⟩

/-- Arrays of one size, related entry by entry. -/
def Pointwise {α β : Type} (R : Nat → α → β → Prop) (xs : Array α) (ys : Array β) : Prop :=
  ∀ i, Option.Rel (R i) xs[i]? ys[i]?

namespace Pointwise

variable {α β : Type} {R S : Nat → α → β → Prop} {xs : Array α} {ys : Array β}

/-- Arrays that are related have the same size. -/
theorem size_eq (h : Pointwise R xs ys) : xs.size = ys.size := by
  have hle : ∀ i, xs.size ≤ i ↔ ys.size ≤ i := by
    intro i
    have hi := h i
    rw [← Array.getElem?_eq_none_iff, ← Array.getElem?_eq_none_iff]
    revert hi
    generalize xs[i]? = x, ys[i]? = y
    rintro (hxy | -) <;> simp
  exact le_antisymm ((hle _).2 le_rfl) ((hle _).1 le_rfl)

/-- A member has a counterpart at the same index. -/
theorem exists_of_some (h : Pointwise R xs ys) {i : Nat} {x : α} (hx : xs[i]? = some x) :
    ∃ y, ys[i]? = some y ∧ R i x y := exists_of_rel (hx ▸ h i)

/-- Where one array ends, so does the other. -/
theorem eq_none (h : Pointwise R xs ys) {i : Nat} (hx : xs[i]? = none) : ys[i]? = none :=
  eq_none_of_rel (hx ▸ h i)

/-- The relation can be weakened at every index. -/
theorem mono (h : Pointwise R xs ys) (hRS : ∀ i x y, R i x y → S i x y) : Pointwise S xs ys := by
  intro i
  have hi := h i
  revert hi
  generalize xs[i]? = x, ys[i]? = y
  rintro (hxy | -)
  · exact .some (hRS i _ _ hxy)
  · exact .none

/-- Changing one entry on both sides. -/
theorem modify (h : Pointwise R xs ys) {i : Nat} {f : α → α} {g : β → β}
    (hfg : ∀ x y, xs[i]? = some x → R i x y → S i (f x) (g y))
    (hRS : ∀ j x y, j ≠ i → R j x y → S j x y) :
    Pointwise S (xs.modify i f) (ys.modify i g) := by
  intro j
  rw [Array.getElem?_modify, Array.getElem?_modify]
  have hj := h j
  by_cases hij : i = j
  · subst hij
    rw [if_pos rfl, if_pos rfl]
    cases hx : xs[i]? with
    | none =>
      rw [h.eq_none hx]
      exact .none
    | some x =>
      obtain ⟨y, hy, hxy⟩ := h.exists_of_some hx
      rw [hy]
      exact .some (hfg x y hx hxy)
  · rw [if_neg hij, if_neg hij]
    revert hj
    generalize xs[j]? = x, ys[j]? = y
    rintro (hxy | -)
    · exact .some (hRS j _ _ (Ne.symm hij) hxy)
    · exact .none

/-- Changing one entry on the left only. -/
theorem modify_left (h : Pointwise R xs ys) {i : Nat} {f : α → α}
    (hf : ∀ x y, xs[i]? = some x → R i x y → S i (f x) y) (hRS : ∀ j x y, j ≠ i → R j x y → S j x y) :
    Pointwise S (xs.modify i f) ys := by
  have hid : ys.modify i id = ys := by
    refine Array.ext_getElem? fun j => ?_
    rw [Array.getElem?_modify, Option.map_id_fun, id_eq, ite_self]
  rw [← hid]
  exact h.modify hf hRS

/-- Changing one entry on the right only. -/
theorem modify_right (h : Pointwise R xs ys) {i : Nat} {g : β → β}
    (hg : ∀ x y, xs[i]? = some x → R i x y → S i x (g y)) (hRS : ∀ j x y, j ≠ i → R j x y → S j x y) :
    Pointwise S xs (ys.modify i g) := by
  have hid : xs.modify i id = xs := by
    refine Array.ext_getElem? fun j => ?_
    rw [Array.getElem?_modify, Option.map_id_fun, id_eq, ite_self]
  rw [← hid]
  exact h.modify hg hRS

/-- Related members put in the same place. -/
theorem setIfInBounds (h : Pointwise R xs ys) {i : Nat} {x : α} {y : β} (hxy : R i x y) :
    Pointwise R (xs.setIfInBounds i x) (ys.setIfInBounds i y) := by
  intro j
  rw [Array.getElem?_setIfInBounds, Array.getElem?_setIfInBounds, h.size_eq]
  by_cases hij : i = j
  · subst hij
    rw [if_pos rfl, if_pos rfl]
    split
    · exact .some hxy
    · exact .none
  · rw [if_neg hij, if_neg hij]
    exact h j

/-- Related members put at the end. -/
theorem push (h : Pointwise R xs ys) {x : α} {y : β} (hxy : R xs.size x y) :
    Pointwise R (xs.push x) (ys.push y) := by
  intro j
  rw [Array.getElem?_push, Array.getElem?_push, h.size_eq]
  split
  · rename_i hj
    rw [hj, ← h.size_eq]
    exact .some hxy
  · exact h j

/-- What related entries agree on, all entries agree on. -/
theorem map_eq {γ : Type} (h : Pointwise R xs ys) {f : α → γ} {g : β → γ}
    (hfg : ∀ i x y, R i x y → f x = g y) : xs.map f = ys.map g := by
  refine Array.ext_getElem? fun i => ?_
  rw [Array.getElem?_map, Array.getElem?_map]
  have hi := h i
  revert hi
  generalize xs[i]? = x, ys[i]? = y
  rintro (hxy | -)
  · exact congrArg some (hfg i _ _ hxy)
  · rfl

/-- Arrays with the same members are equal. -/
theorem eq {ys : Array α} (h : Pointwise (fun _ => (· = ·)) xs ys) : xs = ys := by
  have := h.map_eq (f := id) (g := id) fun _ _ _ h => h
  simpa using this

/-- A relation that is reflexive at every index is so for arrays. -/
theorem refl {R : Nat → α → α → Prop} (hR : ∀ i x, R i x x) (xs : Array α) : Pointwise R xs xs := by
  intro i
  cases xs[i]? with
  | none => exact .none
  | some x => exact .some (hR i x)

end Pointwise

/-! ### Words -/

/-- The same scalar of a kind: the words the kind uses are equal. -/
def Words.Same (kind : ScalarKind) (w w' : Words) : Prop :=
  w.lo = w'.lo ∧ (kind = .complex → w.hi = w'.hi)

namespace Words.Same

variable {kind : ScalarKind} {w w' : Words}

/-- Words are the same as themselves. -/
theorem rfl' : Words.Same kind w w := ⟨rfl, fun _ => rfl⟩

/-- Being the same is symmetric. -/
theorem symm (h : Words.Same kind w w') : Words.Same kind w' w := ⟨h.1.symm, fun hk => (h.2 hk).symm⟩

/-- The same words are the same integer. -/
theorem int_eq (h : Words.Same kind w w') : w.int = w'.int := by rw [Words.int, h.1, Words.int]

/-- The same words are the same truth value. -/
theorem bool_eq (h : Words.Same kind w w') : w.bool = w'.bool := by rw [Words.bool, h.1, Words.bool]

/-- Both lanes of a complex number count. -/
theorem eq_of_complex (h : Words.Same .complex w w') : w = w' := by
  cases w
  cases w'
  rw [Words.mk.injEq]
  exact ⟨h.1, h.2 rfl⟩

end Words.Same

/-! ### Values -/

namespace Value

/-- A scalar that uses one word. -/
def IsNarrow : Value → Prop
  | scalar t _ => t ≠ .complex
  | _ => False

def IsScalar : Value → Prop
  | scalar _ _ => True
  | _ => False

/-- Equal, or, unless `strict`, one-word scalars that differ in the second word only. -/
inductive Alike (strict : Bool) : Value → Value → Prop
  | refl (v : Value) : Alike strict v v
  | scalar {t : ScalarTag} {w w' : Words} (loose : strict = false) (narrow : t ≠ .complex)
      (lo : w.lo = w'.lo) : Alike strict (.scalar t w) (.scalar t w')

namespace Alike

variable {strict : Bool} {v v' : Value}

/-- In the strict sense, alike means equal. -/
theorem eq_of_strict (h : v.Alike true v') : v = v' := by
  cases h with
  | refl => rfl
  | scalar loose => cases loose

/-- Values that are alike have the same tag. -/
theorem tag_eq (h : v.Alike strict v') : v.tag = v'.tag := by cases h <;> rfl

/-- They refer to the same object, if to any. -/
theorem ref?_eq (h : v.Alike strict v') : v.ref? = v'.ref? := by cases h <;> rfl

/-- They pass the same checks of tags. -/
theorem hasTag_eq (h : v.Alike strict v') (expected : Option Tag) :
    v.hasTag expected = v'.hasTag expected := by
  unfold hasTag
  rw [h.tag_eq]

/-- They have the same first word. -/
theorem lo_eq (h : v.Alike strict v') : v.words.lo = v'.words.lo := by
  cases h with
  | refl => rfl
  | scalar _ _ lo => exact lo

/-- They are the same integer, if they are one. -/
theorem int?_eq (h : v.Alike strict v') : v.int? = v'.int? := by
  cases h with
  | refl => rfl
  | @scalar t w w' _ _ lo => cases t <;> simp [int?, Words.int, lo]

/-- They are the same number, if they are one. -/
theorem number?_eq (h : v.Alike strict v') : v.number? = v'.number? := by
  cases h with
  | refl => rfl
  | @scalar t w w' _ narrow lo => cases t <;> simp_all [number?, Words.int]

/-- Both are scalars or neither is. -/
theorem isScalar_iff (h : v.Alike strict v') : v.IsScalar ↔ v'.IsScalar := by
  cases h <;> exact Iff.rfl

/-- Read as a scalar of a kind, values that are alike have the same words, unless a one-word scalar
is read as a complex number. -/
theorem same (h : v.Alike strict v') {kind : ScalarKind}
    (hwide : strict = true ∨ kind ≠ .complex ∨ ¬v.IsNarrow) :
    Words.Same kind v.words v'.words := by
  cases h with
  | refl => exact .rfl'
  | scalar loose narrow lo =>
    refine ⟨lo, fun hkind => ?_⟩
    rcases hwide with hstrict | hwide | hwide
    · rw [loose] at hstrict
      cases hstrict
    · exact absurd hkind hwide
    · exact absurd narrow hwide

end Alike

end Value

/-! ### Objects and heaps -/

/-- Arrays of values that are alike. -/
abbrev SlotsAlike (strict : Bool) : Array Value → Array Value → Prop :=
  Pointwise fun _ => Value.Alike strict

/-- Slots that are alike hold the same references. -/
theorem SlotsAlike.refs_eq {strict : Bool} {xs ys : Array Value} (h : SlotsAlike strict xs ys) :
    xs.toList.filterMap Value.ref? = ys.toList.filterMap Value.ref? := by
  have hmap : xs.map Value.ref? = ys.map Value.ref? := h.map_eq fun _ _ _ hv => hv.ref?_eq
  have hlist := congrArg Array.toList hmap
  rw [Array.toList_map, Array.toList_map] at hlist
  have hrefs := congrArg (List.filterMap id) hlist
  rwa [List.filterMap_map, List.filterMap_map] at hrefs

/-- Objects that are equal, or of one kind with slots that are alike. -/
inductive Object.Alike (strict : Bool) : Object → Object → Prop
  | refl (o : Object) : Alike strict o o
  | list {xs ys : Array Value} (slots : SlotsAlike strict xs ys) : Alike strict (.list xs) (.list ys)
  | tuple {xs ys : Array Value} (slots : SlotsAlike strict xs ys) :
      Alike strict (.tuple xs) (.tuple ys)
  | record {c : UInt32} {xs ys : Array Value} (slots : SlotsAlike strict xs ys) :
      Alike strict (.record c xs) (.record c ys)

/-- Slots are alike to themselves. -/
theorem SlotsAlike.refl {strict : Bool} (xs : Array Value) : SlotsAlike strict xs xs :=
  Pointwise.refl (fun _ v => .refl v) xs

/-- In the strict sense, slots that are alike are equal. -/
theorem SlotsAlike.eq_of_strict {xs ys : Array Value} (h : SlotsAlike true xs ys) : xs = ys :=
  Pointwise.eq (h.mono fun _ _ _ hv => hv.eq_of_strict)

namespace Object.Alike

variable {strict : Bool} {o o' : Object}

/-- Objects that are alike have slots that are alike. -/
theorem slots (h : o.Alike strict o') : SlotsAlike strict o.slots o'.slots := by
  cases h with
  | refl => exact .refl _
  | list slots => exact slots
  | tuple slots => exact slots
  | record slots => exact slots

/-- In the strict sense, objects that are alike are equal. -/
theorem eq_of_strict (h : o.Alike true o') : o = o' := by
  cases h with
  | refl => rfl
  | list slots => rw [SlotsAlike.eq_of_strict slots]
  | tuple slots => rw [SlotsAlike.eq_of_strict slots]
  | record slots => rw [SlotsAlike.eq_of_strict slots]

/-- They are of the same kind. -/
theorem kind_eq (h : o.Alike strict o') : o.kind = o'.kind := by cases h <;> rfl

/-- They refer to the same objects. -/
theorem references_eq (h : o.Alike strict o') : o.references = o'.references := by
  cases h with
  | refl => rfl
  | list slots => exact SlotsAlike.refs_eq slots
  | tuple slots => exact SlotsAlike.refs_eq slots
  | record slots => exact SlotsAlike.refs_eq slots

/-- Objects that are alike stay so with slots that are alike put into them. -/
theorem withSlots (h : o.Alike strict o') {xs ys : Array Value} (hslots : SlotsAlike strict xs ys) :
    (o.withSlots xs).Alike strict (o'.withSlots ys) := by
  cases h with
  | list => exact .list hslots
  | tuple => exact .tuple hslots
  | record => exact .record hslots
  | refl o =>
    cases o with
    | string => exact .refl _
    | array => exact .refl _
    | list => exact .list hslots
    | tuple => exact .tuple hslots
    | record => exact .record hslots

end Object.Alike

/-- Objects that are alike, with as many references. -/
def Cell.Alike (strict : Bool) (c c' : Cell) : Prop :=
  c.refs = c'.refs ∧ c.object.Alike strict c'.object

/-- Heaps with objects that are alike under the same names. -/
def Heap.Alike (strict : Bool) (h h' : Heap) : Prop :=
  Pointwise (fun _ => Option.Rel (Cell.Alike strict)) h.cells h'.cells

namespace Heap.Alike

variable {strict : Bool} {h h' : Heap}

/-- A heap is alike to itself. -/
theorem refl (h : Heap) : h.Alike strict h := by
  refine Pointwise.refl (fun _ cell => ?_) _
  cases cell with
  | none => exact .none
  | some c => exact .some ⟨rfl, .refl _⟩

/-- In the strict sense, heaps that are alike are equal. -/
theorem eq_of_strict (hh : h.Alike true h') : h = h' := by
  have hcells : h.cells = h'.cells := by
    refine Pointwise.eq (hh.mono fun _ c c' hc => ?_)
    cases hc with
    | none => rfl
    | @some c c' hc =>
      cases c
      cases c'
      rw [Option.some.injEq, Cell.mk.injEq]
      exact ⟨hc.1, hc.2.eq_of_strict⟩
  cases h
  cases h'
  exact congrArg Heap.mk hcells

/-- They have as many cells. -/
theorem size_eq (hh : h.Alike strict h') : h.cells.size = h'.cells.size := Pointwise.size_eq hh

/-- Cells of the same name are alike. -/
theorem cell? (hh : h.Alike strict h') (id : ObjectId) :
    Option.Rel (Cell.Alike strict) (h.cell? id) (h'.cell? id) := by
  have hid := hh id
  unfold Heap.cell?
  revert hid
  generalize h.cells[id]? = c, h'.cells[id]? = c'
  rintro (hc | -)
  · exact hc
  · exact .none

/-- Objects of the same name are alike. -/
theorem get? (hh : h.Alike strict h') (id : ObjectId) :
    Option.Rel (Object.Alike strict) (h.get? id) (h'.get? id) := by
  have hid := hh.cell? id
  unfold Heap.get?
  revert hid
  generalize h.cell? id = c, h'.cell? id = c'
  rintro (hc | -)
  · exact .some hc.2
  · exact .none

/-- Objects of the same name have as many references. -/
theorem refCount_eq (hh : h.Alike strict h') (id : ObjectId) : h.refCount id = h'.refCount id := by
  have hid := hh.cell? id
  unfold Heap.refCount
  revert hid
  generalize h.cell? id = c, h'.cell? id = c'
  rintro (hc | -)
  · exact congrArg UInt32.toNat hc.1
  · rfl

/-- New objects that are alike get the same name, and the heaps stay alike. -/
theorem allocate (hh : h.Alike strict h') {o o' : Object} (ho : o.Alike strict o') :
    (h.allocate o).1 = (h'.allocate o').1 ∧
      Heap.Alike strict (h.allocate o).2 (h'.allocate o').2 :=
  ⟨hh.size_eq, Pointwise.push hh (.some ⟨rfl, ho⟩)⟩

/-- Heaps stay alike if objects that are alike are changed in ways that keep them so. -/
theorem modifyObject (hh : h.Alike strict h') {id : ObjectId} {f g : Object → Object}
    (hfg : ∀ o o', h.get? id = some o → o.Alike strict o' → (f o).Alike strict (g o')) :
    Heap.Alike strict (h.modifyObject id f) (h'.modifyObject id g) := by
  refine Pointwise.modify hh ?_ fun _ _ _ _ hc => hc
  intro c c' hid hc
  cases hc with
  | none => exact .none
  | @some c c' hc =>
    refine .some ⟨hc.1, hfg _ _ ?_ hc.2⟩
    simp [Heap.get?, Heap.cell?, hid]

/-- Taking a reference to values that are alike keeps heaps alike. -/
theorem retainValue (hh : h.Alike strict h') {v v' : Value} (hv : v.Alike strict v') :
    Heap.Alike strict (h.retainValue v) (h'.retainValue v') := by
  unfold Heap.retainValue
  rw [← hv.ref?_eq]
  cases v.ref? with
  | none => exact hh
  | some id =>
    refine Pointwise.modify hh ?_ fun _ _ _ _ hc => hc
    intro c c' _ hc
    cases hc with
    | none => exact .none
    | some hc => exact .some ⟨congrArg (· + 1) hc.1, hc.2⟩

end Heap.Alike

/-! ### Dropping references -/

/-- One entry of the work list, by what the cell holds. -/
theorem Heap.dropAll_cons (h : Heap) (id : ObjectId) (rest : List ObjectId) :
    h.dropAll (id :: rest) =
      match h.cell? id with
      | none => h.dropAll rest
      | some c =>
        if c.refs = 1 then
          Heap.dropAll ⟨h.cells.setIfInBounds id none⟩ (c.object.references ++ rest)
        else Heap.dropAll ⟨h.cells.setIfInBounds id (some { c with refs := c.refs - 1 })⟩ rest := by
  rw [dropAll]
  by_cases hid : id < h.cells.size
  · rw [dif_pos hid, cell?, Array.getElem?_eq_getElem hid]
    cases hc : h.cells[id] with
    | none => simp
    | some c => simp [Array.setIfInBounds, hid]
  · rw [dif_neg hid, cell?, Array.getElem?_eq_none (Nat.not_lt.1 hid)]
    rfl

/-- Induction along the work list, by what the cell of its first entry holds. -/
theorem Heap.dropAll_induction {P : Heap → List ObjectId → Prop} (nil : ∀ h, P h [])
    (missing : ∀ h id rest, h.cell? id = none → P h rest → P h (id :: rest))
    (last : ∀ h id rest c, h.cell? id = some c → c.refs = 1 →
      P ⟨h.cells.setIfInBounds id none⟩ (c.object.references ++ rest) → P h (id :: rest))
    (shared : ∀ h id rest c, h.cell? id = some c → ¬c.refs = 1 →
      P ⟨h.cells.setIfInBounds id (some { c with refs := c.refs - 1 })⟩ rest → P h (id :: rest))
    (h : Heap) (work : List ObjectId) : P h work := by
  have hset : ∀ (h : Heap) (id : ObjectId) (hid : id < h.cells.size) (cell : Option Cell),
      h.cells.set id cell hid = h.cells.setIfInBounds id cell := by
    intro h id hid cell
    simp [Array.setIfInBounds, hid]
  induction h, work using Heap.dropAll.induct with
  | case1 h => exact nil h
  | case2 h id rest hid hc ih => exact missing h id rest (by simp [Heap.cell?, hid, hc]) ih
  | case3 h id rest hid c hc hrefs ih =>
    rw [hset] at ih
    exact last h id rest c (by simp [Heap.cell?, hid, hc]) hrefs ih
  | case4 h id rest hid c hc hrefs ih =>
    rw [hset] at ih
    exact shared h id rest c (by simp [Heap.cell?, hid, hc]) hrefs ih
  | case5 h id rest hid ih =>
    exact missing h id rest (by simp [Heap.cell?, Nat.not_lt.1 hid]) ih

/-- **Dropping the same references keeps heaps alike.** -/
theorem Heap.Alike.dropAll {strict : Bool} {h h' : Heap} (hh : h.Alike strict h')
    (work : List ObjectId) : Heap.Alike strict (h.dropAll work) (h'.dropAll work) := by
  induction h, work using Heap.dropAll_induction generalizing h' with
  | nil h =>
    rw [Heap.dropAll, Heap.dropAll]
    exact hh
  | missing h id rest hc ih =>
    have hc' := eq_none_of_rel (hc ▸ hh.cell? id)
    rw [Heap.dropAll_cons, Heap.dropAll_cons, hc, hc']
    exact ih hh
  | last h id rest c hc hrefs ih =>
    obtain ⟨c', hc', hcc⟩ := exists_of_rel (hc ▸ hh.cell? id)
    rw [Heap.dropAll_cons, Heap.dropAll_cons, hc, hc']
    dsimp only
    rw [if_pos hrefs, if_pos (hcc.1 ▸ hrefs), ← hcc.2.references_eq]
    exact ih (Pointwise.setIfInBounds hh .none)
  | shared h id rest c hc hrefs ih =>
    obtain ⟨c', hc', hcc⟩ := exists_of_rel (hc ▸ hh.cell? id)
    rw [Heap.dropAll_cons, Heap.dropAll_cons, hc, hc']
    dsimp only
    rw [if_neg hrefs, if_neg (hcc.1 ▸ hrefs)]
    have hcell : Cell.Alike strict { c with refs := c.refs - 1 } { c' with refs := c'.refs - 1 } :=
      ⟨congrArg (· - 1) hcc.1, hcc.2⟩
    exact ih (Pointwise.setIfInBounds hh (.some hcell))

/-- Dropping values that refer to the same object, if to any, keeps heaps alike. -/
theorem Heap.Alike.dropValue {strict : Bool} {h h' : Heap} (hh : h.Alike strict h') {v v' : Value}
    (hv : v.ref? = v'.ref?) : Heap.Alike strict (h.dropValue v) (h'.dropValue v') := by
  unfold Heap.dropValue
  rw [← hv]
  cases v.ref? with
  | none => exact hh
  | some id => exact hh.dropAll [id]

/-! ### Ends of runs -/

section Ends

variable {ε σ τ α β γ δ : Type}

/-- Two runs end alike: both normally, with results and states related by `Q`, or both with the same
failure, in states related by `F`. -/
def Ends (Q : α → β → σ → τ → Prop) (F : σ → τ → Prop) :
    EStateM.Result ε σ α → EStateM.Result ε τ β → Prop
  | .ok a s, .ok b t => Q a b s t
  | .error e s, .error e' t => e = e' ∧ F s t
  | _, _ => False

/-- A sequence that ends normally does so in both parts. -/
theorem exists_of_bind_eq_ok {m : EStateM ε σ α} {f : α → EStateM ε σ γ} {s t : σ} {c : γ}
    (h : (m >>= f) s = .ok c t) : ∃ a u, m s = .ok a u ∧ f a u = .ok c t := by
  change EStateM.bind m f s = .ok c t at h
  unfold EStateM.bind at h
  cases hs : m s with
  | ok a u =>
    rw [hs] at h
    exact ⟨a, u, rfl, h⟩
  | error e u =>
    rw [hs] at h
    cases h

/-- A sequence goes on with the result of its first action. -/
theorem bind_of_ok {m : EStateM ε σ α} {f : α → EStateM ε σ γ} {s t : σ} {a : α}
    (h : m s = .ok a t) : (m >>= f) s = f a t := by
  change EStateM.bind m f s = _
  unfold EStateM.bind
  rw [h]

/-- A sequence fails if its first action does. -/
theorem bind_of_error {m : EStateM ε σ α} {f : α → EStateM ε σ γ} {s t : σ} {e : ε}
    (h : m s = .error e t) : (m >>= f) s = .error e t := by
  change EStateM.bind m f s = _
  unfold EStateM.bind
  rw [h]

/-- The first action of a sequence can be replaced by one that does the same here. -/
theorem bind_eq_of_eq {m m' : EStateM ε σ α} {s : σ} (h : m s = m' s) (f : α → EStateM ε σ γ) :
    (m >>= f) s = (m' >>= f) s := by
  change EStateM.bind m f s = EStateM.bind m' f s
  unfold EStateM.bind
  rw [h]

namespace Ends

variable {Q : α → β → σ → τ → Prop} {Q' : γ → δ → σ → τ → Prop} {F : σ → τ → Prop}

/-- An action on one side only, which does not fail. -/
theorem of_left {m : EStateM ε σ α} {f : α → EStateM ε σ γ} {s t : σ} {a : α} {y : EStateM.Result ε τ δ}
    (hm : m s = .ok a t) (h : Ends Q' F (f a t) y) : Ends Q' F ((m >>= f) s) y :=
  (bind_of_ok hm).symm ▸ h

/-- What a sequence on the right comes to, if its first action succeeds. -/
theorem of_right {m : EStateM ε τ β} {f : β → EStateM ε τ δ} {s t : τ} {b : β}
    {x : EStateM.Result ε σ γ} (hm : m s = .ok b t) (h : Ends Q' F x (f b t)) :
    Ends Q' F x ((m >>= f) s) :=
  (bind_of_ok hm).symm ▸ h

/-- One action after another. -/
theorem bind {m : EStateM ε σ α} {m' : EStateM ε τ β} {f : α → EStateM ε σ γ}
    {f' : β → EStateM ε τ δ} {s : σ} {t : τ} (hm : Ends Q F (m s) (m' t))
    (hf : ∀ a b s t, Q a b s t → Ends Q' F (f a s) (f' b t)) :
    Ends Q' F ((m >>= f) s) ((m' >>= f') t) := by
  change Ends Q' F (EStateM.bind m f s) (EStateM.bind m' f' t)
  unfold EStateM.bind
  cases hs : m s <;> cases ht : m' t <;> rw [hs, ht] at hm
  · exact hf _ _ _ _ hm
  · exact hm.elim
  · exact hm.elim
  · exact hm

/-- A result the right side computes further. -/
theorem map_right {x : EStateM.Result ε σ γ} {m : EStateM ε τ β} {f : β → δ} {t : τ}
    {P : γ → β → σ → τ → Prop} (h : Ends P F x (m t)) (hP : ∀ c b s t, P c b s t → Q' c (f b) s t) :
    Ends Q' F x ((m >>= fun b => pure (f b)) t) := by
  change Ends Q' F x (EStateM.bind m (fun b => pure (f b)) t)
  unfold EStateM.bind
  cases hs : m t <;> rw [hs] at h <;> cases x
  · exact hP _ _ _ _ h
  · exact h
  · exact h
  · exact h

/-- What is asked of results and of failures can be weakened. -/
theorem mono {x : EStateM.Result ε σ α} {y : EStateM.Result ε τ β} {P : α → β → σ → τ → Prop}
    {G : σ → τ → Prop} (h : Ends P G x y) (hP : ∀ a b s t, P a b s t → Q a b s t)
    (hG : ∀ s t, G s t → F s t) : Ends Q F x y := by
  cases x <;> cases y
  · exact hP _ _ _ _ h
  · exact h
  · exact h
  · exact ⟨h.1, hG _ _ h.2⟩

/-- What is known of a normal end on the left. -/
theorem and_left {x : EStateM.Result ε σ α} {y : EStateM.Result ε τ β} {G : α → σ → Prop}
    (h : Ends Q F x y) (hG : ∀ a s, x = .ok a s → G a s) :
    Ends (fun a b s t => Q a b s t ∧ G a s) F x y := by
  cases x <;> cases y
  · exact ⟨h, hG _ _ rfl⟩
  · exact h
  · exact h
  · exact h

end Ends

end Ends

end RegisterVM
