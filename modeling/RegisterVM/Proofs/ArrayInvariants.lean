import RegisterVM.Proofs.Triples

/-!
# Operations that leave arrays alone

Copying values and dropping them, storing items and replacing bytes do nothing to the arrays of a heap, except that some
of them may go. An invariant of heaps that survives this much (`Heap.OfArrays`) is kept by all of these operations,
whichever way they end.
-/

namespace RegisterVM
namespace Heap

/-- An invariant that does not depend on counts or on objects other than arrays, and that arrays can be taken from. -/
structure OfArrays (I : Heap → Prop) : Prop where
  retain : ∀ k id, I k → I (k.retain id)
  dropAll : ∀ k work, I k → I (k.dropAll work)
  allocate : ∀ k o, (∀ a, o ≠ .array a) → I k → I (k.allocate o).2
  modifyObject : ∀ k id f, (∀ o a, f o = .array a ↔ o = .array a) → I k → I (k.modifyObject id f)

namespace OfArrays

variable {I : Heap → Prop} {k : Heap}

/-- Retaining a value keeps the invariant. -/
theorem retainValue (hI : OfArrays I) (v : Value) (hk : I k) : I (k.retainValue v) := by
  unfold Heap.retainValue
  split
  · exact hI.retain k _ hk
  · exact hk

/-- Dropping a value keeps the invariant. -/
theorem dropValue (hI : OfArrays I) (v : Value) (hk : I k) : I (k.dropValue v) := by
  unfold Heap.dropValue
  split
  · exact hI.dropAll k _ hk
  · exact hk

/-- Slots are not in arrays. -/
theorem withSlots (hI : OfArrays I) (id : ObjectId) (f : Object → Array Value) (hk : I k) :
    I (k.modifyObject id fun o => o.withSlots (f o)) := by
  refine hI.modifyObject k id _ (fun o a => ?_) hk
  cases o <;> simp [Object.withSlots]

/-- Replacing a byte of a string keeps the invariant. -/
theorem setByte (hI : OfArrays I) (id : ObjectId) (i : Nat) (b : UInt8) (hk : I k) :
    I (k.modifyObject id fun o => o.setByte i b) := by
  refine hI.modifyObject k id _ (fun o a => ?_) hk
  cases o <;> simp [Object.setByte]

variable (hI : OfArrays I)

include hI

/-- So does cloning a value. -/
theorem keeps_clone (v : Value) : Keeps I (clone v) :=
  .bind (.modify fun _ hk => hI.retainValue v hk) fun _ => .pure _

/-- So does giving one up. -/
theorem keeps_discard (v : Value) : Keeps I (discard v) := .modify fun _ hk => hI.dropValue v hk

/-- So does making an object that is no array. -/
theorem keeps_new {o : Object} (ho : ∀ a, o ≠ .array a) : Keeps I (new o) := fun k hk => hI.allocate k o ho hk

/-- So does joining strings. -/
theorem keeps_concat (x y : Value) : Keeps I (concat x y) := .bind Looks.get.keeps fun _ => hI.keeps_new nofun

/-- So does overwriting a slot of an object. -/
theorem keeps_overwriteSlot (kind : ObjectKind) (target : Value) (i : Nat) (f : Value → Value) :
    Keeps I (overwriteSlot kind target i f) := by
  refine .bind (looks_slotsOf kind target).keeps fun ⟨id, slots⟩ => ?_
  dsimp only
  split
  · exact .modify fun _ hk => hI.withSlots id (fun o => o.slots.modify i f) hk
  · exact .throw _

/-- So does taking an item out of a list. -/
theorem keeps_listGet (list : Value) (i : Int64) : Keeps I (listGet list i) :=
  .bind (looks_listItem list i).keeps fun _ => hI.keeps_clone _

/-- So does replacing an item of a list. -/
theorem keeps_listSet (list : Value) (i : Int64) (v : Value) : Keeps I (listSet list i v) := by
  refine .bind (looks_slotsOf .list list).keeps fun ⟨id, _⟩ => .bind (looks_lift _).keeps fun n => ?_
  refine .bind (.modify fun _ hk => hI.retainValue v hk) fun _ => .bind Looks.get.keeps fun k => ?_
  split
  · exact .bind (.modify fun _ hk => hI.withSlots id (fun o => o.slots.setIfInBounds n v) hk) fun _ =>
      hI.keeps_discard _
  · exact .pure _

/-- So does replacing a byte of a string in place or in a copy. -/
theorem keeps_setChar (v : Value) (i ch : Int64) : Keeps I (setChar v i ch) := by
  refine .bind Looks.get.keeps fun k => ?_
  split
  · refine .bind (looks_lift _).keeps fun n => .bind Looks.get.keeps fun k => ?_
    split
    · exact .bind (hI.keeps_new nofun) fun _ => .bind (hI.keeps_discard v) fun _ => .pure _
    · exact .bind (.modify fun _ hk => hI.setByte _ n _ hk) fun _ => .pure _
  · exact .throw _

end OfArrays

end Heap

end RegisterVM
