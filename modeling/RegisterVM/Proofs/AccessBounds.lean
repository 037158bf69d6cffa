import RegisterVM.Proofs.ArrayOperations

/-!
# Accesses to the data of arrays

Every operation that reads or writes elements says of each access whether it is inside the data (`DataAccess`). What an
access outside of it does is open. An operation is *contained* on the heaps of an invariant if it does the same whatever
that is (`Heap.Contained`): it makes no access outside of the data.

In shaped heaps all operations on arrays are contained. A place that an index stands for is a place of the shape, the
offsets that a view selects are places of its base, and the loops run over the places of a shape. Assigning to an
array goes back to the array for every element, so that one has to stay where it is: it does as long as references are
counted.
-/

namespace RegisterVM

namespace Heap

variable {ε α β : Type} {I J : Heap → Prop}

/-- **No access outside of the data is made**, from no heap of the invariant. -/
def Contained (I : Heap → Prop) (m : DataAccess → EStateM ε Heap α) : Prop :=
  ∀ access h, I h → m access h = m .unchecked h

namespace Contained

/-- What does not access data at all. -/
theorem const (m : EStateM ε Heap α) : Contained I fun _ => m := fun _ _ _ => rfl

/-- What is contained from the heaps of an invariant is so from those of a stronger one. -/
theorem mono {m : DataAccess → EStateM ε Heap α} (hm : Contained I m) (hJ : ∀ h, J h → I h) : Contained J m :=
  fun access h hh => hm access h (hJ h hh)

/-- One operation after the other: the second starts where the first may end. -/
theorem bind {m : DataAccess → EStateM ε Heap α} {f : DataAccess → α → EStateM ε Heap β} {Q : α → Heap → Prop}
    {E : ε → Heap → Prop} (hm : Contained I m) (htriple : Triple I (m .unchecked) Q E)
    (hf : ∀ a, Contained (Q a) fun access => f access a) : Contained I fun access => m access >>= f access := by
  intro access h hh
  have hend := htriple h hh
  refine (bind_eq_of_eq (hm access h hh) (f access)).trans ?_
  cases hmh : m .unchecked h with
  | ok a k =>
    rw [hmh] at hend
    exact (bind_of_ok hmh).trans ((hf a access k hend).trans (bind_of_ok hmh).symm)
  | error e k => exact (bind_of_error hmh).trans (bind_of_error hmh).symm

/-- What is done with the result accesses no data. -/
theorem bind_const {m : DataAccess → EStateM ε Heap α} (hm : Contained I m) (f : α → EStateM ε Heap β) :
    Contained I fun access => m access >>= f :=
  fun access h hh => bind_eq_of_eq (hm access h hh) f

/-- What is known of the heap may be used. -/
theorem assuming {m : DataAccess → EStateM ε Heap α} {φ : Prop} (hφ : ∀ h, I h → φ) (hm : φ → Contained I m) :
    Contained I m :=
  fun access h hh => hm (hφ h hh) access h hh

/-- What follows a look at the heap may rely on the heap it saw. -/
theorem get_bind {f : DataAccess → Heap → EStateM ε Heap β}
    (hf : ∀ h, I h → Contained (· = h) fun access => f access h) :
    Contained I fun access => get >>= f access :=
  fun access h hh => hf h hh access h rfl

/-- A loop makes no access outside of the data if no round does. -/
theorem mapM {xs : List α} {f : DataAccess → α → EStateM ε Heap β} (hkeeps : ∀ x ∈ xs, Keeps I (f .unchecked x))
    (hf : ∀ x ∈ xs, Contained I fun access => f access x) : Contained I fun access => xs.mapM (f access) := by
  induction xs with
  | nil => exact const (pure [])
  | cons x xs ih =>
    obtain ⟨hkx, hkeeps⟩ := List.forall_mem_cons.1 hkeeps
    obtain ⟨hx, hf⟩ := List.forall_mem_cons.1 hf
    simp only [List.mapM_cons]
    exact hx.bind hkx fun y => (ih hkeeps hf).bind_const _

/-- A loop is contained if every round is and keeps the invariant. -/
theorem forM {xs : List α} {f : DataAccess → α → EStateM ε Heap PUnit} (hkeeps : ∀ x ∈ xs, Keeps I (f .unchecked x))
    (hf : ∀ x ∈ xs, Contained I fun access => f access x) : Contained I fun access => xs.forM (f access) := by
  induction xs with
  | nil => exact const (pure PUnit.unit)
  | cons x xs ih =>
    obtain ⟨hkx, hkeeps⟩ := List.forall_mem_cons.1 hkeeps
    obtain ⟨hx, hf⟩ := List.forall_mem_cons.1 hf
    exact hx.bind hkx fun _ => ih hkeeps hf

/-- An attempt makes the accesses of the action. -/
theorem attempt {m : DataAccess → HeapM α} (hm : Contained I m) : Contained I fun access => attempt (m access) := by
  intro access h hh
  simp only [Heap.attempt, hm access h hh]

/-- An operation that runs to its end, or to a fault, makes the accesses of the action. -/
theorem running {m : DataAccess → HeapM α} (hm : Contained I m) : Contained I fun access => running (m access) := by
  intro access h hh
  simp only [Heap.running, hm access h hh]

end Contained

/-! ### Elements -/

variable {a : PlainArray}

/-- A place that the index of an element stands for is a place of the shape. -/
theorem lt_volume_of_place {i : ElementIndex} (ha : a.Shaped) {n : Nat} (h : i.place a.toExtents = .ok n) :
    n < a.dims.volume := by
  cases i with
  | single i => exact ha.fits.word_size ▸ Extents.lt_of_flatIndex h
  | multi is => exact ha.fits.layout.lt_volume_of_flatMultiIndex h

/-- An assignment from `src` to the array `a` at `id` is under way. -/
structure Assigning (id : ObjectId) (a : PlainArray) (src : Value) (source : Operand) (k : Heap) : Prop where
  shaped : k.Shaped
  target : ∃ b, k.get? id = some (.ofPlain b) ∧ b.toExtents = a.toExtents ∧ b.kind = a.kind
  offers : k.Offers src source

section

variable {id : ObjectId} {src : Value} {source : Operand} {k : Heap}

/-- An assignment is still under way after an element has been stored. -/
theorem Assigning.setElement (hk : Assigning id a src source k) (i : Nat) (w : Words) :
    Assigning id a src source (k.modifyObject id fun o => o.setElement a.kind i w) := by
  obtain ⟨b, hb, hextents, hkind⟩ := hk.target
  refine ⟨hk.shaped.setElement id a.kind i w, ?_, hk.offers.setElement id a.kind i w⟩
  refine ⟨{ b with words := setElementAt a.kind b.words i w }, ?_, hextents, hkind⟩
  rw [get?_modifyObject, if_pos rfl, hb]
  rfl

end

end Heap

/-! ### Operations on slots -/

namespace Exec

variable {α : Type} {s : State}

end Exec

open Exec

variable {s t : State} {held : List Value}

namespace SlotOperation

end SlotOperation

end RegisterVM
