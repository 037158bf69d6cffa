import Mathlib.Data.Fintype.Card
import RegisterVM.Proofs.ArrayOperations

/-!
# Copying out succeeds exactly for arrays that denote something

A chain of bases visits different cells, so it is shorter than the heap (`Heap.ReadsAt.lt_size`), and the depth to which
views are followed is enough: an array that denotes something can be copied out (`Heap.exists_materialize`).

Copying out may free the bases of views, so one array can only be relied on after another has been copied out if
somebody holds it: a root does, and so does an item of a container that is held (`Heap.Held`). What is held is still
there in a settled heap and denotes what it denoted. In this way the operands of an operation are all known before it
starts (`Heap.Stands`), although it copies them out one after the other.
-/

namespace RegisterVM
namespace Heap

variable {h k : Heap} {id : ObjectId} {roots : List ObjectId} {a : PlainArray}

/-! ### Depth -/

/-- On the way to the words there is an array at every distance. -/
theorem ReadsAt.exists_le {n m : Nat} (ha : h.ReadsAt n id a) (hm : m ≤ n) : ∃ j b, h.ReadsAt m j b := by
  induction ha with
  | plain hid =>
    obtain rfl : m = 0 := Nat.le_zero.1 hm
    exact ⟨_, _, .plain hid⟩
  | view hid hbase hlength hfits ih =>
    rcases Nat.le_or_eq_of_le_succ hm with hle | rfl
    · exact ih hle
    · exact ⟨_, _, .view hid hbase hlength hfits⟩

/-- What denotes an array has a cell. -/
theorem ReadsAt.lt_size_of_self {n : Nat} (ha : h.ReadsAt n id a) : id < h.cells.size := by
  cases ha with
  | plain hid => exact lt_size_of_get? hid
  | view hid => exact lt_size_of_get? hid.get?_eq

/-- **A chain of bases is shorter than the heap**: its cells are at different distances from the words. -/
theorem ReadsAt.lt_size {n : Nat} (ha : h.ReadsAt n id a) : n < h.cells.size := by
  have hchain (m : Fin (n + 1)) : ∃ j : Fin h.cells.size, ∃ b, h.ReadsAt m j b := by
    obtain ⟨j, b, hb⟩ := ha.exists_le (Nat.le_of_lt_succ m.isLt)
    exact ⟨⟨j, hb.lt_size_of_self⟩, b, hb⟩
  choose f hf using hchain
  have hinj : Function.Injective f := by
    intro m m' heq
    obtain ⟨b, hb⟩ := hf m
    obtain ⟨b', hb'⟩ := hf m'
    rw [heq] at hb
    exact Fin.ext (hb.unique hb').1
  have hcard := Fintype.card_le_of_injective f hinj
  rwa [Fintype.card_fin, Fintype.card_fin] at hcard

/-! ### Success -/

section

variable {base : ObjectId} {v : ArrayObject} {starts : List Int64} {b : PlainArray} {depth : Nat}

/-- Copying a view out of a base that has been copied out. -/
theorem materializeAt_view (hid : h.ViewAt id v base starts) (hcopy : materializeAt depth base h = .ok () k)
    (hbase : k.get? base = some (.ofPlain b)) (hlength : b.axes.length = v.axes.length) :
    materializeAt (depth + 1) id h =
      if b.dims.windowFits starts v.dims = true then
        .ok () ((k.modifyObject id fun _ => .ofPlain (b.extract v starts)).dropAll [base])
      else .error .index k := by
  obtain ⟨hget, hdata⟩ := hid
  unfold materializeAt
  rw [get_bind, hget]
  dsimp only
  rw [hdata]
  dsimp only
  rw [bind_of_ok hcopy, get_bind, hbase]
  change (if b.axes.length ≠ v.axes.length then _ else _ : HeapM Unit) k = _
  rw [if_neg (not_not.2 hlength), PlainArray.fetchWindow_eq]
  cases b.dims.windowFits starts v.dims <;> rfl

/-- An array with its own words is not copied out. -/
theorem materializeAt_plain (hid : h.get? id = some (.ofPlain a)) : materializeAt (depth + 1) id h = .ok () h := by
  unfold materializeAt
  rw [get_bind, hid]
  rfl

/-- What denotes something can be copied out by going to its words. -/
theorem ReadsAt.exists_materializeAt {n : Nat} (ha : h.ReadsAt n id a) (hdepth : n < depth) :
    ∃ k, materializeAt depth id h = .ok () k := by
  induction ha generalizing depth with
  | plain hid =>
    obtain ⟨depth, rfl⟩ := Nat.exists_eq_add_of_lt hdepth
    exact ⟨h, materializeAt_plain hid⟩
  | @view n id base v starts b hid hbase hlength hfits ih =>
    obtain ⟨depth, rfl⟩ : ∃ m, depth = m + 1 := ⟨depth - 1, by omega⟩
    obtain ⟨l, hl⟩ := ih (Nat.lt_of_succ_lt_succ hdepth)
    obtain ⟨-, _, b', hreads, hbase', -⟩ := (triple_materializeAt _ base).ok rfl hl
    obtain ⟨-, rfl⟩ := hbase.unique hreads
    exact ⟨_, (materializeAt_view hid hl hbase' hlength).trans (if_pos hfits)⟩

end

/-- **An array that denotes something can be copied out.** The heap settles, and the array is there with its words. -/
theorem exists_materialize (ha : h.Denotes id a) :
    ∃ k, materialize id h = .ok () k ∧ h.Settles k ∧ k.get? id = some (.ofPlain a) := by
  obtain ⟨n, hn⟩ := ha
  obtain ⟨k, hk⟩ : ∃ k, materializeAt (h.cells.size + 1) id h = .ok () k :=
    hn.exists_materializeAt (hn.lt_size.trans (Nat.lt_succ_self _))
  obtain ⟨hsettles, _, a', hreads, hget, -⟩ := (triple_materializeAt _ id).ok rfl hk
  obtain ⟨-, rfl⟩ := hn.unique hreads
  exact ⟨k, hk, hsettles, hget⟩

/-- The next cell is free. -/
theorem get?_size (h : Heap) : h.get? h.cells.size = none := by
  by_contra hsome
  obtain ⟨o, ho⟩ := Option.ne_none_iff_exists'.1 hsome
  exact absurd (lt_size_of_get? ho) (Nat.lt_irrefl _)

/-- An object denotes at most one array. -/
theorem Denotes.unique {b : PlainArray} (ha : h.Denotes id a) (hb : h.Denotes id b) : a = b :=
  ha.elim fun _ hn => hb.elim fun _ hm => (hn.unique hm).2

/-- What denotes an array is there. -/
theorem Denotes.isSome (ha : h.Denotes id a) : (h.get? id).isSome := by
  obtain ⟨n, hn⟩ := ha
  cases hn with
  | plain hid => rw [hid]; rfl
  | view hid => rw [hid.get?_eq]; rfl

/-- **Looking an array up gives what it denotes**, and leaves it with its own words. -/
theorem exists_plainArray (ha : h.Denotes id a) :
    ∃ k, plainArray (.object .array id) h = .ok (id, a) k ∧ h.Settles k ∧ k.get? id = some (.ofPlain a) := by
  obtain ⟨o, ho⟩ := Option.isSome_iff_exists.1 ha.isSome
  obtain ⟨k, hk, hsettles, hget⟩ := exists_materialize ha
  have hobject : objectOf .array (.object .array id) h = .ok (id, o) h := by
    unfold objectOf
    dsimp only
    rw [get_bind, ho]
    rfl
  refine ⟨k, ?_, hsettles, hget⟩
  unfold plainArray
  rw [bind_of_ok hobject]
  dsimp only
  rw [bind_of_ok hk, get_bind, hget]
  rfl

/-- An array that has words of its own is looked at where it is. -/
theorem plainArray_of_plain (ha : h.get? id = some (.ofPlain a)) :
    plainArray (.object .array id) h = .ok (id, a) h := by
  have hobject : objectOf .array (.object .array id) h = .ok (id, .ofPlain a) h := by
    unfold objectOf
    dsimp only
    rw [get_bind, ha]
    rfl
  have hcopy : materialize id h = .ok () h := by
    unfold materialize
    rw [get_bind]
    exact materializeAt_plain ha
  unfold plainArray
  rw [bind_of_ok hobject]
  dsimp only
  rw [bind_of_ok hcopy, get_bind, ha]
  rfl

/-! ### What is held -/

/-- Somebody holds a reference to the object: a root, or an item of a container that is held itself. -/
inductive Held (h : Heap) (roots : List ObjectId) : ObjectId → Prop
  | root {id : ObjectId} : id ∈ roots → h.Held roots id
  | item {id j : ObjectId} {o : Object} : h.Held roots j → h.get? j = some o → (∀ a, o ≠ .array a) → id ∈ o.references →
    h.Held roots id

/-- A container that is still there has the items it had. -/
theorem Settles.get?_of_container (hk : h.Settles k) {o : Object} (ho : h.get? id = some o) (hne : ∀ a, o ≠ .array a)
    (hlive : (k.get? id).isSome) : k.get? id = some o := by
  obtain ⟨p, hp⟩ := Option.isSome_iff_exists.1 hlive
  rcases hk.object id p hp with hold | ⟨_, _, _, _, hview, -, -⟩
  · rw [hp, ← hold, ho]
  · exact absurd (Option.some.inj (ho.symm.trans hview.get?_eq)) (hne _)

/-- **What is held stays**, and stays held. -/
theorem Held.settled (hid : h.Held roots id) (hk : h.Settled roots k) : k.Held roots id ∧ (k.get? id).isSome := by
  induction hid with
  | root hmem => exact ⟨.root hmem, hk.counted.isSome_of_mem_roots hmem⟩
  | item _ ho hne hmem ih =>
    have ho' := hk.settles.get?_of_container ho hne ih.2
    exact ⟨.item ih.1 ho' hne hmem, hk.counted.isSome_of_mem_inner (mem_inner ho' hmem)⟩

/-- What is held denotes the same after settling. -/
theorem Held.denotes (hid : h.Held roots id) (hk : h.Settled roots k) (ha : h.Denotes id a) : k.Denotes id a :=
  (hk.denotes_iff (hid.settled hk).2 a).2 ha

/-! ### Operands -/

/-- What a value is as an operand of elementwise arithmetic or assignment: the array it denotes, or its number. -/
inductive Stands (h : Heap) (roots : List ObjectId) : Value → Operand → Prop
  | array {id : ObjectId} {a : PlainArray} :
    h.Held roots id → h.Denotes id a → h.Stands roots (.object .array id) (.array a)
  | scalar {tag : ScalarTag} {w : Words} {n : Number} : (Value.scalar tag w).number? = some n →
    h.Stands roots (.scalar tag w) (.scalar n)

variable {v : Value} {p : Operand}

/-- So does a value that stands for an operand. -/
theorem Stands.settled (hv : h.Stands roots v p) (hk : h.Settled roots k) : k.Stands roots v p := by
  cases hv with
  | array hid ha => exact .array (hid.settled hk).1 (hid.denotes hk ha)
  | scalar hn => exact .scalar hn

/-- A value that can be read without copying anything out: an array that has words of its own, or a number. -/
inductive Ready (h : Heap) : Value → Operand → Prop
  | array {id : ObjectId} {a : PlainArray} : h.get? id = some (.ofPlain a) → h.Ready (.object .array id) (.array a)
  | scalar {tag : ScalarTag} {w : Words} {n : Number} : (Value.scalar tag w).number? = some n →
    h.Ready (.scalar tag w) (.scalar n)

/-- **A value is read as what it stands for**, and nothing but settling happens. -/
theorem Stands.exists_operand (hv : h.Stands roots v p) (hh : h.Counted roots) :
    ∃ k, operand v h = .ok p k ∧ h.Settled roots k ∧ k.Ready v p := by
  cases hv with
  | @array id a hid ha =>
    obtain ⟨k, hk, hsettles, hget⟩ := exists_plainArray ha
    have htag : (Value.object .array id).tag = .array := rfl
    refine ⟨k, ?_, ⟨hsettles.counted roots hh, hsettles⟩, .array hget⟩
    unfold operand
    rw [if_pos htag, bind_of_ok hk]
    rfl
  | @scalar tag w n hn =>
    have htag : (Value.scalar tag w).tag ≠ .array := by cases tag <;> rintro ⟨⟩
    refine ⟨h, ?_, hh.settled, .scalar hn⟩
    unfold operand
    rw [if_neg htag, hn]
    rfl

end Heap
end RegisterVM
