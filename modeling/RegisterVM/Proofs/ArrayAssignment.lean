import RegisterVM.Proofs.ElementwiseArithmetic

/-!
# Whole-array assignment

An array is assigned a scalar, or the elements of another array at the same positions. The source may be the array
itself, a view on it, the base it is a view of, or another view on that base. None of this matters: views are copied
out before anything is written, the target first, so the elements that are written are those the source denoted to
begin with.

Elements are read, converted and written one by one, so the source may change while it is read. It comes to the same
as reading the whole source first (`Heap.assignAtOnce`): an array that is copied out shares its words with no other,
and the elements of the target that have been written are not read again. The conversion of a number fails or not by
its kind alone (`Number.convert_cases`), so an assignment that fails has not written anything.
-/

namespace RegisterVM

namespace Heap

/-! ### Element by element -/

/-- Whole-array assignment that reads and converts the whole source before it writes anything. -/
def assignAtOnce (dst src : Value) : HeapM Unit := do
  let (id, a) ← plainArray dst
  let source ← operand src
  match source with
  | .array b => if b.dims ≠ a.dims then throw .shape
  | .scalar _ => pure ()
  let ns ← lift ((List.range a.count).mapM fun i => (source.number i).convert a.kind)
  modify (·.modifyObject id fun _ => .ofPlain ⟨a.toExtents, a.kind, packNumbers a.kind ns⟩)

variable {h k : Heap} {id : ObjectId} {roots : List ObjectId} {a : PlainArray} {src : Value} {q : Operand}

/-- Changing an object twice changes it once by both. -/
theorem modifyObject_modifyObject (h : Heap) (id : ObjectId) (f g : Object → Object) :
    (h.modifyObject id f).modifyObject id g = h.modifyObject id fun o => g (f o) := by
  unfold modifyObject
  congr 1
  refine Array.ext_getElem? fun j => ?_
  rw [Array.getElem?_modify, Array.getElem?_modify, Array.getElem?_modify]
  split
  · cases h.cells[j]? with
    | none => rfl
    | some cell => cases cell <;> rfl
  · rfl

/-- An object that is replaced by itself stays. -/
theorem modifyObject_self {o : Object} (ho : h.get? id = some o) : h.modifyObject id (fun _ => o) = h := by
  obtain ⟨c, hc, rfl⟩ := exists_cell?_of_get? ho
  have hcell := getElem?_of_cell? hc
  unfold modifyObject
  congr 1
  refine Array.ext_getElem? fun j => ?_
  rw [Array.getElem?_modify]
  split
  · rename_i hj
    rw [← hj, hcell]
    rfl
  · rfl

/-- The source is read as the operand it is, as long as position `n` of the target has not been written. -/
theorem sourceNumber_of_ready {c : PlainArray} {n : Nat} (hid : k.get? id = some (.ofPlain a)) (hsrc : k.Ready src q)
    (hkind : c.kind = a.kind) (hn : c.element n = a.element n) :
    sourceNumber src q n (k.modifyObject id fun _ => .ofPlain c) =
      .ok (q.number n) (k.modifyObject id fun _ => .ofPlain c) := by
  cases hsrc with
  | @array j b hj =>
    -- what is there now: the target as far as it has been written, or an array that is not written at all
    obtain ⟨d, hd, hnumber⟩ : ∃ d, (k.modifyObject id fun _ => .ofPlain c).get? j = some (.ofPlain d) ∧
        d.number n = b.number n := by
      by_cases heq : id = j
      · subst heq
        rw [hid] at hj
        cases Object.ofPlain_injective (Option.some.inj hj)
        refine ⟨c, ?_, ?_⟩
        · rw [get?_modifyObject, if_pos rfl, hid]
          rfl
        · unfold PlainArray.number
          rw [hkind, hn]
      · exact ⟨b, by rw [get?_modifyObject, if_neg heq, hj], rfl⟩
    unfold sourceNumber
    dsimp only [Value.ref?]
    rw [get_bind, Option.bind_some, hd]
    exact congrArg (EStateM.Result.ok · _) hnumber
  | scalar hm => rfl

end Heap

/-- An array in the middle of an assignment: the first `n` elements are those of `ns`, the others are as they were. -/
structure PlainArray.Written (a : PlainArray) (ns : List Number) (n : Nat) (c : PlainArray) : Prop where
  kind : c.kind = a.kind
  extents : c.toExtents = a.toExtents
  size : c.words.size = a.words.size
  done : ∀ m x, m < n → ns[m]? = some x → c.element m = x.words
  rest : ∀ m, n ≤ m → c.element m = a.element m

namespace PlainArray

variable {a c : PlainArray} {ns : List Number} {n : Nat}

/-- Nothing has been written at first. -/
theorem written_zero (a : PlainArray) (ns : List Number) : a.Written ns 0 a :=
  ⟨rfl, rfl, rfl, fun m _ hm => absurd hm (Nat.not_lt_zero m), fun _ _ => rfl⟩

/-- Writing the next element. -/
theorem Written.succ (hc : a.Written ns n c) (hinside : (n + 1) * a.kind.words ≤ a.words.size) {x : Number}
    (hx : ns[n]? = some x) (hkind : x.kind = a.kind) : a.Written ns (n + 1) (c.store n x.words) := by
  refine ⟨hc.kind, hc.extents, ?_, fun m y hm hy => ?_, fun m hm => ?_⟩
  · exact (size_setElementAt _ _ _ _).trans hc.size
  · rcases Nat.lt_succ_iff_lt_or_eq.1 hm with hlt | rfl
    · rw [element_store_of_ne hlt.ne, hc.done m y hlt hy]
    · rw [hx] at hy
      cases hy
      rw [← hc.kind, ← hc.size] at hinside
      rw [element_store_self hinside, hc.kind, ← hkind, x.keep_words]
  · rw [element_store_of_ne (Nat.ne_of_gt hm), hc.rest m (Nat.le_of_succ_le hm)]

/-- Once all elements have been written, the words are those of the numbers. -/
theorem Written.eq_pack (hc : a.Written ns ns.length c) (hsize : a.words.size = ns.length * a.kind.words)
    (hkinds : ∀ x ∈ ns, x.kind = a.kind) : c = ⟨a.toExtents, a.kind, packNumbers a.kind ns⟩ := by
  have hwords : c.words = packNumbers a.kind ns := by
    refine words_eq_of_elementAt (hc.size.trans hsize) (size_packNumbers _ _) fun m hm => ?_
    obtain ⟨x, hx⟩ : ∃ x, ns[m]? = some x := ⟨_, List.getElem?_eq_getElem hm⟩
    have hdone := hc.done m x hm hx
    unfold element at hdone
    rw [hc.kind] at hdone
    rw [hdone, elementAt_packNumbers hx (hkinds x (List.mem_of_getElem? hx))]
  cases c
  cases hc.kind
  cases hc.extents
  cases hwords
  rfl

end PlainArray

namespace Heap

variable {h k : Heap} {id : ObjectId} {roots : List ObjectId} {a : PlainArray} {src : Value} {q : Operand}
  {ns : List Number}

/-- One step of the loop. -/
theorem assignOne_of_written {n : Nat} {c : PlainArray} {x : Number} (hid : k.get? id = some (.ofPlain a))
    (hsrc : k.Ready src q) (hc : a.Written ns n c) (hx : (q.number n).convert a.kind = .ok x) :
    assignOne id a.kind src q n (k.modifyObject id fun _ => .ofPlain c) =
      .ok () (k.modifyObject id fun _ => .ofPlain (c.store n x.words)) := by
  have hstore : (Object.ofPlain c).setElement a.kind n x.words = .ofPlain (c.store n x.words) := by
    rw [← hc.kind]
    rfl
  unfold assignOne
  rw [bind_of_ok (sourceNumber_of_ready hid hsrc hc.kind (hc.rest n le_rfl)), hx, ← hstore]
  exact congrArg (EStateM.Result.ok ()) (modifyObject_modifyObject k id _ _)

/-- **The loop writes what was there to begin with.** By induction on the number of elements that have been written;
what has been written is not read again. -/
theorem exists_written (hid : k.get? id = some (.ofPlain a)) (hsize : a.words.size = ns.length * a.kind.words)
    (hsrc : k.Ready src q) (hns : ∀ i < ns.length, ∃ x, ns[i]? = some x ∧ (q.number i).convert a.kind = .ok x) {n : Nat}
    (hn : n ≤ ns.length) : ∃ c, a.Written ns n c ∧
      (List.range n).forM (assignOne id a.kind src q) k = .ok () (k.modifyObject id fun _ => .ofPlain c) := by
  induction n with
  | zero =>
    refine ⟨a, a.written_zero ns, ?_⟩
    rw [modifyObject_self hid]
    rfl
  | succ n ih =>
    obtain ⟨c, hc, hloop⟩ := ih (Nat.le_of_succ_le hn)
    obtain ⟨x, hx, hconvert⟩ := hns n hn
    have hinside : (n + 1) * a.kind.words ≤ a.words.size := hsize ▸ Nat.mul_le_mul_right _ hn
    refine ⟨c.store n x.words, hc.succ hinside hx (Number.kind_of_convert hconvert), ?_⟩
    have hlast : (List.range n ++ [n]).forM (assignOne id a.kind src q) =
        (List.range n).forM (assignOne id a.kind src q) >>= fun _ => [n].forM (assignOne id a.kind src q) :=
      List.forM_append
    rw [List.range_succ, hlast, bind_of_ok hloop]
    exact bind_of_ok (assignOne_of_written hid hsrc hc hconvert)

/-- A number that does not convert ends the loop. -/
theorem assignOne_of_error {n : Nat} {e : ErrorCode} (hid : k.get? id = some (.ofPlain a)) (hsrc : k.Ready src q)
    (he : (q.number n).convert a.kind = .error e) : assignOne id a.kind src q n k = .error e k := by
  have hread := sourceNumber_of_ready (n := n) hid hsrc rfl rfl
  rw [modifyObject_self hid] at hread
  unfold assignOne
  rw [bind_of_ok hread, he]
  rfl

/-! ### Assignment -/

end Heap

/-- An operand can be assigned to an array of the shape: a scalar, or an array of the same shape. -/
def Operand.Conforms (q : Operand) (dims : Shape) : Prop := ∀ b, q = .array b → b.dims = dims

/-- A number can be converted unless the kind narrows it, and that is the same for all numbers of an operand. -/
theorem Operand.convert_cases (q : Operand) (kind : ElementKind) (n : Nat) :
    (¬ q.Narrows kind ∧ ∃ x, (q.number n).convert kind = .ok x) ∨
      q.Narrows kind ∧ (q.number n).convert kind = .error .shape := by
  have hcases := (q.number n).convert_cases kind
  rwa [q.kind_number] at hcases

namespace Heap

variable {h k : Heap} {i : ObjectId} {roots : List ObjectId} {a : PlainArray} {src : Value} {q : Operand}

/-- Both sides are copied out, the target first. Then the numbers are converted and written, all at once or one by
one. -/
theorem exists_assignment (hh : h.Counted roots) (hi : h.Held roots i) (ha : h.Denotes i a)
    (hsrc : h.Stands roots src q) :
    ∃ k, h.Settled roots k ∧ k.get? i = some (.ofPlain a) ∧ k.Ready src q ∧
      (q.Conforms a.dims → assignAtOnce (.object .array i) src h =
          (lift ((List.range a.count).mapM fun n => (q.number n).convert a.kind) >>= fun ns =>
            modify (·.modifyObject i fun _ => .ofPlain ⟨a.toExtents, a.kind, packNumbers a.kind ns⟩)) k ∧
        assignAll (.object .array i) src h = (List.range a.count).forM (assignOne i a.kind src q) k) ∧
      (¬ q.Conforms a.dims → assignAtOnce (.object .array i) src h = .error .shape k ∧
        assignAll (.object .array i) src h = .error .shape k) := by
  obtain ⟨k, hk, hsettles, hget⟩ := exists_plainArray ha
  have hsettled : h.Settled roots k := ⟨hsettles.counted roots hh, hsettles⟩
  obtain ⟨l, hl, hsettled', hready⟩ := (hsrc.settled hsettled).exists_operand hsettled.counted
  -- the target has words of its own by now, so copying out the source cannot change it
  have hget' : l.get? i = some (.ofPlain a) := by
    obtain ⟨o, ho⟩ := Option.isSome_iff_exists.1 ((hi.settled hsettled).1.settled hsettled').2
    rw [ho, hsettled'.settles.get?_of_plain hget ho]
  refine ⟨l, .trans hsettles hsettled', hget', hready, ?_⟩
  unfold assignAtOnce assignAll
  rw [bind_of_ok hk, bind_of_ok hk]
  dsimp only
  rw [bind_of_ok hl, bind_of_ok hl]
  cases q with
  | array b =>
    refine ⟨fun hdims => ?_, fun hdims => ?_⟩
    · dsimp only
      rw [if_neg (not_not.2 (hdims b rfl)), if_neg (not_not.2 (hdims b rfl))]
      exact ⟨rfl, rfl⟩
    · have hne : b.dims ≠ a.dims := fun heq => hdims fun c hc => by cases hc; exact heq
      dsimp only
      rw [if_pos hne, if_pos hne]
      exact ⟨rfl, rfl⟩
  | scalar n => exact ⟨fun _ => ⟨rfl, rfl⟩, fun hdims => absurd (fun b hb => by cases hb) hdims⟩

/-- **An assignment succeeds with all numbers converted, or fails before it writes anything.** Converting all numbers
first or one by one makes no difference. -/
theorem assignment_cases (hget : k.get? i = some (.ofPlain a)) (hready : k.Ready src q)
    (hsize : a.words.size = a.count * a.kind.words) :
    (¬ (0 < a.count ∧ q.Narrows a.kind) ∧ ∃ ns,
      (List.range a.count).mapM (fun n => (q.number n).convert a.kind) = .ok ns ∧
      (∀ n < a.count, ∃ x, ns[n]? = some x ∧ (q.number n).convert a.kind = .ok x) ∧
      (List.range a.count).forM (assignOne i a.kind src q) k =
        .ok () (k.modifyObject i fun _ => .ofPlain ⟨a.toExtents, a.kind, packNumbers a.kind ns⟩)) ∨
    (0 < a.count ∧ q.Narrows a.kind) ∧
      (List.range a.count).mapM (fun n => (q.number n).convert a.kind) = .error .shape ∧
      (List.range a.count).forM (assignOne i a.kind src q) k = .error .shape k := by
  rcases mapM_range_cases (fun n => (q.number n).convert a.kind) a.count with
    ⟨ns, hns, hlength, hall⟩ | ⟨n, e, hn, herror, hbefore, hmap⟩
  · refine .inl ⟨?_, ns, hns, hall, ?_⟩
    · rintro ⟨hpos, hnarrows⟩
      obtain ⟨x, -, hx⟩ := hall 0 hpos
      rcases q.convert_cases a.kind 0 with ⟨hnot, -⟩ | ⟨-, he⟩
      · exact hnot hnarrows
      · rw [hx] at he
        cases he
    · have hkinds : ∀ x ∈ ns, x.kind = a.kind := by
        intro x hx
        obtain ⟨n, hn, hget⟩ := List.getElem_of_mem hx
        obtain ⟨y, hy, hconvert⟩ := hall n (hlength ▸ hn)
        rw [List.getElem?_eq_getElem hn, hget] at hy
        cases hy
        exact Number.kind_of_convert hconvert
      rw [← hlength] at hsize hall ⊢
      obtain ⟨c, hc, hloop⟩ := exists_written hget hsize hready hall le_rfl
      rw [hloop, hc.eq_pack hsize hkinds]
  · -- whether a number converts depends on the operand only, so the first one does not
    rcases q.convert_cases a.kind n with ⟨-, x, hx⟩ | ⟨hnarrows, he⟩
    · rw [hx] at herror
      cases herror
    rcases q.convert_cases a.kind 0 with ⟨hnot, -⟩ | ⟨-, hfirst⟩
    · exact absurd hnarrows hnot
    rw [he] at herror
    cases herror
    refine .inr ⟨⟨Nat.zero_lt_of_lt hn, hnarrows⟩, hmap, ?_⟩
    obtain ⟨m, hm⟩ : ∃ m, a.count = m + 1 := ⟨a.count - 1, by omega⟩
    rw [hm, List.range_succ_eq_map]
    exact bind_of_error (assignOne_of_error hget hready hfirst)

/-- **The array has been assigned what the source denoted.** -/
structure Assigned (h : Heap) (roots : List ObjectId) (i : ObjectId) (a : PlainArray) (q : Operand) (k : Heap) :
    Prop where
  /-- the target has its kind and shape, and the converted numbers as its elements -/
  target : ∃ c, k.get? i = some (.ofPlain c) ∧ c.kind = a.kind ∧ c.toExtents = a.toExtents ∧
    c.words.size = a.words.size ∧ ∀ n < a.count, (q.number n).convert a.kind = .ok (c.number n)
  /-- an array that had words of its own has them still, and so has one that is copied out those it denoted -/
  stays : ∀ j b o, j ≠ i → h.get? j = some (.ofPlain b) → k.get? j = some o → o = .ofPlain b
  copied : ∀ j b, j ≠ i → k.get? j = some (.ofPlain b) → h.Denotes j b
  /-- nothing that is held goes away -/
  held : ∀ j, h.Held roots j → (k.get? j).isSome

/-- **An array whose words have been replaced by the converted numbers has been assigned to.** -/
theorem assigned_of_settled (hk : h.Settled roots k) (hget : k.get? i = some (.ofPlain a)) {ns : List Number}
    (hlength : ns.length = a.count) (hsize : a.words.size = a.count * a.kind.words)
    (hns : ∀ n < a.count, ∃ x, ns[n]? = some x ∧ (q.number n).convert a.kind = .ok x) :
    h.Assigned roots i a q (k.modifyObject i fun _ => .ofPlain ⟨a.toExtents, a.kind, packNumbers a.kind ns⟩) := by
  have hmodify := get?_modifyObject k i
  refine ⟨⟨⟨a.toExtents, a.kind, packNumbers a.kind ns⟩, ?_, rfl, rfl, ?_, fun n hn => ?_⟩, fun j b o hj hb ho => ?_,
    fun j b hj hb => ?_, fun j hj => ?_⟩
  · rw [hmodify, if_pos rfl, hget]
    rfl
  · rw [size_packNumbers, hlength, hsize]
  · obtain ⟨x, hx, hconvert⟩ := hns n hn
    rw [hconvert, PlainArray.number_packNumbers a.toExtents hx (Number.kind_of_convert hconvert)]
  · rw [hmodify, if_neg hj.symm] at ho
    exact hk.settles.get?_of_plain hb ho
  · rw [hmodify, if_neg hj.symm] at hb
    exact hk.settles.denotes_of_readsAt (.plain hb)
  · rw [hmodify]
    split
    · rename_i heq
      rw [← heq, hget]
      rfl
    · exact (hj.settled hk).2

/-- **Whole-array assignment reads its source before it writes**, however source and target overlap. It succeeds unless
the shapes differ, or a complex source would have to be narrowed for an element of the target; every element is then the
conversion of what the source denoted at its position, and no other array changes. Reading the whole source first would
give the same. -/
theorem assignAll_reads_before_writing (hh : h.Counted roots) (hwf : h.WellFormed) (hi : h.Held roots i)
    (ha : h.Denotes i a) (hsrc : h.Stands roots src q) :
    (∀ k, assignAll (.object .array i) src h = .ok () k → h.Assigned roots i a q k) ∧
    ((∃ k, assignAll (.object .array i) src h = .error .shape k) ↔
      (∃ b, q = .array b ∧ b.dims ≠ a.dims) ∨ 0 < a.count ∧ q.kind = .complex ∧ a.kind ≠ .complex) ∧
    (∀ e k, assignAll (.object .array i) src h = .error e k → e = .shape) ∧
    assignAll (.object .array i) src h = assignAtOnce (.object .array i) src h := by
  have hshaped := hwf.shaped.denotes ha
  have hsize : a.words.size = a.count * a.kind.words := by
    rw [hshaped.size_eq, PlainArray.count, hshaped.fits.word_size]
  obtain ⟨k, hk, hget, hready, hconforms, hdiffers⟩ := exists_assignment hh hi ha hsrc
  by_cases hdims : q.Conforms a.dims
  · obtain ⟨hall, hloop⟩ := hconforms hdims
    have hnot : ¬ ∃ b, q = .array b ∧ b.dims ≠ a.dims := by
      rintro ⟨b, hb, hne⟩
      exact hne (hdims b hb)
    rcases assignment_cases hget hready hsize with ⟨hconverts, ns, hns, hnumbers, hend⟩ | ⟨hnarrows, hns, hend⟩
    · have hok : assignAtOnce (.object .array i) src h =
          .ok () (k.modifyObject i fun _ => .ofPlain ⟨a.toExtents, a.kind, packNumbers a.kind ns⟩) := by
        rw [hall, hns]
        rfl
      rw [hok, hloop, hend]
      refine ⟨fun l hl => ?_, ⟨?_, fun herror => absurd herror (not_or.2 ⟨hnot, hconverts⟩)⟩, fun e l hl => ?_, rfl⟩
      · cases hl
        have hlength := (length_of_mapM_eq_ok hns).trans List.length_range
        exact assigned_of_settled hk hget hlength hsize hnumbers
      · rintro ⟨l, hl⟩
        cases hl
      · cases hl
    · have herror : assignAtOnce (.object .array i) src h = .error .shape k := by
        rw [hall, hns]
        rfl
      rw [herror, hloop, hend]
      refine ⟨fun l hl => ?_, ⟨fun _ => .inr hnarrows, fun _ => ⟨k, rfl⟩⟩, fun e l hl => ?_, rfl⟩
      · cases hl
      · cases hl
        rfl
  · obtain ⟨hall, hloop⟩ := hdiffers hdims
    rw [hall, hloop]
    refine ⟨fun l hl => ?_, ⟨fun _ => .inl ?_, fun _ => ⟨k, rfl⟩⟩, fun e l hl => ?_, rfl⟩
    · cases hl
    · by_contra hnone
      exact hdims fun b hb => by_contra fun hne => hnone ⟨b, hb, hne⟩
    · cases hl
      rfl

/-- The last three of four integers are assigned the first three through two views, and are refused a complex number. -/
theorem assignAll_reads_before_writing_overlap :
    let base : PlainArray := .ofShape .int [4] #[1, 2, 3, 4]
    let h : Heap := ⟨#[some ⟨3, .ofPlain base⟩, some ⟨1, .array (.view .int 0 [(0, 3)] (by decide))⟩,
      some ⟨1, .array (.view .int 0 [(1, 3)] (by decide))⟩]⟩
    let first : PlainArray := .ofShape .int [3] #[1, 2, 3]
    let last : PlainArray := .ofShape .int [3] #[2, 3, 4]
    h.Counted [0, 1, 2] ∧ h.WellFormed ∧ h.Denotes 1 first ∧ h.Denotes 2 last ∧
      (∃ k, assignAll (.object .array 2) (.object .array 1) h = .ok () k ∧
        h.Assigned [0, 1, 2] 2 last (.array first) k) ∧
      assignAll (.object .array 2) (.object .array 1) h = assignAtOnce (.object .array 2) (.object .array 1) h ∧
      ∃ k, assignAll (.object .array 2) (.scalar .complex ⟨5, 6⟩) h = .error .shape k := by
  intro base h first last
  have hcounted : h.Counted [0, 1, 2] := counted_of_cells (by decide) (by decide)
  have hbase : base.Shaped := by decide +kernel
  have hwf : h.WellFormed := by
    intro id a ha
    rcases id with _ | _ | _ | id
    · cases ha
      exact hbase.wellFormed h
    · cases ha
      exact ArrayObject.wellFormed_view (b := base) rfl hbase _ (.cons (by decide) (by decide) (by decide) .nil)
    · cases ha
      exact ArrayObject.wellFormed_view (b := base) rfl hbase _ (.cons (by decide) (by decide) (by decide) .nil)
    · cases ha
  have hreads : h.ReadsAt 0 0 base := .plain rfl
  have hview : h.ViewAt 1 (.view .int 0 [(0, 3)] (by decide)) 0 [0] := ⟨rfl, rfl⟩
  have hfirst : h.Denotes 1 first := ⟨1, .view hview hreads rfl (by decide)⟩
  have hview' : h.ViewAt 2 (.view .int 0 [(1, 3)] (by decide)) 0 [1] := ⟨rfl, rfl⟩
  have hlast : h.Denotes 2 last := ⟨1, .view hview' hreads rfl (by decide)⟩
  have hheld : h.Held [0, 1, 2] 2 := .root (by decide)
  have hsrc : h.Stands [0, 1, 2] (.object .array 1) (.array first) := .array (.root (by decide)) hfirst
  have hscalar : h.Stands [0, 1, 2] (.scalar .complex ⟨5, 6⟩) (.scalar (.complex ⟨5, 6⟩)) := .scalar rfl
  obtain ⟨hassigned, hshape, herror, hloop⟩ := assignAll_reads_before_writing hcounted hwf hheld hlast hsrc
  obtain ⟨-, hnarrows, -, -⟩ := assignAll_reads_before_writing hcounted hwf hheld hlast hscalar
  refine ⟨hcounted, hwf, hfirst, hlast, ?_, hloop, hnarrows.2 (.inr ⟨by decide, rfl, by rintro ⟨⟩⟩)⟩
  cases hend : assignAll (.object .array 2) (.object .array 1) h with
  | ok u k => exact ⟨k, rfl, hassigned k hend⟩
  | error e k =>
    obtain rfl := herror e k hend
    rcases hshape.1 ⟨k, hend⟩ with ⟨_, ⟨⟩, hdims⟩ | ⟨-, ⟨⟩, -⟩
    exact absurd rfl hdims

end Heap

end RegisterVM
