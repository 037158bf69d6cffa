import RegisterVM.Heap.Equality
import RegisterVM.Proofs.ReferenceCounts

/-!
# Copying views out

A view denotes the window of its base, and the base may be a view itself (`ReadsAt`). Copying a view out puts what
it denotes in its place and gives up the reference to the base, which is freed when nothing else refers to it. A heap
that has been changed in this way only has *settled*: what is still there is what it was, or a view that has become
the array it denoted (`Settles`). What an array denotes is the same before and behind (`Settled.denotes_iff`).

Every operation that needs the elements of an array copies views out first, and an operation that fails has done
nothing else. What a successful one does to the references is said by the roots of the counts.
-/

namespace RegisterVM

/-- An array with its own words can be told from its object. -/
theorem Object.ofPlain_injective : Function.Injective Object.ofPlain := by
  rintro ⟨extents, kind, words⟩ ⟨extents', kind', words'⟩ h
  cases h
  rfl

namespace Heap

/-! ### What arrays denote -/

/-- At `id` there is the view `v`, on the array at `base` from `starts` on. -/
structure ViewAt (h : Heap) (id : ObjectId) (v : ArrayObject) (base : ObjectId) (starts : List Int64) : Prop where
  get?_eq : h.get? id = some (.array v)
  data_eq : v.data = .view base starts

/-- The array an object denotes, `n` bases away from the words. -/
inductive ReadsAt (h : Heap) : Nat → ObjectId → PlainArray → Prop
  | plain {id : ObjectId} {a : PlainArray} : h.get? id = some (.ofPlain a) → h.ReadsAt 0 id a
  | view {n : Nat} {id base : ObjectId} {v : ArrayObject} {starts : List Int64} {b : PlainArray} :
    h.ViewAt id v base starts → h.ReadsAt n base b → b.axes.length = v.axes.length →
    b.dims.windowFits starts v.dims = true → h.ReadsAt (n + 1) id (b.extract v starts)

/-- The array an object denotes. -/
def Denotes (h : Heap) (id : ObjectId) (a : PlainArray) : Prop := ∃ n, h.ReadsAt n id a

variable {h k l : Heap} {id base : ObjectId} {v : ArrayObject} {starts : List Int64} {roots : List ObjectId}

/-- An array that holds its own words is no view. -/
theorem ViewAt.not_plain (hv : h.ViewAt id v base starts) {a : PlainArray} : h.get? id ≠ some (.ofPlain a) := by
  intro ha
  obtain rfl : v = ⟨a.toExtents, a.kind, .plain a.words, trivial⟩ := by
    rw [hv.get?_eq] at ha
    cases ha
    rfl
  cases hv.data_eq

/-- There is at most one view at a place of the heap. -/
theorem ViewAt.unique (hv : h.ViewAt id v base starts) {v' : ArrayObject} {base' : ObjectId} {starts' : List Int64}
    (hv' : h.ViewAt id v' base' starts') : v = v' ∧ base = base' ∧ starts = starts' := by
  obtain rfl : v = v' := by
    have heq := hv.get?_eq.symm.trans hv'.get?_eq
    cases heq
    rfl
  have hdata := hv.data_eq.symm.trans hv'.data_eq
  cases hdata
  exact ⟨rfl, rfl, rfl⟩

/-- An object denotes one array, at one distance. -/
theorem ReadsAt.unique {m n : Nat} {a b : PlainArray} (ha : h.ReadsAt m id a) (hb : h.ReadsAt n id b) :
    m = n ∧ a = b := by
  induction ha generalizing n b with
  | plain hid =>
    cases hb with
    | plain hid' => exact ⟨rfl, Object.ofPlain_injective (Option.some.inj (hid.symm.trans hid'))⟩
    | view hid' => exact absurd hid hid'.not_plain
  | view hid _ _ _ ih =>
    cases hb with
    | plain hid' => exact absurd hid' hid.not_plain
    | view hid' hbase' =>
      obtain ⟨rfl, rfl, rfl⟩ := hid.unique hid'
      obtain ⟨rfl, rfl⟩ := ih hbase'
      exact ⟨rfl, rfl⟩

/-- An array that stands for itself denotes itself. -/
theorem denotes_of_plain {a : PlainArray} (ha : h.get? id = some (.ofPlain a)) : h.Denotes id a := ⟨0, .plain ha⟩

/-- A view whose window fits denotes the part of its base. -/
theorem Denotes.view {b : PlainArray} (hid : h.ViewAt id v base starts) (hbase : h.Denotes base b)
    (hlength : b.axes.length = v.axes.length) (hfits : b.dims.windowFits starts v.dims = true) :
    h.Denotes id (b.extract v starts) :=
  hbase.elim fun n hn => ⟨n + 1, .view hid hn hlength hfits⟩

/-! ### Settled heaps -/

/-- A view of `h` that has become the array it denoted. -/
def Resolved (h : Heap) (id : ObjectId) (o : Object) : Prop :=
  ∃ v base starts a, h.ViewAt id v base starts ∧ h.Denotes id a ∧ o = .ofPlain a

/-- **What is still there is what it was, or a view copied out**, and references that were counted still are. -/
structure Settles (h k : Heap) : Prop where
  size_eq : k.cells.size = h.cells.size
  object : ∀ id o, k.get? id = some o → h.get? id = some o ∨ h.Resolved id o
  counted : ∀ roots, h.Counted roots → k.Counted roots

namespace Settles

/-- A heap settles to itself. -/
theorem refl (h : Heap) : h.Settles h := ⟨rfl, fun _ _ ho => .inl ho, fun _ hh => hh⟩

/-- A view that is still there was there. -/
theorem viewAt (hk : h.Settles k) (hv : k.ViewAt id v base starts) : h.ViewAt id v base starts := by
  rcases hk.object id _ hv.get?_eq with hold | ⟨_, _, _, a, _, _, ha⟩
  · exact ⟨hold, hv.data_eq⟩
  · exact absurd (ha ▸ hv.get?_eq) hv.not_plain

/-- An array with its own words can only stay or go. -/
theorem get?_of_plain (hk : h.Settles k) {a : PlainArray} (ha : h.get? id = some (.ofPlain a)) {o : Object}
    (ho : k.get? id = some o) : o = .ofPlain a := by
  rcases hk.object id o ho with hold | ⟨_, _, _, _, hview, _, _⟩
  · exact Option.some.inj (hold.symm.trans ha)
  · exact absurd ha hview.not_plain

/-- What is read after settling was denoted before. -/
theorem denotes_of_readsAt (hk : h.Settles k) {n : Nat} {a : PlainArray} (ha : k.ReadsAt n id a) : h.Denotes id a := by
  induction ha with
  | plain hid =>
    rcases hk.object _ _ hid with hold | ⟨_, _, _, _, _, hdenotes, hb⟩
    · exact denotes_of_plain hold
    · exact Object.ofPlain_injective hb ▸ hdenotes
  | view hid _ hlength hfits ih => exact ih.view (hk.viewAt hid) hlength hfits

/-- Settling goes on. -/
theorem trans (hk : h.Settles k) (hl : k.Settles l) : h.Settles l := by
  refine ⟨hl.size_eq.trans hk.size_eq, fun id o ho => ?_, fun roots hh => hl.counted roots (hk.counted roots hh)⟩
  rcases hl.object id o ho with hold | ⟨v, base, starts, a, hview, ⟨n, hn⟩, rfl⟩
  · exact hk.object id o hold
  · exact .inr ⟨v, base, starts, a, hk.viewAt hview, hk.denotes_of_readsAt hn, rfl⟩

end Settles

/-- A heap that has settled, with every reference counted. -/
structure Settled (h : Heap) (roots : List ObjectId) (k : Heap) : Prop where
  counted : k.Counted roots
  settles : h.Settles k

/-- A heap with exact counts has settled. -/
theorem Counted.settled (hh : h.Counted roots) : h.Settled roots h := ⟨hh, .refl h⟩

/-- What has settled after settling has settled. -/
theorem Settled.trans (hk : h.Settles k) (hl : k.Settled roots l) : h.Settled roots l :=
  ⟨hl.counted, hk.trans hl.settles⟩

/-- The bases an array needs are there as long as the array is. -/
theorem Settled.denotes_of_readsAt (hk : h.Settled roots k) {n : Nat} {a : PlainArray} (ha : h.ReadsAt n id a)
    (hlive : (k.get? id).isSome) : k.Denotes id a := by
  induction ha with
  | plain hid =>
    obtain ⟨o, ho⟩ := Option.isSome_iff_exists.1 hlive
    exact denotes_of_plain (hk.settles.get?_of_plain hid ho ▸ ho)
  | @view n id base v starts b hid hbase hlength hfits ih =>
    obtain ⟨o, ho⟩ := Option.isSome_iff_exists.1 hlive
    rcases hk.settles.object id o ho with hold | ⟨_, _, _, _, _, ⟨m, hm⟩, rfl⟩
    · obtain rfl : _ = o := Option.some.inj (hid.get?_eq.symm.trans hold)
      have hbase : base ∈ (Object.array v).references := by simp [Object.references, hid.data_eq]
      exact (ih (hk.counted.isSome_of_mem_inner (mem_inner ho hbase))).view ⟨ho, hid.data_eq⟩ hlength hfits
    · obtain ⟨-, rfl⟩ := (ReadsAt.view hid hbase hlength hfits).unique hm
      exact denotes_of_plain ho

/-- Entries that contribute less make lists that contribute less. -/
theorem count_flatMap_le {α : Type} {f : α → List ObjectId} {j : ObjectId} {xs ys : List α}
    (hle : List.Forall₂ (fun x y => (f x).count j ≤ (f y).count j) xs ys) :
    (xs.flatMap f).count j ≤ (ys.flatMap f).count j := by
  induction hle with
  | nil => exact le_rfl
  | cons hxy _ ih =>
    rw [List.flatMap_cons, List.flatMap_cons, List.count_append, List.count_append]
    exact Nat.add_le_add hxy ih

/-- Copying views out gives references up and takes none. -/
theorem Settles.count_inner_le (hk : h.Settles k) (j : ObjectId) : k.inner.count j ≤ h.inner.count j := by
  refine count_flatMap_le (List.forall₂_iff_get.2 ⟨by simpa using hk.size_eq, fun i hi hi' => ?_⟩)
  have hcell : k.cell? i = k.cells.toList.get ⟨i, hi⟩ := by
    simp only [Array.length_toList] at hi
    simp [cell?, hi]
  cases hc : k.cells.toList.get ⟨i, hi⟩ with
  | none => exact Nat.zero_le _
  | some c =>
    have hget : k.get? i = some c.object := by rw [get?, hcell, hc]; rfl
    rcases hk.object i _ hget with hold | ⟨_, _, _, a, _, _, ha⟩
    · obtain ⟨d, hd, hobject⟩ := exists_cell?_of_get? hold
      have hcell' : h.cells.toList.get ⟨i, hi'⟩ = some d := by
        simp only [Array.length_toList] at hi'
        simpa [cell?, hi'] using hd
      rw [hcell']
      exact (congrArg (fun o : Object => o.references.count j) hobject).ge
    · have hnone : Cell.outgoing (some c) = [] := congrArg Object.references ha
      rw [hnone]
      exact Nat.zero_le _

/-- Where there was room for references there is when views have been copied out. -/
theorem Settled.room (hk : h.Settled roots k) (hh : h.Counted roots) {n : Nat} (hroom : h.Room n) : k.Room n := by
  refine hroom.mono fun id => ?_
  rw [hk.counted.exact, hh.exact]
  have hle := hk.settles.count_inner_le id
  omega

/-- **Settling does not change what an array denotes.** -/
theorem Settled.denotes_iff (hk : h.Settled roots k) (hlive : (k.get? id).isSome) (a : PlainArray) :
    k.Denotes id a ↔ h.Denotes id a :=
  ⟨fun ⟨_, ha⟩ => hk.settles.denotes_of_readsAt ha, fun ⟨_, ha⟩ => hk.denotes_of_readsAt ha hlive⟩

/-! ### Changes in place -/

/-- There is nothing to change where there is no object. -/
theorem modifyObject_of_none (hid : h.get? id = none) (f : Object → Object) : h.modifyObject id f = h := by
  have hcell : h.cell? id = none := Option.map_eq_none_iff.1 hid
  unfold modifyObject
  congr 1
  refine Array.ext_getElem? fun j => ?_
  rw [Array.getElem?_modify]
  split
  · rename_i hj
    subst hj
    unfold cell? at hcell
    rcases hc : h.cells[id]? with _ | _ | c
    · rfl
    · rfl
    · rw [hc] at hcell
      cases hcell
  · rfl

/-- An object gets other contents with the same references. -/
theorem Counted.replace (hh : h.Counted roots) {f : Object → Object}
    (hf : ∀ o, h.get? id = some o → (f o).references = o.references) : (h.modifyObject id f).Counted roots := by
  cases ho : h.get? id with
  | none =>
    rw [modifyObject_of_none ho]
    exact hh
  | some o =>
    refine hh.modifyObject ho fun j => ?_
    rw [hf o ho]

/-- Dropping a reference to an object that holds none frees nothing else. -/
theorem get?_dropAll_of_ne {base : ObjectId} {b : PlainArray} (hb : h.get? base = some (.ofPlain b)) (hid : id ≠ base) :
    (h.dropAll [base]).get? id = h.get? id := by
  obtain ⟨c, hc, hobject⟩ := exists_cell?_of_get? hb
  have hset (x : Option Cell) : get? ⟨h.cells.setIfInBounds base x⟩ id = h.get? id := by
    unfold get?
    rw [cell?_setIfInBounds hc, if_neg (Ne.symm hid)]
  rw [dropAll_cons, hc]
  dsimp only
  split
  · rw [hobject, show (Object.ofPlain b).references ++ [] = [] from rfl, dropAll]
    exact hset none
  · rw [dropAll]
    exact hset _

/-! ### Copying out -/

/-- A view is one base further away from its words than its base. -/
theorem ReadsAt.eq_succ_of_view {n : Nat} {b : PlainArray} (hbase : h.ReadsAt n base b)
    (hid : h.ViewAt id v base starts)
    {m : Nat} {a : PlainArray} (ha : h.ReadsAt m id a) : m = n + 1 := by
  cases ha with
  | plain hid' => exact absurd hid' hid.not_plain
  | view hid' hbase' =>
    obtain ⟨rfl, rfl, rfl⟩ := hid.unique hid'
    rw [(hbase.unique hbase').1]

/-- **A view that gets its words settles the heap further.** Its base has been copied out, `n` bases away from the
words before that, and only arrays at most as far away have been touched. Then the view is the array it denoted, and
only arrays at most one base further away have been touched. -/
theorem Settles.copyOut (hl : k.Settles l) {n : Nat} {b : PlainArray} (ha : k.ViewAt id v base starts)
    (hreads : k.ReadsAt n base b) (hbase : l.get? base = some (.ofPlain b)) (hlength : b.axes.length = v.axes.length)
    (hfits : b.dims.windowFits starts v.dims = true)
    (hframe : ∀ j, (∀ m c, k.ReadsAt m j c → n < m) → l.get? j = k.get? j)
    (hh : h = (l.modifyObject id fun _ => .ofPlain (b.extract v starts)).dropAll [base]) :
    k.Settles h ∧ h.get? id = some (.ofPlain (b.extract v starts)) ∧
      ∀ j, (∀ m c, k.ReadsAt m j c → n + 1 < m) → h.get? j = k.get? j := by
  subst hh
  have hdenotes : k.ReadsAt (n + 1) id (b.extract v starts) := .view ha hreads hlength hfits
  -- the view is further away from the words than its base, so it has not been touched
  have hview : l.ViewAt id v base starts := by
    refine ⟨?_, ha.data_eq⟩
    rw [hframe id fun m c hc => by rw [hreads.eq_succ_of_view ha hc]; exact Nat.lt_succ_self n]
    exact ha.get?_eq
  have hne : id ≠ base := by
    rintro rfl
    exact hview.not_plain hbase
  have hget := get?_modifyObject l id
  have hbase' : (l.modifyObject id fun _ => .ofPlain (b.extract v starts)).get? base = some (.ofPlain b) := by
    rw [hget, if_neg hne, hbase]
  refine ⟨⟨?_, fun j o ho => ?_, fun roots hk => ?_⟩, ?_, fun j hj => ?_⟩
  · rw [size_dropAll]
    exact (Array.size_modify ..).trans hl.size_eq
  · have ho := get?_of_get?_dropAll ho
    rw [hget] at ho
    split at ho
    · rename_i hj
      subst hj
      rw [hview.get?_eq] at ho
      cases ho
      exact .inr ⟨v, base, starts, _, ha, ⟨_, hdenotes⟩, rfl⟩
    · exact hl.object j o ho
  · -- the reference the view had is one to be given up
    have hcounted : (l.modifyObject id fun _ => .ofPlain (b.extract v starts)).Counted ([base] ++ roots) := by
      refine (hl.counted roots hk).modifyObject hview.get?_eq fun j => ?_
      have hreferences : (Object.array v).references = [base] := by simp [Object.references, hview.data_eq]
      rw [hreferences, List.count_append]
      exact Nat.add_comm _ _
    exact hcounted.dropAll
  · rw [get?_dropAll_of_ne hbase' hne, hget, if_pos rfl, hview.get?_eq]
    rfl
  · have hj' : j ≠ base := by
      rintro rfl
      have := hj n b hreads
      omega
    have hid : id ≠ j := by
      rintro rfl
      exact Nat.lt_irrefl _ (hj _ _ hdenotes)
    rw [get?_dropAll_of_ne hbase' hj', hget, if_neg hid]
    exact hframe j fun m c hc => (Nat.lt_succ_self n).trans (hj m c hc)

/-- **Copying out settles the heap.** When it succeeds the array is there with the words it denoted, and only arrays at
most as far away from their words have been touched. -/
theorem triple_materializeAt (depth : Nat) (id : ObjectId) :
    Triple (· = k) (materializeAt depth id)
      (fun _ l => k.Settles l ∧ ∃ n a, k.ReadsAt n id a ∧ l.get? id = some (.ofPlain a) ∧
        ∀ j, (∀ m b, k.ReadsAt m j b → n < m) → l.get? j = k.get? j)
      fun _ => k.Settles := by
  induction depth generalizing id with
  | zero =>
    refine .throw ?_
    rintro _ rfl
    exact .refl _
  | succ depth ih =>
    refine .bind .get fun k' => .assuming (fun _ hs => hs.1.trans hs.2) ?_
    rintro rfl
    have hsame (s : Heap) (hs : k' = s ∧ s = k') : k'.Settles s := hs.1 ▸ .refl k'
    split
    · rename_i v hv
      split
      · rename_i words hdata
        refine .pure ?_
        rintro _ ⟨rfl, -⟩
        have ha : k'.get? id = some (.ofPlain ⟨v.toExtents, v.kind, words⟩) := by
          obtain ⟨extents, kind, data, ends⟩ := v
          cases hdata
          exact hv
        exact ⟨.refl _, 0, _, .plain ha, ha, fun _ _ => rfl⟩
      · rename_i base starts hdata
        refine .bind ((ih base).mono (fun _ hs => hs.2) (fun _ _ hl => hl) fun _ _ hl => hl) fun _ =>
          .bind .get fun l => ?_
        split
        · exact .throw fun _ hs => hs.2.1
        · rename_i b hb
          obtain ⟨o, ho, hplain⟩ := Option.bind_eq_some_iff.1 hb
          obtain rfl := Object.eq_ofPlain hplain
          dsimp only
          split
          · exact .throw (e := ErrorCode.index) fun _ hs => hs.2.1
          · rename_i hlength
            split
            · exact .throw (e := ErrorCode.index) fun _ hs => hs.2.1
            · rename_i hfits
              rw [Bool.not_eq_true, Bool.not_eq_false'] at hfits
              rw [PlainArray.fetchWindow_eq]
              rintro _ ⟨rfl, hl, n, b', hreads, hbase, hframe⟩
              obtain rfl : b = b' := Object.ofPlain_injective (Option.some.inj (ho.symm.trans hbase))
              have hview : k'.ViewAt id v base starts := ⟨hv, hdata⟩
              obtain ⟨hsettles, hget, hframe'⟩ :=
                hl.copyOut hview hreads hbase (not_not.1 hlength) hfits hframe rfl
              exact ⟨hsettles, n + 1, _, .view hview hreads (not_not.1 hlength) hfits, hget, hframe'⟩
    · exact .throw hsame

end Heap

end RegisterVM
