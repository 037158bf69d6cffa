import RegisterVM.Proofs.DataflowPaths

/-!
# Values carried directly

Compiled code may carry a register as a plain value, without a variable of its own, if one definition in
the range serves every use. The analysis looks for that definition by a search for ways round it. In terms
of walks that enter the range at its start and stay inside:

* an instruction dominates another exactly if every walk to the other passes it
  (`dominatesWithin_iff_forall_walk`);
* the definition found is exactly the one in the range that comes before every use, is the only one in the
  whole code to reach it, and lies on every walk to it (`directDef?_iff`);
* so whenever a walk comes to a use, the last visit to the definition is behind it, and nothing since then
  has defined the register again (`exists_lastVisit`).

The search may end early, at the definition or at the use, so a way it finds goes to the use for the first
time; walks may pass a use as often as they like.
-/

namespace RegisterVM

namespace Dataflow

variable {code : Array Instruction} {registers i j : Nat} {q : Reg} {range : IndexRange} {path : List Nat}

/-! ### Walks through a range -/

/-- Control enters a range at its start and comes to `j`, passing the instructions `path` before it. It does
not leave the range on its way. -/
structure Walk (code : Array Instruction) (range : IndexRange) (path : List Nat) (j : Nat) : Prop where
  goes : Path code range.first path j
  inside : ∀ p ∈ path, p ∈ range
  arrives : j ∈ range

/-- A path inside the range that does not pass an index avoids it. -/
theorem avoids_of_path {x : Nat} (hpath : Path code x path j) (hinside : ∀ p ∈ path, p ∈ range)
    (hj : j ∈ range) (hi : i ∉ path) : Relation.ReflTransGen (Avoids code range i) x j := by
  induction hpath with
  | nil x => exact .refl
  | @cons x k j path hstep hrest ih =>
    rw [List.forall_mem_cons] at hinside
    rw [List.mem_cons, not_or] at hi
    have hk : k ∈ range := by
      cases hrest with
      | nil => exact hj
      | cons _ _ => exact hinside.2 k List.mem_cons_self
    exact .head ⟨Ne.symm hi.1, hstep, IndexRange.contains_eq_true.2 hk⟩ (ih hinside.2 hj hi.2)

/-- A way that avoids an index is a path inside the range. -/
theorem exists_path_of_avoids {x : Nat} (hway : Relation.ReflTransGen (Avoids code range i) x j)
    (hx : x ∈ range) : ∃ path, Path code x path j ∧ (∀ p ∈ path, p ∈ range) ∧ i ∉ path := by
  induction hway using Relation.ReflTransGen.head_induction_on with
  | refl => exact ⟨[], .nil j, List.forall_mem_nil _, List.not_mem_nil⟩
  | @head x y hstep _ ih =>
    obtain ⟨hxi, hsucc, hy⟩ := hstep
    obtain ⟨path, hpath, hinside, hi⟩ := ih (IndexRange.contains_eq_true.1 hy)
    refine ⟨x :: path, .cons hsucc hpath, List.forall_mem_cons.2 ⟨hx, hinside⟩, ?_⟩
    rw [List.mem_cons, not_or]
    exact ⟨Ne.symm hxi, hi⟩

/-- **A way that avoids an instruction is a walk that does not pass it.** -/
theorem exists_walk_iff (hj : j ∈ range) :
    (∃ path, Walk code range path j ∧ i ∉ path) ↔
      Relation.ReflTransGen (Avoids code range i) range.first j := by
  constructor
  · rintro ⟨path, ⟨hpath, hinside, -⟩, hi⟩
    exact avoids_of_path hpath hinside hj hi
  · intro hway
    have hfirst : range.first ∈ range := ⟨le_rfl, hj.1.trans hj.2⟩
    obtain ⟨path, hpath, hinside, hi⟩ := exists_path_of_avoids hway hfirst
    exact ⟨path, ⟨hpath, hinside, hj⟩, hi⟩

/-- **An instruction dominates another inside a range** exactly if every walk to the other passes it. -/
theorem dominatesWithin_iff_forall_walk {use : Nat} (hi : i ≠ use) (huse : use ∈ range)
    (hlt : use < code.size) : (ofCode code registers).dominatesWithin range i use = true ↔
      ∀ path, Walk code range path use → i ∈ path := by
  rw [dominatesWithin_iff hi hlt, ← exists_walk_iff huse]
  push Not
  rfl

/-! ### The definition a register is carried from -/

/-- The definitions in a range are those of its instructions. -/
theorem mem_defsIn : j ∈ (ofCode code registers).defsIn q range ↔ j ∈ range ∧ DefinesAt code j q :=
  definedAt_iff_mem_defsIn.symm.trans (and_congr_left' IndexRange.contains_eq_true)

/-- The uses in a range are those of its instructions. -/
theorem mem_usesIn : j ∈ (ofCode code registers).usesIn q range ↔ j ∈ range ∧ UsesAt code j q :=
  usedAt_iff_mem_usesIn.symm.trans (and_congr_left' IndexRange.contains_eq_true)

/-- There is one definition in a range just if one instruction of it defines the register. -/
theorem defsIn_eq_singleton_iff :
    (ofCode code registers).defsIn q range = [i] ↔ ∀ j, j ∈ range ∧ DefinesAt code j q ↔ j = i := by
  constructor
  · intro hdefs j
    have hmem : j ∈ (ofCode code registers).defsIn q range ↔ j ∈ range ∧ DefinesAt code j q := mem_defsIn
    rw [← hmem, hdefs, List.mem_singleton]
  · intro h
    have hnodup : ((ofCode code registers).defsIn q range).Nodup := (List.nodup_range' ..).filter _
    refine List.perm_singleton.1 ((List.perm_ext_iff_of_nodup hnodup (List.nodup_singleton i)).2 fun j => ?_)
    rw [mem_defsIn, h, List.mem_singleton]

/-- **The definition a register is carried from**, said without the searches. -/
theorem directDef?_iff : (ofCode code registers).directDef? q range = some i ↔
    (∀ j, j ∈ range ∧ DefinesAt code j q ↔ j = i) ∧ ∀ use ∈ range, UsesAt code use q →
      i < use ∧ OnlyReaches code q i use ∧ ∀ path, Walk code range path use → i ∈ path := by
  rw [directDef?_eq_some_iff, defsIn_eq_singleton_iff]
  refine and_congr_right fun _ => forall_congr' fun use => ?_
  rw [mem_usesIn, and_imp]
  refine forall₂_congr fun huse hq => and_congr_right fun hlt => ?_
  have hsize : use < code.size := by
    obtain ⟨ins, hins, -⟩ := hq
    exact (Array.getElem?_eq_some_iff.1 hins).1
  rw [isOnlyReachingDef_iff_onlyReaches, dominatesWithin_iff_forall_walk (by omega) huse hsize]

/-- The last visit on a path to an instruction on it. -/
theorem exists_append_of_mem {path : List Nat} (h : i ∈ path) :
    ∃ front back, path = front ++ i :: back ∧ i ∉ back := by
  obtain ⟨back, front, hpath, hnot⟩ := List.eq_append_cons_of_mem (List.mem_reverse.2 h)
  refine ⟨front.reverse, back.reverse, ?_, by rwa [List.mem_reverse]⟩
  rw [← List.reverse_reverse path, hpath]
  simp

/-- **Every use comes behind the definition the register is carried from**, and nothing has defined the
register again since the last visit to it. -/
theorem exists_lastVisit (h : (ofCode code registers).directDef? q range = some i) {use : Nat}
    (hwalk : Walk code range path use) (huse : UsesAt code use q) :
    ∃ front back, path = front ++ i :: back ∧ Clear code q back := by
  obtain ⟨honly, huses⟩ := directDef?_iff.1 h
  obtain ⟨-, -, hpasses⟩ := huses use hwalk.arrives huse
  obtain ⟨front, back, rfl, hback⟩ := exists_append_of_mem (hpasses path hwalk)
  refine ⟨front, back, rfl, fun p hp hdef => hback ?_⟩
  have hinside : p ∈ range := hwalk.inside p (List.mem_append_right _ (List.mem_cons_of_mem _ hp))
  rwa [← (honly p).1 ⟨hinside, hdef⟩]

end Dataflow

end RegisterVM
