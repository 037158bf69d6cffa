import Mathlib
import RegisterVM.Proofs.Liveness

/-!
# What the searches of the dataflow analysis find

The depth-first search marks exactly the nodes that can be reached (`reachable_iff`). From that, in
terms of ways through the code:

* the definitions that reach a use are those joined to it by a way on which nothing else defines the
  register (`Dataflow.at_mem_reachingDefs`, `Dataflow.entry_mem_reachingDefs`), along which the register is
  live (`Dataflow.isLiveIn_of_way`);
* an instruction that dominates another inside a range lies on every way to it from the start of the
  range (`Dataflow.dominatesWithin_iff`).
-/

namespace RegisterVM

/-! ### The search -/

/-- Node `v` is marked. -/
def Marked (seen : Array Bool) (v : Nat) : Prop := seen.getD v false = true

/-- Marking an index adds it. -/
theorem marked_set {seen : Array Bool} {v : Nat} (hv : v < seen.size) {u : Nat} :
    Marked (seen.set v true) u ↔ u = v ∨ Marked seen u := by
  unfold Marked
  rw [Array.getD_eq_getD_getElem?, Array.getD_eq_getD_getElem?, Array.getElem?_set]
  by_cases huv : v = u
  · simp [huv]
  · rw [if_neg huv]
    exact ⟨.inr, fun h => h.resolve_left (Ne.symm huv)⟩

/-- What is marked is an index of the array. -/
theorem Marked.lt_size {seen : Array Bool} {v : Nat} (h : Marked seen v) : v < seen.size := by
  by_contra hv
  rw [Marked, Array.getD_eq_getD_getElem?, Array.getElem?_eq_none (by omega)] at h
  cases h

/-- An index whose mark is set is marked. -/
theorem marked_of_getElem {seen : Array Bool} {v : Nat} {hv : v < seen.size} (h : seen[v] = true) :
    Marked seen v := by
  rw [Marked, Array.getD_eq_getD_getElem?, Array.getElem?_eq_getElem hv, h]
  rfl

section Search

variable {next : Nat → List Nat} {work : List Nat} {seen : Array Bool}

/-- Exploring does not change the number of marks. -/
theorem size_explore : (explore next work seen).size = seen.size := by
  fun_induction explore next work seen with
  | case1 => rfl
  | case2 seen v rest hv hseen ih => exact ih
  | case3 seen v rest hv hseen ih => rw [ih, Array.size_set]
  | case4 seen v rest hv ih => exact ih

/-- Exploring takes no mark away. -/
theorem marked_explore_of_marked {u : Nat} (h : Marked seen u) : Marked (explore next work seen) u := by
  fun_induction explore next work seen with
  | case1 => exact h
  | case2 seen v rest hv hseen ih => exact ih h
  | case3 seen v rest hv hseen ih => exact ih ((marked_set hv).2 (.inr h))
  | case4 seen v rest hv ih => exact ih h

/-- Everything in the graph that is to be visited is marked in the end. -/
theorem marked_explore_of_mem {u : Nat} (h : u ∈ work) (hu : u < seen.size) :
    Marked (explore next work seen) u := by
  fun_induction explore next work seen with
  | case1 => cases h
  | case2 seen v rest hv hseen ih =>
    rcases List.mem_cons.1 h with rfl | h
    · exact marked_explore_of_marked (marked_of_getElem hseen)
    · exact ih h hu
  | case3 seen v rest hv hseen ih =>
    rcases List.mem_cons.1 h with rfl | h
    · exact marked_explore_of_marked ((marked_set hv).2 (.inl rfl))
    · exact ih (List.mem_append_right _ h) (by rwa [Array.size_set])
  | case4 seen v rest hv ih =>
    rcases List.mem_cons.1 h with rfl | h
    · exact absurd hu hv
    · exact ih h hu

/-- The marks are closed: what follows a marked node is marked, provided it was marked or waiting to
be visited at the start. -/
theorem closed_explore
    (h : ∀ u v, Marked seen u → v ∈ next u → v < seen.size → Marked seen v ∨ v ∈ work) {u v : Nat}
    (hu : Marked (explore next work seen) u) (hv : v ∈ next u) (hlt : v < seen.size) :
    Marked (explore next work seen) v := by
  fun_induction explore next work seen with
  | case1 => exact (h u v hu hv hlt).resolve_right List.not_mem_nil
  | case2 seen w rest hw hseen ih =>
    refine ih (fun u v hu hv hlt => ?_) hu hlt
    rcases h u v hu hv hlt with h | h
    · exact .inl h
    · rcases List.mem_cons.1 h with rfl | h
      · exact .inl (marked_of_getElem hseen)
      · exact .inr h
  | case3 seen w rest hw hseen ih =>
    refine ih (fun u v hu hv hlt => ?_) hu (by rwa [Array.size_set])
    rw [Array.size_set] at hlt
    rw [marked_set hw] at hu ⊢
    rcases hu with rfl | hu
    · exact .inr (List.mem_append_left _ hv)
    · rcases h u v hu hv hlt with h | h
      · exact .inl (.inr h)
      · rcases List.mem_cons.1 h with rfl | h
        · exact .inl (.inl rfl)
        · exact .inr (List.mem_append_right _ h)
  | case4 seen w rest hw ih =>
    refine ih (fun u v hu hv hlt => ?_) hu hlt
    rcases h u v hu hv hlt with h | h
    · exact .inl h
    · rcases List.mem_cons.1 h with rfl | h
      · exact absurd hlt hw
      · exact .inr h

/-- What is marked was marked before or can be reached from the nodes to be visited. -/
theorem exists_of_marked_explore {u : Nat} (h : Marked (explore next work seen) u) :
    Marked seen u ∨ ∃ w ∈ work, Relation.ReflTransGen (fun x y => x < seen.size ∧ y ∈ next x) w u := by
  fun_induction explore next work seen with
  | case1 => exact .inl h
  | case2 seen v rest hv hseen ih =>
    exact (ih h).imp_right fun ⟨w, hw, hpath⟩ => ⟨w, List.mem_cons_of_mem _ hw, hpath⟩
  | case3 seen v rest hv hseen ih =>
    rw [Array.size_set, marked_set hv] at ih
    rcases ih h with (rfl | h) | ⟨w, hw, hpath⟩
    · exact .inr ⟨_, List.mem_cons_self, .refl⟩
    · exact .inl h
    · rcases List.mem_append.1 hw with hw | hw
      · exact .inr ⟨v, List.mem_cons_self, .head ⟨hv, hw⟩ hpath⟩
      · exact .inr ⟨w, List.mem_cons_of_mem _ hw, hpath⟩
  | case4 seen v rest hv ih =>
    exact (ih h).imp_right fun ⟨w, hw, hpath⟩ => ⟨w, List.mem_cons_of_mem _ hw, hpath⟩

end Search

/-- **The search finds what can be reached.** Ways go through nodes of the graph only. -/
theorem reachable_iff {n : Nat} {next : Nat → List Nat} {starts : List Nat} {v : Nat} :
    (reachable n next starts).getD v false = true ↔
      v < n ∧ ∃ w ∈ starts, Relation.ReflTransGen (fun x y => x < n ∧ y ∈ next x) w v := by
  have hsize : (Array.replicate n false).size = n := Array.size_replicate
  have hnone : ∀ u, ¬Marked (Array.replicate n false) u := fun u hu => by
    rw [Marked, Array.getD_eq_getD_getElem?, Array.getElem?_replicate] at hu
    split at hu <;> cases hu
  constructor
  · intro h
    have hlt : v < n := by
      have := Marked.lt_size h
      rwa [reachable, size_explore, hsize] at this
    obtain h | ⟨w, hw, hpath⟩ := exists_of_marked_explore h
    · exact absurd h (hnone v)
    · rw [hsize] at hpath
      exact ⟨hlt, w, hw, hpath⟩
  · rintro ⟨hlt, w, hw, hpath⟩
    have hmarked : ∀ u, Relation.ReflTransGen (fun x y => x < n ∧ y ∈ next x) w u → u < n →
        Marked (reachable n next starts) u := by
      intro u hu
      induction hu with
      | refl => exact fun hlt => marked_explore_of_mem hw (by rwa [hsize])
      | tail hx hstep ih =>
        intro hlt
        exact closed_explore (fun u _ hu => absurd hu (hnone u)) (ih hstep.1) hstep.2 (by rwa [hsize])
    exact hmarked v hpath hlt

/-! ### Predecessors -/

namespace FlowGraph

variable {preds : Array (List Nat)} {i p v : Nat}

/-- One more predecessor for an index. -/
theorem mem_modify {s : Nat} :
    p ∈ (preds.modify s (i :: ·)).getD v [] ↔ p ∈ preds.getD v [] ∨ p = i ∧ v = s ∧ v < preds.size := by
  rw [Array.getD_eq_getD_getElem?, Array.getD_eq_getD_getElem?, Array.getElem?_modify]
  by_cases hsv : s = v
  · subst hsv
    rw [if_pos rfl]
    by_cases hlt : s < preds.size
    · rw [Array.getElem?_eq_getElem hlt]
      simp [hlt, or_comm]
    · rw [Array.getElem?_eq_none (by omega)]
      simp [hlt]
  · rw [if_neg hsv]
    simp [Ne.symm hsv]

/-- Noting `i` for each of some nodes. -/
theorem mem_foldl_modify {out : List Nat} :
    p ∈ (out.foldl (fun preds s => preds.modify s (i :: ·)) preds).getD v [] ↔
      p ∈ preds.getD v [] ∨ p = i ∧ v ∈ out ∧ v < preds.size := by
  induction out generalizing preds with
  | nil => simp
  | cons s out ih =>
    rw [List.foldl_cons, ih, mem_modify, Array.size_modify, List.mem_cons]
    tauto

/-- Adding predecessors of one index keeps the number of lists. -/
theorem size_foldl_modify {out : List Nat} :
    (out.foldl (fun preds s => preds.modify s (i :: ·)) preds).size = preds.size := by
  induction out generalizing preds with
  | nil => rfl
  | cons s out ih => rw [List.foldl_cons, ih, Array.size_modify]

/-- So does adding those of all. -/
theorem size_foldr_modify {rows : List (List Nat × Nat)} :
    (rows.foldr (fun row preds => row.1.foldl (fun preds s => preds.modify s (row.2 :: ·)) preds)
      preds).size = preds.size := by
  induction rows with
  | nil => rfl
  | cons row rows ih => rw [List.foldr_cons, size_foldl_modify, ih]

/-- Noting every node of some rows of successors, each row with the node it belongs to. -/
theorem mem_foldr_modify {rows : List (List Nat × Nat)} :
    p ∈ (rows.foldr (fun row preds => row.1.foldl (fun preds s => preds.modify s (row.2 :: ·)) preds)
        preds).getD v [] ↔
      p ∈ preds.getD v [] ∨ v < preds.size ∧ ∃ row ∈ rows, p = row.2 ∧ v ∈ row.1 := by
  induction rows with
  | nil => simp
  | cons row rows ih =>
    rw [List.foldr_cons, mem_foldl_modify, ih, size_foldr_modify, List.exists_mem_cons_iff]
    grind

/-- **The predecessors of a node are the nodes that have it as a successor.** -/
theorem mem_predsAt {code : Array Instruction} : p ∈ (ofCode code).predsAt v ↔ v ∈ successors code p := by
  have hsize : (ofCode code).succs.size = code.size := by
    rw [ofCode, Array.size_map, Array.size_range]
  have hmem : p ∈ (ofCode code).predsAt v ↔
      p ∈ (Array.replicate (ofCode code).succs.size ([] : List Nat)).getD v [] ∨
        v < (Array.replicate (ofCode code).succs.size ([] : List Nat)).size ∧
          ∃ row ∈ (ofCode code).succs.toList.zipIdx, p = row.2 ∧ v ∈ row.1 := mem_foldr_modify
  have hnone : p ∉ (Array.replicate (ofCode code).succs.size ([] : List Nat)).getD v [] := by
    rw [Array.getD_eq_getD_getElem?, Array.getElem?_replicate]
    split <;> exact List.not_mem_nil
  rw [hmem, or_iff_right hnone, Array.size_replicate, hsize, ← succsAt_ofCode, succsAt,
    Array.getD_eq_getD_getElem?]
  constructor
  · rintro ⟨-, row, hrow, rfl, hv⟩
    rw [List.mem_zipIdx_iff_getElem?, Array.getElem?_toList] at hrow
    rw [hrow]
    exact hv
  · intro hv
    cases hout : (ofCode code).succs[p]? with
    | none =>
      rw [hout] at hv
      cases hv
    | some out =>
      rw [hout] at hv
      refine ⟨?_, (out, p), ?_, rfl, hv⟩
      · refine successors_lt (i := p) ?_
        rw [← succsAt_ofCode, succsAt, Array.getD_eq_getD_getElem?, hout]
        exact hv
      · rw [List.mem_zipIdx_iff_getElem?, Array.getElem?_toList]
        exact hout

end FlowGraph

/-! ### Definitions and uses -/

namespace Dataflow

variable {code : Array Instruction} {registers : Nat} {q : Reg} {i use : Nat}

/-- Only instructions of the code have successors. -/
theorem lt_size_of_mem_successors {j : Nat} (h : j ∈ successors code i) : i < code.size := by
  by_contra hi
  rw [successors, Array.getElem?_eq_none (by omega)] at h
  cases h

/-- The bit for a definition says whether the instruction defines the register. -/
theorem defines_iff {ins : Instruction} (hi : code[i]? = some ins) :
    (ofCode code registers).defines q i = true ↔ q ∈ ins.defs := by
  rw [defines, List.contains_iff_mem]
  exact iff_of_eq (congrArg (q ∈ ·) (FlowGraph.defsAt_ofCode hi))

/-- Instruction `i` defines register `q`. -/
def DefinesAt (code : Array Instruction) (i : Nat) (q : Reg) : Prop :=
  ∃ ins, code[i]? = some ins ∧ q ∈ ins.defs

/-- Instruction `i` uses register `q`. -/
def UsesAt (code : Array Instruction) (i : Nat) (q : Reg) : Prop :=
  ∃ ins, code[i]? = some ins ∧ q ∈ ins.uses

/-- What is noted for the instructions one by one. -/
theorem mem_getD_map {f : Instruction → List Reg} :
    q ∈ (code.map f).getD i [] ↔ ∃ ins, code[i]? = some ins ∧ q ∈ f ins := by
  rw [Array.getD_eq_getD_getElem?, Array.getElem?_map]
  cases code[i]? <;> simp

/-- So it does, whether there is an instruction or not. -/
theorem defines_iff_definesAt : (ofCode code registers).defines q i = true ↔ DefinesAt code i q := by
  rw [defines, List.contains_iff_mem]
  exact mem_getD_map

/-- The bit for a use says whether the instruction uses the register. -/
theorem reads_iff_usesAt : (ofCode code registers).reads q i = true ↔ UsesAt code i q := by
  rw [reads, List.contains_iff_mem]
  exact mem_getD_map

/-- Control can go from `x` to `y`, and `x` does not define `q`. -/
def Keeps (code : Array Instruction) (q : Reg) (x y : Nat) : Prop :=
  y ∈ successors code x ∧ ∀ ins, code[x]? = some ins → q ∉ ins.defs

/-- **The search backwards from a use visits what control can come from** with no definition of the
register in between. -/
theorem backwardFrom_iff : ((ofCode code registers).backwardFrom q use).getD i false = true ↔
    ∃ v ∈ successors code i, Relation.ReflTransGen (Keeps code q) v use := by
  have hpreds (v p : Nat) : p ∈ (ofCode code registers).graph.predsAt v ↔ v ∈ successors code p :=
    FlowGraph.mem_predsAt
  refine reachable_iff.trans ⟨?_, ?_⟩
  · rintro ⟨-, w, hw, hback⟩
    -- the search goes backwards: turn it round step by step
    induction hback with
    | refl => exact ⟨use, (hpreds _ _).1 hw, .refl⟩
    | @tail u u' _ hstep ih =>
      obtain ⟨v, hv, hpath⟩ := ih
      obtain ⟨-, hu'⟩ := hstep
      split at hu'
      · cases hu'
      · rename_i hdef
        exact ⟨u, (hpreds _ _).1 hu', .head ⟨hv, fun ins hins hq => hdef ((defines_iff hins).2 hq)⟩ hpath⟩
  · rintro ⟨v, hv, hway⟩
    refine ⟨lt_size_of_mem_successors hv, ?_⟩
    induction hway using Relation.ReflTransGen.head_induction_on generalizing i with
    | refl => exact ⟨i, (hpreds _ _).2 hv, .refl⟩
    | @head x y hstep _ ih =>
      obtain ⟨w, hw, hback⟩ := ih hstep.1
      refine ⟨w, hw, hback.tail ⟨lt_size_of_mem_successors hstep.1, ?_⟩⟩
      have hins := Array.getElem?_eq_getElem (lt_size_of_mem_successors hstep.1)
      rw [if_neg fun hdef => hstep.2 _ hins ((defines_iff hins).1 hdef)]
      exact (hpreds _ _).2 hv

/-- A definition reaches a use if there is a way from behind it that keeps the register. -/
theorem at_mem_reachingDefs : Definition.at i ∈ (ofCode code registers).reachingDefs q use ↔
    (ofCode code registers).defines q i = true ∧
      ∃ v ∈ successors code i, Relation.ReflTransGen (Keeps code q) v use := by
  have hentry : ∀ (c : Prop) [Decidable c], Definition.at i ∉ if c then [Definition.entry] else [] := by
    intro c _
    split <;> simp
  rw [reachingDefs, List.mem_append, or_iff_right (hentry _), List.mem_map]
  simp only [Definition.at.injEq, exists_eq_right, List.mem_filter, Bool.and_eq_true, List.mem_range,
    backwardFrom_iff]
  constructor
  · rintro ⟨-, hway, hdef⟩
    exact ⟨hdef, hway⟩
  · rintro ⟨hdef, v, hv, hway⟩
    exact ⟨lt_size_of_mem_successors hv, ⟨v, hv, hway⟩, hdef⟩

/-- The entry reaches a use if there is a way from the start that keeps the register. -/
theorem entry_mem_reachingDefs : Definition.entry ∈ (ofCode code registers).reachingDefs q use ↔
    Relation.ReflTransGen (Keeps code q) 0 use := by
  have hat : ∀ is : List Nat, Definition.entry ∉ is.map Definition.at := by simp
  have hif : ∀ (c : Prop) [Decidable c], (Definition.entry ∈ if c then [Definition.entry] else []) ↔ c := by
    intro c _
    split <;> simp [*]
  rw [reachingDefs, List.mem_append, or_iff_left (hat _), hif, Bool.and_eq_true, Bool.not_eq_true',
    backwardFrom_iff]
  constructor
  · rintro (rfl | ⟨⟨v, hv, hway⟩, hdef⟩)
    · exact .refl
    · refine .head ⟨hv, fun ins hins hq => ?_⟩ hway
      rw [(defines_iff hins).2 hq] at hdef
      cases hdef
  · intro hway
    rcases Relation.ReflTransGen.cases_head hway with rfl | ⟨v, hstep, hway⟩
    · exact .inl rfl
    · have hins := Array.getElem?_eq_getElem (lt_size_of_mem_successors hstep.1)
      refine .inr ⟨⟨v, hstep.1, hway⟩, ?_⟩
      rw [← Bool.not_eq_true, defines_iff hins]
      exact hstep.2 _ hins

/-- **The only definition that reaches a use is joined to it by a way without other definitions.** -/
theorem exists_way_of_isOnlyReachingDef
    (h : (ofCode code registers).isOnlyReachingDef q i use = true) :
    ∃ v ∈ successors code i, Relation.ReflTransGen (Keeps code q) v use := by
  have hmem : Definition.at i ∈ (ofCode code registers).reachingDefs q use := by
    rw [eq_of_beq h]
    exact List.mem_singleton_self _
  exact (at_mem_reachingDefs.1 hmem).2

/-- **A register is live along a way to a use of it.** -/
theorem isLiveIn_of_way {ins : Instruction} (huse : code[use]? = some ins) (hq : q ∈ ins.uses)
    {v : Nat} (hway : Relation.ReflTransGen (Keeps code q) v use) :
    (ofCode code registers).isLiveIn q v = true := by
  induction hway using Relation.ReflTransGen.head_induction_on with
  | refl => exact isLiveIn_of_uses huse hq
  | head hstep _ ih =>
    have hlt := lt_size_of_mem_successors hstep.1
    have hx := Array.getElem?_eq_getElem hlt
    exact isLiveIn_of_successors hx hstep.1 ih (hstep.2 _ hx)

/-! ### Dominance -/

/-- Control can go from `x` to `y` inside the range, and `x` is not `i`. -/
def Avoids (code : Array Instruction) (range : IndexRange) (i x y : Nat) : Prop :=
  x ≠ i ∧ y ∈ successors code x ∧ range.contains y = true

/-- A way, cut where it first meets its end. -/
theorem reflTransGen_until {R S : Nat → Nat → Prop} {x t : Nat} (h : Relation.ReflTransGen R x t)
    (hstep : ∀ x y, x ≠ t → R x y → S x y) : Relation.ReflTransGen S x t := by
  induction h using Relation.ReflTransGen.head_induction_on with
  | refl => exact .refl
  | @head x y hxy _ ih =>
    by_cases hx : x = t
    · exact hx ▸ .refl
    · exact .head (hstep x y hx hxy) ih

/-- **An instruction dominates another inside the range** exactly if no way from the start of the range to
the other avoids it. -/
theorem dominatesWithin_iff {range : IndexRange} {target : Nat} (hi : i ≠ target)
    (hlt : target < code.size) : (ofCode code registers).dominatesWithin range i target = true ↔
      ¬Relation.ReflTransGen (Avoids code range i) range.first target := by
  by_cases hfirst : i = range.first
  · have hno : ¬Relation.ReflTransGen (Avoids code range i) range.first target := by
      intro hway
      rcases Relation.ReflTransGen.cases_head hway with heq | ⟨y, hstep, -⟩
      · exact hi (hfirst.trans heq)
      · exact hstep.1 hfirst.symm
    exact iff_of_true (if_pos (.inl hfirst)) hno
  · rw [dominatesWithin, if_neg (by simp [hfirst, hi])]
    dsimp only
    rw [Bool.not_eq_true', ← Bool.not_eq_true, reachable_iff, not_iff_not]
    constructor
    · rintro ⟨-, w, hw, hway⟩
      rw [List.mem_singleton.1 hw] at hway
      refine Relation.ReflTransGen.mono (fun x y hstep => ?_) _ _ hway
      obtain ⟨-, hy⟩ := hstep
      split at hy
      · cases hy
      · rename_i hx
        obtain ⟨hsucc, hinside⟩ := List.mem_filter.1 hy
        exact ⟨fun hxi => hx (.inl hxi), (FlowGraph.succsAt_ofCode code x) ▸ hsucc, hinside⟩
    · intro hway
      refine ⟨hlt, range.first, List.mem_singleton_self _, ?_⟩
      refine reflTransGen_until hway fun x y hx hstep => ⟨lt_size_of_mem_successors hstep.2.1, ?_⟩
      rw [if_neg (by simp [hstep.1, hx])]
      refine List.mem_filter.2 ⟨?_, hstep.2.2⟩
      exact (FlowGraph.succsAt_ofCode code x).symm ▸ hstep.2.1

/-! ### Registers carried directly -/

/-- An instruction of the range defines the register. -/
def DefinedAt (code : Array Instruction) (range : IndexRange) (q : Reg) (j : Nat) : Prop :=
  range.contains j = true ∧ ∃ ins, code[j]? = some ins ∧ q ∈ ins.defs

/-- An instruction of the range uses the register. -/
def UsedAt (code : Array Instruction) (range : IndexRange) (q : Reg) (j : Nat) : Prop :=
  range.contains j = true ∧ ∃ ins, code[j]? = some ins ∧ q ∈ ins.uses

/-- What makes the definition at `i` the one a register is carried from. -/
structure CarriedFrom (code : Array Instruction) (range : IndexRange) (q : Reg) (i : Nat) :
    Prop where
  defined_iff : ∀ j, DefinedAt code range q j ↔ j = i
  before : ∀ j, UsedAt code range q j → i < j
  reaches : ∀ j, UsedAt code range q j →
    ∃ v ∈ successors code i, Relation.ReflTransGen (Keeps code q) v j
  dominates : ∀ j, UsedAt code range q j →
    ¬Relation.ReflTransGen (Avoids code range i) range.first j

/-- The definitions in a range are listed. -/
theorem definedAt_iff_mem_defsIn {range : IndexRange} {j : Nat} :
    DefinedAt code range q j ↔ j ∈ (ofCode code registers).defsIn q range := by
  rw [defsIn, List.mem_filter, IndexRange.mem_indices, ← IndexRange.contains_iff]
  exact and_congr_right fun _ => defines_iff_definesAt.symm

/-- So are the uses. -/
theorem usedAt_iff_mem_usesIn {range : IndexRange} {j : Nat} :
    UsedAt code range q j ↔ j ∈ (ofCode code registers).usesIn q range := by
  rw [usesIn, List.mem_filter, IndexRange.mem_indices, ← IndexRange.contains_iff]
  exact and_congr_right fun _ => reads_iff_usesAt.symm

/-- The conditions on the one definition a register is carried from, as they are asked. -/
theorem directDef?_eq_some_iff {d : Dataflow} {range : IndexRange} :
    d.directDef? q range = some i ↔ d.defsIn q range = [i] ∧ ∀ j ∈ d.usesIn q range,
      i < j ∧ d.isOnlyReachingDef q i j = true ∧ d.dominatesWithin range i j = true := by
  unfold directDef?
  split
  · rename_i k hdefs
    dsimp only
    rw [Option.ite_none_right_eq_some, Option.some.injEq, List.all_eq_true, hdefs, List.cons.injEq]
    simp only [Bool.and_eq_true, decide_eq_true_eq, and_assoc, and_true]
    constructor
    · rintro ⟨huses, rfl⟩
      exact ⟨rfl, huses⟩
    · rintro ⟨rfl, huses⟩
      exact ⟨huses, rfl⟩
  · rename_i hdefs
    exact iff_of_false (by rintro ⟨⟩) fun h => hdefs i h.1

/-- **A register that is found to be carried directly is**, from the definition that was found. -/
theorem carriedFrom_of_directDef {range : IndexRange}
    (h : (ofCode code registers).directDef? q range = some i) : CarriedFrom code range q i := by
  obtain ⟨hdefs, huses⟩ := directDef?_eq_some_iff.1 h
  have hused : ∀ j, UsedAt code range q j → i < j ∧ (ofCode code registers).isOnlyReachingDef q i j = true ∧
      (ofCode code registers).dominatesWithin range i j = true :=
    fun j hj => huses j (usedAt_iff_mem_usesIn.1 hj)
  refine ⟨fun j => ?_, fun j hj => (hused j hj).1,
    fun j hj => exists_way_of_isOnlyReachingDef (hused j hj).2.1, fun j hj => ?_⟩
  · rw [definedAt_iff_mem_defsIn, hdefs, List.mem_singleton]
  · obtain ⟨hlt, -, hdom⟩ := hused j hj
    obtain ⟨-, ins, hins, -⟩ := hj
    exact (dominatesWithin_iff (by omega) (Array.getElem?_eq_some_iff.1 hins).1).1 hdom

end Dataflow

end RegisterVM
