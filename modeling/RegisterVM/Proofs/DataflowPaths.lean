import RegisterVM.Proofs.RangeFamily
import RegisterVM.Proofs.Reachability

/-!
# The dataflow facts are exact

A path through code lists the instructions that control passes on its way. In terms of paths:

* sweeping ends, and a register is in the live set of an instruction exactly if some path from there
  comes to a use of the register before any definition (`isLiveIn_iff_readsAhead`, `liveIn_exact`);
* the definitions that reach a use are listed in their order and without repetition, the entry first,
  and they are exactly those joined to the use by a path on which nothing else defines the register
  (`reachingDefs_exact`).

The first is two inclusions. The live sets take in every step of a path, read backwards
(`isLiveIn_of_way`). They are the least sets that do, and the registers that some path reads first make
such sets too (`closed_readsAhead`). The second turns the search backwards from a use into a path
forwards (`exists_path_iff`).
-/

namespace RegisterVM

/-- The order in which definitions are listed: the entry, then the instructions by index. -/
inductive Definition.Before : Definition → Definition → Prop
  | entry (i : Nat) : Before .entry (.at i)
  | at {i j : Nat} (lt : i < j) : Before (.at i) (.at j)

/-- A definition is not listed before itself. -/
theorem Definition.Before.ne {x y : Definition} (h : x.Before y) : x ≠ y := by
  rintro rfl
  cases h with
  | «at» hlt => exact Nat.lt_irrefl _ hlt

namespace Dataflow

variable {code : Array Instruction} {registers i j : Nat} {q : Reg} {path : List Nat}

/-! ### Paths -/

/-- Control can go from `i` to `j`, passing the instructions `path` before it comes to `j`. -/
inductive Path (code : Array Instruction) : Nat → List Nat → Nat → Prop
  | nil (i : Nat) : Path code i [] i
  | cons {i k j : Nat} {path : List Nat} (step : k ∈ successors code i) (rest : Path code k path j) :
    Path code i (i :: path) j

/-- The empty path stays where it is. -/
theorem path_nil_iff : Path code i [] j ↔ i = j := by
  constructor
  · rintro ⟨⟩
    rfl
  · rintro rfl
    exact .nil i

/-- A path goes to a successor first. -/
theorem path_cons_iff {k : Nat} :
    Path code i (k :: path) j ↔ k = i ∧ ∃ next ∈ successors code i, Path code next path j := by
  constructor
  · rintro ⟨⟩
    exact ⟨rfl, _, ‹_›, ‹_›⟩
  · rintro ⟨rfl, next, hstep, hrest⟩
    exact .cons hstep hrest

instance decidablePath : ∀ (path : List Nat) (i j : Nat), Decidable (Path code i path j)
  | [], _, _ => decidable_of_iff' _ path_nil_iff
  | _ :: path, _, j =>
    have := fun next => decidablePath path next j
    decidable_of_iff' _ path_cons_iff

/-- No instruction on the path defines register `q`. -/
def Clear (code : Array Instruction) (q : Reg) (path : List Nat) : Prop :=
  ∀ p ∈ path, ¬DefinesAt code p q

/-- The empty path is clear. -/
theorem clear_nil : Clear code q [] := List.forall_mem_nil _

/-- A path is clear if its first instruction and the others do not define the register. -/
theorem clear_cons : Clear code q (i :: path) ↔ ¬DefinesAt code i q ∧ Clear code q path :=
  List.forall_mem_cons

/-- A step keeps a register if it is not defined there. -/
theorem keeps_iff : Keeps code q i j ↔ j ∈ successors code i ∧ ¬DefinesAt code i q :=
  and_congr_right fun _ => by simp [DefinesAt]

/-- **A path without definitions is a way that keeps the register.** -/
theorem exists_path_iff :
    (∃ path, Path code i path j ∧ Clear code q path) ↔ Relation.ReflTransGen (Keeps code q) i j := by
  constructor
  · rintro ⟨path, hpath, hclear⟩
    induction hpath with
    | nil i => exact .refl
    | cons hstep _ ih =>
      rw [clear_cons] at hclear
      exact .head (keeps_iff.2 ⟨hstep, hclear.1⟩) (ih hclear.2)
  · intro hway
    induction hway using Relation.ReflTransGen.head_induction_on with
    | refl => exact ⟨[], .nil j, clear_nil⟩
    | @head x y hstep _ ih =>
      obtain ⟨path, hpath, hclear⟩ := ih
      obtain ⟨hy, hx⟩ := keeps_iff.1 hstep
      exact ⟨x :: path, .cons hy hpath, clear_cons.2 ⟨hx, hclear⟩⟩

/-- The same from behind an instruction. -/
theorem exists_path_cons_iff : (∃ path, Path code i (i :: path) j ∧ Clear code q path) ↔
    ∃ k ∈ successors code i, Relation.ReflTransGen (Keeps code q) k j := by
  constructor
  · rintro ⟨path, hpath, hclear⟩
    cases hpath with
    | cons hstep hrest => exact ⟨_, hstep, exists_path_iff.1 ⟨path, hrest, hclear⟩⟩
  · rintro ⟨k, hk, hway⟩
    obtain ⟨path, hrest, hclear⟩ := exists_path_iff.2 hway
    exact ⟨path, .cons hk hrest, hclear⟩

/-! ### Live registers -/

/-- Some path from `i` comes to a use of register `q` before any definition of it. -/
def ReadsAhead (code : Array Instruction) (i : Nat) (q : Reg) : Prop :=
  ∃ path use, Path code i path use ∧ UsesAt code use q ∧ Clear code q path

/-- A use right here is ahead. -/
theorem ReadsAhead.of_usesAt (h : UsesAt code i q) : ReadsAhead code i q :=
  ⟨[], i, .nil i, h, clear_nil⟩

/-- A use ahead of a successor is ahead, if the register is not defined here. -/
theorem ReadsAhead.head {k : Nat} (hk : k ∈ successors code i) (hi : ¬DefinesAt code i q)
    (h : ReadsAhead code k q) : ReadsAhead code i q := by
  obtain ⟨path, use, hpath, huse, hclear⟩ := h
  exact ⟨i :: path, use, .cons hk hpath, huse, clear_cons.2 ⟨hi, hclear⟩⟩

/-- What is read first behind a path is read first before it, if nothing on it defines the register. -/
theorem ReadsAhead.of_path (hpath : Path code i path j) (hclear : Clear code q path)
    (h : ReadsAhead code j q) : ReadsAhead code i q := by
  induction hpath with
  | nil i => exact h
  | cons hstep _ ih =>
    rw [clear_cons] at hclear
    exact .head hstep hclear.1 (ih hclear.2 h)

/-- What some path reads first solves the liveness equations. -/
theorem closed_readsAhead : Liveness.Closed (.ofCode code) (ReadsAhead code) := by
  intro i hi q htransfer
  have hins : code[i]? = some code[i] := Array.getElem?_eq_getElem hi
  rcases htransfer with huse | ⟨hdef, k, hk, hahead⟩
  · rw [FlowGraph.usesAt_ofCode hins] at huse
    exact .of_usesAt ⟨_, hins, huse⟩
  · rw [FlowGraph.defsAt_ofCode hins] at hdef
    rw [FlowGraph.succsAt_ofCode] at hk
    refine hahead.head hk ?_
    rintro ⟨ins, hins', hq⟩
    rw [hins, Option.some.injEq] at hins'
    exact hdef (hins' ▸ hq)

/-- **A register is live exactly if some path reads it first.** -/
theorem isLiveIn_iff_readsAhead :
    (ofCode code registers).isLiveIn q i = true ↔ ReadsAhead code i q := by
  constructor
  · exact fun hlive => Liveness.least_solve closed_readsAhead (isLiveIn_iff_has.1 hlive)
  · rintro ⟨path, use, hpath, ⟨ins, hins, hq⟩, hclear⟩
    exact isLiveIn_of_way hins hq (exists_path_iff.1 ⟨path, hpath, hclear⟩)

/-- **Liveness is exact.** Sweeping until nothing changes ends with the live sets of the analysis, and
they hold the registers that some path reads before it defines them. -/
theorem liveIn_exact (code : Array Instruction) (registers : Nat) :
    Liveness.SweepsTo (.ofCode code) registers (Array.replicate code.size (.withCapacity registers))
        (ofCode code registers).live ∧
      ∀ i q, ((ofCode code registers).liveIn i).contains q = true ↔ ReadsAhead code i q :=
  ⟨Liveness.sweepsTo_solve (.ofCode code) registers, fun _ _ => isLiveIn_iff_readsAhead⟩

/-! ### Where a range is left -/

/-- Where control leaves a range: at a return, or right behind it if the code goes on there. -/
def ExitPoint (code : Array Instruction) (range : IndexRange) (p : Nat) : Prop :=
  (p ∈ range ∧ ∃ ins, code[p]? = some ins ∧ ins.opcode = .ret) ∨ p = range.last + 1 ∧ p < code.size

/-- The exit points are found by the analysis. -/
theorem mem_exitPoints {range : IndexRange} {p : Nat} :
    p ∈ (ofCode code registers).exitPoints range ↔ ExitPoint code range p := by
  have hret : (code[p]?).any (·.opcode = .ret) = true ↔ ∃ ins, code[p]? = some ins ∧ ins.opcode = .ret := by
    rw [Option.any_eq_true]
    simp
  have hbehind : p ∈ (if range.last + 1 < code.size then [range.last + 1] else []) ↔
      p = range.last + 1 ∧ p < code.size := by
    split
    · rw [List.mem_singleton]
      refine ⟨fun h => ⟨h, ?_⟩, And.left⟩
      omega
    · refine iff_of_false List.not_mem_nil ?_
      omega
  unfold exitPoints ExitPoint
  rw [List.mem_append, List.mem_filter, IndexRange.mem_indices_iff]
  exact or_congr (and_congr_right fun _ => hret) hbehind

/-- **A register is live out of a range** if some path from where it is left reads it first. -/
theorem isLiveOut_iff_exists {range : IndexRange} :
    (ofCode code registers).isLiveOut q range = true ↔
      ∃ p, ExitPoint code range p ∧ ReadsAhead code p q := by
  rw [isLiveOut, List.any_eq_true]
  exact exists_congr fun p => and_congr mem_exitPoints isLiveIn_iff_readsAhead

/-! ### Reaching definitions -/

/-- The definition of register `q` at `i` reaches `use`: a path of one step or more leads there, and
nothing strictly between defines the register. -/
def ReachesFrom (code : Array Instruction) (q : Reg) (i use : Nat) : Prop :=
  DefinesAt code i q ∧ ∃ path, Path code i (i :: path) use ∧ Clear code q path

/-- The value that register `q` has at the entry reaches `use`: nothing before it on some path from the
first instruction defines the register. -/
def ReachesFromEntry (code : Array Instruction) (q : Reg) (use : Nat) : Prop :=
  use = 0 ∨ ∃ path, Path code 0 path use ∧ Clear code q path

variable {use : Nat}

/-- The analysis lists a definition just if it reaches the use on a path. -/
theorem at_mem_reachingDefs_iff :
    Definition.at i ∈ (ofCode code registers).reachingDefs q use ↔ ReachesFrom code q i use := by
  rw [at_mem_reachingDefs, defines_iff_definesAt, ← exists_path_cons_iff]
  rfl

/-- The analysis lists the entry just if it reaches the use on a path. -/
theorem entry_mem_reachingDefs_iff :
    Definition.entry ∈ (ofCode code registers).reachingDefs q use ↔ ReachesFromEntry code q use := by
  rw [entry_mem_reachingDefs, ← exists_path_iff]
  refine ⟨.inr, ?_⟩
  rintro (rfl | hpath)
  · exact ⟨[], .nil 0, clear_nil⟩
  · exact hpath

/-- Reaching definitions are listed in order. -/
theorem pairwise_reachingDefs (d : Dataflow) (q : Reg) (use : Nat) :
    (d.reachingDefs q use).Pairwise Definition.Before := by
  have hentry : ∀ (c : Prop) [Decidable c] (x : Definition),
      (x ∈ if c then [Definition.entry] else []) → x = .entry := by
    intro c _ x hx
    split at hx
    · exact List.mem_singleton.1 hx
    · cases hx
  refine List.pairwise_append.2 ⟨?_, ?_, fun x hx y hy => ?_⟩
  · split
    · exact List.pairwise_singleton _ _
    · exact .nil
  · refine List.pairwise_map.2 ((List.pairwise_lt_range.filter _).imp ?_)
    exact fun hlt => .at hlt
  · obtain rfl := hentry _ x hx
    obtain ⟨i, -, rfl⟩ := List.mem_map.1 hy
    exact .entry i

/-- Each is listed once. -/
theorem nodup_reachingDefs (d : Dataflow) (q : Reg) (use : Nat) : (d.reachingDefs q use).Nodup :=
  (pairwise_reachingDefs d q use).imp fun hbefore => hbefore.ne

/-- **A definition is the only one to reach a use** if it is listed and nothing else is. -/
theorem isOnlyReachingDef_iff_mem {d : Dataflow} :
    d.isOnlyReachingDef q i use = true ↔ ∀ x, x ∈ d.reachingDefs q use ↔ x = .at i := by
  rw [isOnlyReachingDef, beq_iff_eq]
  constructor
  · intro h x
    rw [h, List.mem_singleton]
  · intro h
    refine List.perm_singleton.1 ((List.perm_ext_iff_of_nodup (nodup_reachingDefs d q use)
      (List.nodup_singleton _)).2 fun x => ?_)
    rw [h x, List.mem_singleton]

/-- The definition of register `q` at `i` is the only one that reaches `use`, and the entry does not. -/
def OnlyReaches (code : Array Instruction) (q : Reg) (i use : Nat) : Prop :=
  (∀ j, ReachesFrom code q j use ↔ j = i) ∧ ¬ReachesFromEntry code q use

/-- The test for the only reaching definition decides whether it is. -/
theorem isOnlyReachingDef_iff_onlyReaches :
    (ofCode code registers).isOnlyReachingDef q i use = true ↔ OnlyReaches code q i use := by
  rw [isOnlyReachingDef_iff_mem]
  constructor
  · intro h
    refine ⟨fun j => ?_, fun hentry => ?_⟩
    · exact at_mem_reachingDefs_iff.symm.trans ((h (.at j)).trans (by rw [Definition.at.injEq]))
    · have hmem := (h .entry).1 (entry_mem_reachingDefs_iff.2 hentry)
      cases hmem
  · rintro ⟨hat, hentry⟩ x
    cases x with
    | entry =>
      rw [entry_mem_reachingDefs_iff]
      exact iff_of_false hentry (by rintro ⟨⟩)
    | «at» j => rw [at_mem_reachingDefs_iff, hat, Definition.at.injEq]

end Dataflow

end RegisterVM
