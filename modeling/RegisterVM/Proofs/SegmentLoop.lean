import RegisterVM.Proofs.RangeSets
import RegisterVM.Proofs.SegmentRounds

/-!
# The loop over a set of runs

Runs are settled in one set that changes while the loop goes over it. A pass first takes every run with an
offender out of the set and puts what is left around the offender back in; then it looks up, in the set it
now has, the run that each branch lands in, and puts every run that is entered past its start back in
pieces. It reports whether it found an offender or an entry, and the loop ends with the first pass that
found neither.

On a separated set no lookup, removal or insertion meets a run it should not, so a pass is one round, and it
reports something exactly if it changes the set (`pass_eq`). With the potential that every changing round
lowers, the loop ends, in the family that `settle` computes.
-/

namespace RegisterVM
namespace Segment

variable {code : Array Instruction} {types : Array ValueType} {runs : RangeSet} {run : IndexRange}

/-! ### One pass -/

/-- Takes a run with an offender out of the set and puts back what is left around the offender. -/
def exciseRun (code : Array Instruction) (types : Array ValueType) (runs : RangeSet) (run : IndexRange) :
    RangeSet :=
  match firstOffender code types run with
  | none => runs
  | some cut => runs.replace run (around run cut)

/-- One run after the other, in the order they have at the start. -/
def exciseEach (code : Array Instruction) (types : Array ValueType) (runs : RangeSet) : RangeSet :=
  runs.toList.foldl (exciseRun code types) runs

/-- The run a branch enters past its start and from outside, with the place, found by looking up the place. -/
def landing? (runs : RangeSet) (edge : Nat × Nat) : Option (IndexRange × Nat) :=
  (runs.containing? edge.2).bind fun run =>
    if run.first < edge.2 ∧ run.contains edge.1 = false then some (run, edge.2) else none

def landings (code : Array Instruction) (runs : RangeSet) : List (IndexRange × Nat) :=
  (branchEdges code).filterMap (landing? runs)

/-- The places where one run is entered, in ascending order and each once. -/
def landingsIn (code : Array Instruction) (runs : RangeSet) (run : IndexRange) : List Nat :=
  ascending (((landings code runs).filter fun l => l.1 = run).map (·.2))

/-- Takes a run that is entered out of the set and puts back its pieces. The entries were looked up in
`start`, before the first run was taken out. -/
def splitRun (code : Array Instruction) (start runs : RangeSet) (run : IndexRange) : RangeSet :=
  match landingsIn code start run with
  | [] => runs
  | cut :: cuts => runs.replace run (splitAt run.last run.first (cut :: cuts))

def splitEach (code : Array Instruction) (runs : RangeSet) : RangeSet :=
  runs.toList.foldl (splitRun code runs) runs

/-- One pass, and whether it found an offender or an entry. -/
def pass (code : Array Instruction) (types : Array ValueType) (runs : RangeSet) : RangeSet × Bool :=
  let excised := exciseEach code types runs
  (splitEach code excised,
    (runs.toList.any fun run => (firstOffender code types run).isSome) || !(landings code excised).isEmpty)

/-- The loop started with `runs` ends with `result`. -/
inductive LoopsTo (code : Array Instruction) (types : Array ValueType) : RangeSet → RangeSet → Prop
  | stop {runs : RangeSet} (idle : (pass code types runs).2 = false) :
      LoopsTo code types runs (pass code types runs).1
  | again {runs result : RangeSet} (busy : (pass code types runs).2 = true)
      (rest : LoopsTo code types (pass code types runs).1 result) : LoopsTo code types runs result

/-! ### A pass on a separated set is a round -/

/-- Cutting run by run gives what cutting all of them does. -/
theorem exciseEach_eq (h : Separated code.size runs.toList) :
    exciseEach code types runs = excise code types runs := by
  refine RangeSet.foldl_eq_subdivide h (fun run hrun => pieces_cutPieces (h.nonempty run hrun)) ?_
  intro run _ s
  unfold exciseRun
  cases firstOffender code types run with
  | none => exact .inr ⟨rfl, rfl⟩
  | some cut => exact .inl rfl

/-- A place is looked up in a run exactly if it is an entry of it. -/
theorem mem_landings (h : Separated code.size runs.toList) {t : Nat} :
    (run, t) ∈ landings code runs ↔ run ∈ runs.toList ∧ t ∈ entries (branchEdges code) run := by
  have hlanding (edge : Nat × Nat) : landing? runs edge = some (run, t) ↔
      run ∈ runs.toList ∧ edge.2 ∈ run ∧ run.first < t ∧ edge.1 ∉ run ∧ edge.2 = t := by
    unfold landing?
    simp only [Option.bind_eq_some_iff, RangeSet.containing?_eq_some_iff h, Option.ite_none_right_eq_some,
      Option.some.injEq, Prod.mk.injEq, ← IndexRange.contains_eq_true, Bool.not_eq_true]
    constructor
    · rintro ⟨_, ⟨hrun, hin⟩, ⟨hlt, hout⟩, rfl, rfl⟩
      exact ⟨hrun, hin, hlt, hout, rfl⟩
    · rintro ⟨hrun, hin, hlt, hout, rfl⟩
      exact ⟨run, ⟨hrun, hin⟩, ⟨hlt, hout⟩, rfl, rfl⟩
  simp only [landings, List.mem_filterMap, hlanding, mem_entries]
  constructor
  · rintro ⟨⟨i, t⟩, hedge, hrun, hin, hlt, hout, rfl⟩
    exact ⟨hrun, ⟨hlt, hin.2⟩, i, hout, hedge⟩
  · rintro ⟨hrun, ⟨hlt, hle⟩, i, hout, hedge⟩
    exact ⟨(i, t), hedge, hrun, ⟨hlt.le, hle⟩, hlt, hout, rfl⟩

/-- The landings in a run are its entries. -/
theorem landingsIn_eq (h : Separated code.size runs.toList) (hrun : run ∈ runs.toList) :
    landingsIn code runs run = entries (branchEdges code) run := by
  refine (pairwise_ascending _).eq_of_mem_iff (pairwise_ascending _) fun t => ?_
  change t ∈ landingsIn code runs run ↔ t ∈ entries (branchEdges code) run
  simp only [landingsIn, mem_ascending, List.mem_map, List.mem_filter, decide_eq_true_eq, Prod.exists]
  constructor
  · rintro ⟨_, _, ⟨hmem, rfl⟩, rfl⟩
    exact ((mem_landings h).1 hmem).2
  · intro ht
    exact ⟨run, t, ⟨(mem_landings h).2 ⟨hrun, ht⟩, rfl⟩, rfl⟩

/-- Splitting run by run gives what splitting at all entries does. -/
theorem splitEach_eq (h : Separated code.size runs.toList) :
    splitEach code runs = splitAtEntries (branchEdges code) runs := by
  refine RangeSet.foldl_eq_subdivide h (fun run hrun => pieces_splitPieces (h.nonempty run hrun)) ?_
  intro run hrun s
  unfold splitRun
  rw [landingsIn_eq h hrun]
  cases entries (branchEdges code) run with
  | nil => exact .inr ⟨rfl, rfl⟩
  | cons cut cuts => exact .inl rfl

/-- Runs without an offender are left as they are. -/
theorem excise_eq_self (h : ∀ run ∈ runs.toList, firstOffender code types run = none) :
    excise code types runs = runs :=
  RangeSet.subdivide_eq_self fun run hrun => cutPieces_of_none (h run hrun)

/-- There is no landing left just if no run has an entry. -/
theorem landings_eq_nil_iff (h : Separated code.size runs.toList) :
    landings code runs = [] ↔ ∀ run ∈ runs.toList, entries (branchEdges code) run = [] := by
  simp only [List.eq_nil_iff_forall_not_mem, Prod.forall, mem_landings h]
  constructor
  · intro hnone run hrun t ht
    exact hnone run t ⟨hrun, ht⟩
  · rintro hnone run t ⟨hrun, ht⟩
    exact hnone run hrun t ht

/-- **A pass reports nothing exactly if nothing is left to do.** -/
theorem pass_snd_eq_false_iff (h : Separated code.size runs.toList) :
    (pass code types runs).2 = false ↔ ∀ run ∈ runs.toList, IsQuiet code types run := by
  have hflag : (pass code types runs).2 = false ↔
      (∀ run ∈ runs.toList, firstOffender code types run = none) ∧
        landings code (excise code types runs) = [] := by
    simp [pass, exciseEach_eq h]
  rw [hflag]
  constructor
  · rintro ⟨hoffender, hlandings⟩ run hrun
    rw [excise_eq_self hoffender, landings_eq_nil_iff h] at hlandings
    exact ⟨hoffender run hrun, hlandings run hrun⟩
  · intro hquiet
    have hoffender : ∀ run ∈ runs.toList, firstOffender code types run = none := fun run hrun =>
      (hquiet run hrun).1
    rw [excise_eq_self hoffender, landings_eq_nil_iff h]
    exact ⟨hoffender, fun run hrun => (hquiet run hrun).2⟩

/-- **A pass over a separated set is a round,** and reports whether the round changed the set. -/
theorem pass_eq (h : Separated code.size runs.toList) :
    pass code types runs = (round code types runs, decide (round code types runs ≠ runs)) := by
  refine Prod.ext ?_ ?_
  · change splitEach code (exciseEach code types runs) = round code types runs
    rw [exciseEach_eq h, splitEach_eq (separated_excise h), round]
  · rw [Bool.eq_iff_iff, ← Bool.not_eq_false, pass_snd_eq_false_iff h, ← round_eq_self_iff h]
    simp

/-! ### The loop -/

/-- **The loop ends with the settled set.** -/
theorem loopsTo_settle (h : Separated code.size runs.toList) :
    LoopsTo code types runs (settle code types runs) := by
  -- induction on the potential, which every pass that goes on lowers
  induction hm : potential code.size runs using Nat.strong_induction_on generalizing runs with
  | _ m ih =>
    subst hm
    by_cases hself : round code types runs = runs
    · have hstop : LoopsTo code types runs (pass code types runs).1 := .stop (by simp [pass_eq h, hself])
      rw [pass_eq h, hself] at hstop
      rw [settle_of_round_eq_self hself]
      exact hstop
    · refine .again (by simp [pass_eq h, hself]) ?_
      rw [pass_eq h, ← settle_round h]
      exact ih _ (potential_round_lt_of_ne h hself) (separated_round h) rfl

/-- What the loop ends with is determined by what it starts with. -/
theorem LoopsTo.unique {result result' : RangeSet} (h : LoopsTo code types runs result)
    (h' : LoopsTo code types runs result') : result = result' := by
  induction h with
  | stop idle =>
    cases h' with
    | stop _ => rfl
    | again busy _ => exact absurd (idle.symm.trans busy) Bool.false_ne_true
  | again busy _ ih =>
    cases h' with
    | stop idle => exact absurd (idle.symm.trans busy) Bool.false_ne_true
    | again _ rest => exact ih rest

/-- **The loop ends by its potential.** On runs that do not overlap, are not empty and lie in the code, a pass
is a round and reports whether it changed them. A round that does keeps them so and lowers
`covered · (n + 2) + (n - runs)`, where there are never more runs than instructions. So the loop ends, with
the settled set and no other, and neither cutting nor splitting changes that set. -/
theorem settle_by_potential (code : Array Instruction) (types : Array ValueType) (runs : RangeSet)
    (h : Separated code.size runs.toList) :
    pass code types runs = (round code types runs, decide (round code types runs ≠ runs)) ∧
    (round code types runs ≠ runs → Separated code.size (round code types runs).toList ∧
      potential code.size (round code types runs) < potential code.size runs) ∧
    runs.size ≤ code.size ∧
    (∀ result, LoopsTo code types runs result ↔ result = settle code types runs) ∧
    excise code types (settle code types runs) = settle code types runs ∧
    splitAtEntries (branchEdges code) (settle code types runs) = settle code types runs := by
  have hquiet : ∀ run ∈ (settle code types runs).toList, IsQuiet code types run := (settle_quiet h).2
  refine ⟨pass_eq h, fun hne => ⟨separated_round h, potential_round_lt_of_ne h hne⟩, h.length_le,
    fun result => ⟨fun hresult => ?_, ?_⟩, ?_, ?_⟩
  · exact hresult.unique (loopsTo_settle h)
  · rintro rfl
    exact loopsTo_settle h
  · exact excise_eq_self fun run hrun => (hquiet run hrun).1
  · exact RangeSet.subdivide_eq_self fun run hrun => splitPieces_of_nil (hquiet run hrun).2

/-- A switch that claims three cases and has two, a branch back into it and a jump to itself. -/
def torn : Array Instruction :=
  #[⟨.switch, 0, 5, 3, 0⟩, ⟨.caseEntry, 0, 4, 0, 0⟩, ⟨.caseEntry, 1, 5, 0, 0⟩, ⟨.intArith .add, 0, 0, 0, 0⟩,
    ⟨.goto, 0, 6, 0, 0⟩, ⟨.intArith .add, 0, 0, 0, 0⟩, ⟨.test .bool, 1, 3, 0, 0⟩, ⟨.goto, 0, 7, 0, 0⟩]

/-- A round drops the switch, cuts the test out of the second run and splits what is left where the switch
enters it. -/
theorem round_torn : round torn #[.int, .bool] ⟨[⟨0, 3⟩, ⟨4, 7⟩]⟩ = ⟨[⟨4, 4⟩, ⟨5, 5⟩, ⟨7, 7⟩]⟩ := by
  decide +kernel

/-- That leaves a jump out of its run, which the next round drops. -/
theorem settle_torn : settle torn #[.int, .bool] ⟨[⟨0, 3⟩, ⟨4, 7⟩]⟩ = ⟨[⟨5, 5⟩, ⟨7, 7⟩]⟩ := by
  have hsecond : round torn #[.int, .bool] ⟨[⟨4, 4⟩, ⟨5, 5⟩, ⟨7, 7⟩]⟩ = ⟨[⟨5, 5⟩, ⟨7, 7⟩]⟩ := by decide +kernel
  have hquiet : round torn #[.int, .bool] ⟨[⟨5, 5⟩, ⟨7, 7⟩]⟩ = ⟨[⟨5, 5⟩, ⟨7, 7⟩]⟩ := by decide +kernel
  rw [← settle_round ⟨by decide, by decide, by decide⟩, round_torn,
    ← settle_round ⟨by decide, by decide, by decide⟩, hsecond, settle_of_round_eq_self hquiet]

/-- Two rounds are needed: the first leaves a jump into what it has cut out. -/
theorem settle_by_potential_torn :
    Separated torn.size [⟨0, 3⟩, ⟨4, 7⟩] ∧
    pass torn #[.int, .bool] ⟨[⟨0, 3⟩, ⟨4, 7⟩]⟩ = (⟨[⟨4, 4⟩, ⟨5, 5⟩, ⟨7, 7⟩]⟩, true) ∧
    potential torn.size ⟨[⟨4, 4⟩, ⟨5, 5⟩, ⟨7, 7⟩]⟩ < potential torn.size ⟨[⟨0, 3⟩, ⟨4, 7⟩]⟩ ∧
    LoopsTo torn #[.int, .bool] ⟨[⟨0, 3⟩, ⟨4, 7⟩]⟩ ⟨[⟨5, 5⟩, ⟨7, 7⟩]⟩ := by
  have hsep : Separated torn.size [⟨0, 3⟩, ⟨4, 7⟩] := ⟨by decide, by decide, by decide⟩
  obtain ⟨hpass, hchange, -, hloop, -⟩ := settle_by_potential torn #[.int, .bool] ⟨[⟨0, 3⟩, ⟨4, 7⟩]⟩ hsep
  rw [round_torn] at hpass hchange
  exact ⟨hsep, hpass, (hchange (by decide)).2, (hloop _).2 settle_torn.symm⟩

end Segment

end RegisterVM
