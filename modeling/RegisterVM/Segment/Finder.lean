import RegisterVM.Dataflow.Roles
import RegisterVM.IndexRange.Set
import RegisterVM.Segment.Classify

/-!
# Finding segments

A segment is a run of instructions that control enters only at its start and leaves only by its
returns or past its end. Segments are found in three moves:

1. group maximal runs of instructions that can be compiled, a case entry joining the run of its
switch; 2. cut out of every run its first offender: a jump or switch that leaves the run or lands on
a case entry, a switch whose entries are not all in the run or whose register is not integral, or a
case entry without its switch; 3. split every run where a branch from outside lands inside it.

Moves 2 and 3 repeat until neither changes anything. Cutting takes instructions away and splitting
adds a run, so `covered · (n + 2) + (n - runs)` falls each time, where `n` is the length of the
code.
-/

namespace RegisterVM

namespace Segment

/-- A branch from inside `run` may land in it or right behind it, but not on a case entry. -/
def targetAllowed (code : Array Instruction) (run : IndexRange) (t : Nat) : Bool :=
  run.admits t && (code[t]?).all (·.opcode ≠ .caseEntry)

/-- Whether the case entry at `j` belongs to a switch in `run`, looking back from before `k`. -/
def hasOwner (code : Array Instruction) (run : IndexRange) (j : Nat) : Nat → Bool
  | 0 => false
  | k + 1 =>
    k ≥ run.first &&
      match code[k]? with
      | none => false
      | some ins =>
        if ins.opcode = .caseEntry then hasOwner code run j k
        else ins.opcode = .switch && j ≤ k + ins.caseCount

/-- The span instruction `j` makes unusable in `run`, if it does. -/
def offenderAt (code : Array Instruction) (types : Array ValueType) (run : IndexRange) (j : Nat) :
    Option IndexRange :=
  match code[j]? with
  | none => none
  | some ins =>
    if ins.opcode = .caseEntry then
      if j = run.first || !hasOwner code run j j then some (.point j) else none
    else if ins.opcode.isJump then
      if targetAllowed code run ins.target then none else some (.point j)
    else if ins.opcode = .switch then
      let groupLast := j + ins.caseCount
      let integral := (types[ins.ra.toNat]?).any ValueType.isIntegral
      let inside := (branchTargets code j).all (targetAllowed code run)
      if groupLast ≤ run.last && integral && inside then none
      else some ⟨j, min groupLast run.last⟩
    else none

/-- The first span in `run` that must not be compiled as part of it. -/
def firstOffender (code : Array Instruction) (types : Array ValueType) (run : IndexRange) :
    Option IndexRange :=
  run.indices.findSome? (offenderAt code types run)

/-- What is left of a run around a span cut out of it. -/
def around (run cut : IndexRange) : List IndexRange :=
  (if run.first < cut.first then [⟨run.first, cut.first - 1⟩] else []) ++
    (if cut.last < run.last then [⟨cut.last + 1, run.last⟩] else [])

/-- Cuts the first offender out of every run. -/
def excise (code : Array Instruction) (types : Array ValueType) (runs : RangeSet) : RangeSet :=
  runs.subdivide fun run =>
    match firstOffender code types run with
    | none => [run]
    | some cut => around run cut

/-- All branch edges of the code, as source and target. -/
def branchEdges (code : Array Instruction) : List (Nat × Nat) :=
  (List.range code.size).flatMap fun i => (branchTargets code i).map fun t => (i, t)

/-- Where branches from outside land inside a run, past its start. -/
def entries (edges : List (Nat × Nat)) (run : IndexRange) : List Nat :=
  let landing := edges.filter fun (i, t) => run.first < t && t ≤ run.last && !run.contains i
  ascending (landing.map (·.2))

/-- The pieces of `[first, last]` split before each of the ascending `cuts`. -/
def splitAt (last : Nat) : (first : Nat) → (cuts : List Nat) → List IndexRange
  | first, [] => [⟨first, last⟩]
  | first, cut :: cuts => ⟨first, cut - 1⟩ :: splitAt last cut cuts

/-- Splits every run where a branch from outside lands inside it. -/
def splitAtEntries (edges : List (Nat × Nat)) (runs : RangeSet) : RangeSet :=
  runs.subdivide fun run => splitAt run.last run.first (entries edges run)

/-- The quantity every round lowers. -/
def potential (n : Nat) (runs : RangeSet) : Nat := runs.covered * (n + 2) + (n - runs.size)

/-- One round: cut, then split. -/
def round (code : Array Instruction) (types : Array ValueType) (runs : RangeSet) : RangeSet :=
  splitAtEntries (branchEdges code) (excise code types runs)

/-- Rounds until nothing changes. -/
def settle (code : Array Instruction) (types : Array ValueType) (runs : RangeSet) : RangeSet :=
  let next := round code types runs
  if next = runs then runs
  else if potential code.size next < potential code.size runs then settle code types next
  else next
termination_by potential code.size runs

/-- A scan for runs: where the current run started, and the case entries its last switch is owed. -/
structure Scan where
  start : Option Nat := none
  cases : Nat := 0
  runs : List IndexRange := []

/-- Takes instruction `i` into the scan. -/
def Scan.add (s : Scan) (i : Nat) (ins : Instruction) (eligible : Bool) : Scan :=
  let isCase : Bool := ins.opcode = .caseEntry
  let joins : Bool := if isCase then 0 < s.cases else eligible
  let cases :=
    if isCase then s.cases - 1
    else if eligible && ins.opcode = .switch then ins.caseCount else 0
  match joins, s.start with
  | true, none => ⟨some i, cases, s.runs⟩
  | false, some first => ⟨none, cases, ⟨first, i - 1⟩ :: s.runs⟩
  | _, start => ⟨start, cases, s.runs⟩

/-- The runs of a finished scan of `n` instructions, in order. -/
def Scan.finish (s : Scan) (n : Nat) : List IndexRange :=
  match s.start with
  | some first => (⟨first, n - 1⟩ :: s.runs).reverse
  | none => s.runs.reverse

/-- Maximal runs of instructions that can be compiled. -/
def group (k : Classifier) (code : Array Instruction) (types : Array ValueType) : RangeSet :=
  let scan := code.toList.zipIdx.foldl
    (fun s (ins, i) => s.add i ins (k.isEligible types ins)) ({} : Scan)
  ⟨scan.finish code.size⟩

end Segment

/-- A classifier and the least length worth compiling. -/
structure SegmentFinder where
  classifier : Classifier
  minLength : Nat

namespace SegmentFinder

open Segment

/-- Settles candidate runs and drops the short ones. -/
def settled (f : SegmentFinder) (code : Array Instruction) (types : Array ValueType)
    (runs : RangeSet) : List IndexRange :=
  (settle code types runs).toList.filter fun r => !r.isEmpty && f.minLength ≤ r.length

/-- The segments of a piece of code, in order. -/
def find (f : SegmentFinder) (code : Array Instruction) (types : Array ValueType) :
    List IndexRange :=
  f.settled code types (group f.classifier code types)

/-- Settles the given candidate ranges; empty ones and those outside the code are dropped. -/
def refine (f : SegmentFinder) (code : Array Instruction) (types : Array ValueType)
    (ranges : List IndexRange) : List IndexRange :=
  f.settled code types
    (.ofList (ranges.filter fun r => !r.isEmpty && r.last < code.size))

end SegmentFinder

end RegisterVM
