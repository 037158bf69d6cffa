import RegisterVM.Dataflow.Liveness
import RegisterVM.Dataflow.Reach
import RegisterVM.IndexRange.Basic

/-!
# Dataflow facts

Liveness of a piece of code solved once, and the questions asked of it: which definitions reach a
use, where a range is left, and whether a register has one definition in a range whose value every
use in the range sees.

The entry of the code counts as a definition of every register.
-/

namespace RegisterVM

/-- Where a value that reaches a use was given to the register. -/
inductive Definition where
  | entry
  | at (index : Nat)
deriving DecidableEq, Repr, Inhabited

/-- The facts of a piece of code. -/
structure Dataflow where
  graph : FlowGraph
  registers : Nat
  live : Array RegSet

namespace Dataflow

/-- The analysis of code over `registers` registers. -/
def ofCode (code : Array Instruction) (registers : Nat) : Dataflow :=
  let graph := FlowGraph.ofCode code
  { graph, registers, live := Liveness.solve graph registers }

def size (d : Dataflow) : Nat := d.graph.size

/-- The registers live before instruction `i`; none past the end. -/
def liveIn (d : Dataflow) (i : Nat) : RegSet := d.live.getD i (.withCapacity d.registers)

def isLiveIn (d : Dataflow) (r : Reg) (i : Nat) : Bool := (d.liveIn i).contains r

/-- Whether `r` is live right after instruction `i`. -/
def isLiveAfter (d : Dataflow) (r : Reg) (i : Nat) : Bool :=
  (d.graph.succsAt i).any (d.isLiveIn r)

def defines (d : Dataflow) (r : Reg) (i : Nat) : Bool := (d.graph.defsAt i).contains r

def reads (d : Dataflow) (r : Reg) (i : Nat) : Bool := (d.graph.usesAt i).contains r

/-- The instructions from which control can come to `use` with no definition of `r` in between;
the definitions themselves included, what lies before them not. -/
def backwardFrom (d : Dataflow) (r : Reg) (use : Nat) : Array Bool :=
  reachable d.size (fun p => if d.defines r p then [] else d.graph.predsAt p) (d.graph.predsAt use)

/-- The definitions of `r` that reach `use`, the entry first and the others ascending. -/
def reachingDefs (d : Dataflow) (r : Reg) (use : Nat) : List Definition :=
  let seen := d.backwardFrom r use
  let entered := use = 0 ∨ (seen.getD 0 false && !d.defines r 0)
  (if entered then [.entry] else [])
    ++ ((List.range d.size).filter fun p => seen.getD p false && d.defines r p).map .at

/-- Whether the definition at `i` is the only one that reaches `use`. -/
def isOnlyReachingDef (d : Dataflow) (r : Reg) (i use : Nat) : Bool :=
  d.reachingDefs r use == [.at i]

/-- Where control leaves a range normally: every return inside, and the index after it. -/
def exitPoints (d : Dataflow) (range : IndexRange) : List Nat :=
  (range.indices.filter fun i => (d.graph.code[i]?).any (·.opcode = .ret))
    ++ (if range.last + 1 < d.size then [range.last + 1] else [])

/-- Whether `r` is live where control leaves the range. -/
def isLiveOut (d : Dataflow) (r : Reg) (range : IndexRange) : Bool :=
  (d.exitPoints range).any (d.isLiveIn r)

def defsIn (d : Dataflow) (r : Reg) (range : IndexRange) : List Nat :=
  range.indices.filter (d.defines r)

def usesIn (d : Dataflow) (r : Reg) (range : IndexRange) : List Nat :=
  range.indices.filter (d.reads r)

/-- Whether every path from the start of the range to `target` that stays inside passes `i`. -/
def dominatesWithin (d : Dataflow) (range : IndexRange) (i target : Nat) : Bool :=
  if i = range.first ∨ i = target then true
  else
    let next := fun v =>
      if v = i ∨ v = target then [] else (d.graph.succsAt v).filter range.contains
    !(reachable d.size next [range.first]).getD target false

/-- The one definition of `r` in the range whose value can be carried directly to every use: it
comes before every use in index order, is the only one that reaches it, and dominates it inside the
range. -/
def directDef? (d : Dataflow) (r : Reg) (range : IndexRange) : Option Nat :=
  match d.defsIn r range with
  | [i] =>
    let carried := (d.usesIn r range).all fun use =>
      decide (i < use) && d.isOnlyReachingDef r i use && d.dominatesWithin range i use
    if carried then some i else none
  | _ => none

end Dataflow

end RegisterVM
