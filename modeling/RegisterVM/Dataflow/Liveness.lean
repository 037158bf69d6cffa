import RegisterVM.Dataflow.Roles
import RegisterVM.RegSet

/-!
# Liveness

A register is live before an instruction when some path from there reads it before writing it. The
live sets are the least solution of

`live i = uses i ∪ (⋃ s ∈ successors i, live s) \ defs i`,

found by sweeping the code backwards until a sweep adds nothing. A sweep that changes something adds
at least one of the `2 ^ 16` registers to the set of some instruction, which bounds their number.
-/

namespace RegisterVM

/-- The static facts of a piece of code, one entry for each instruction. -/
structure FlowGraph where
  code : Array Instruction
  defs : Array (List Reg)
  uses : Array (List Reg)
  succs : Array (List Nat)
  preds : Array (List Nat)

namespace FlowGraph

/-- The instructions that have `s` as a successor, for every `s`, each list ascending. -/
def predecessors (succs : Array (List Nat)) : Array (List Nat) :=
  succs.toList.zipIdx.foldr
    (fun (out, i) preds => out.foldl (fun preds s => preds.modify s (i :: ·)) preds)
    (Array.replicate succs.size [])

def ofCode (code : Array Instruction) : FlowGraph :=
  let succs := (Array.range code.size).map (successors code)
  { code
    defs := code.map Instruction.defs
    uses := code.map Instruction.uses
    succs
    preds := predecessors succs }

def size (g : FlowGraph) : Nat := g.code.size

def defsAt (g : FlowGraph) (i : Nat) : List Reg := g.defs.getD i []

def usesAt (g : FlowGraph) (i : Nat) : List Reg := g.uses.getD i []

def succsAt (g : FlowGraph) (i : Nat) : List Nat := g.succs.getD i []

def predsAt (g : FlowGraph) (i : Nat) : List Nat := g.preds.getD i []

end FlowGraph

namespace Liveness

/-- What is live before instruction `i`, given what is live before its successors. -/
def before (g : FlowGraph) (registers : Nat) (live : Array RegSet) (i : Nat) : RegSet :=
  let after := (g.succsAt i).foldl (fun acc s => acc.union (live.getD s .empty))
    (.withCapacity registers)
  (g.usesAt i).foldl .insert ((g.defsAt i).foldl .erase after)

/-- One sweep over the instructions below `i`, last first, and whether anything was added. -/
def sweep (g : FlowGraph) (registers : Nat) : Nat → Array RegSet → Bool → Array RegSet × Bool
  | 0, live, changed => (live, changed)
  | i + 1, live, changed =>
    let (set, grew) := (live.getD i .empty).unionChanged (before g registers live i)
    sweep g registers i (live.setIfInBounds i set) (changed || grew)

/-- Sweeps until one adds nothing, `bound` times at most. -/
def settle (g : FlowGraph) (registers : Nat) : Nat → Array RegSet → Array RegSet
  | 0, live => live
  | bound + 1, live =>
    let (live, changed) := sweep g registers g.size live false
    if changed then settle g registers bound live else live

/-- The live sets of all instructions. -/
def solve (g : FlowGraph) (registers : Nat) : Array RegSet :=
  settle g registers (g.size * UInt16.size + 1) (Array.replicate g.size (.withCapacity registers))

end Liveness

end RegisterVM
