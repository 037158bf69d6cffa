import RegisterVM.Dataflow.Analysis
import RegisterVM.IndexRange.Marks
import RegisterVM.Native.Config
import RegisterVM.Native.Error
import RegisterVM.Segment.Classify
import RegisterVM.Value

/-!
# The plan of a segment

Before any code is made for a segment, the plan fixes

* its block leaders: the start, every branch target inside, and what follows a branch or return;
* where each scalar register it touches lives: carried directly from its one definition, or in a
  variable that is loaded at entry and, if the register was defined and is live at an exit, stored
  back there;
* which comparisons fuse with the test that follows them;
* which storage outside the register file it reaches.

Faults are found in this order: the range, then opcodes without a compiled form, then branches.
-/

namespace RegisterVM
namespace Native

/-- Where a scalar register lives in compiled code. -/
inductive Storage where
  /-- carried from its one definition, stored there if it is live at an exit -/
  | direct (definition : Nat) (writeThrough : Bool)
  /-- a variable loaded at entry, stored back at the exits if `flush` -/
  | stack (defined flush : Bool)
deriving DecidableEq, Repr

/-- The decision for one scalar register; the tag is that of its declared type. -/
structure RegPlan where
  tag : ScalarTag
  storage : Storage
deriving DecidableEq, Repr

def RegPlan.kind (p : RegPlan) : ScalarKind := p.tag.kind

/-- What a segment reaches besides the register file. -/
structure Needs where
  constants : Bool := false
  receiver : Bool := false
  statics : Bool := false
  globals : Bool := false
  outer : Bool := false
deriving DecidableEq, Repr, Inhabited

namespace Needs

def withStorage (n : Needs) : StorageClass → Needs
  | .receiver => { n with receiver := true }
  | .statics => { n with statics := true }
  | .globals => { n with globals := true }
  | .outer => { n with outer := true }

/-- Adds what an opcode reaches. -/
def note (n : Needs) : Opcode → Needs
  | .getConst | .getConstString => { n with constants := true }
  | .getVar s _ | .setVar s _ => n.withStorage s
  | _ => n

def hasStorage (n : Needs) : StorageClass → Bool
  | .receiver => n.receiver
  | .statics => n.statics
  | .globals => n.globals
  | .outer => n.outer

end Needs

/-- Where a branch in a segment lands. -/
inductive Target where
  /-- the block that starts at this index -/
  | block (index : Nat)
  /-- right behind the segment -/
  | exit
deriving DecidableEq, Repr

/-- The plan of a segment. -/
structure Plan where
  range : IndexRange
  /-- the start of the segment is one -/
  leaders : Marks
  /-- ascending by register -/
  registers : List (Reg × RegPlan)
  fused : List Nat
  exits : List Nat
  needs : Needs
deriving DecidableEq, Repr

namespace Plan

/-- The leaders a branch to `t` makes; the place right behind the segment makes none. -/
def branchTo (code : Array Instruction) (range : IndexRange) (t : Nat) :
    Except CodegenError (List Nat) :=
  if !range.admits t then .error (.malformed range .branchLeaves)
  else if t ≤ range.last then
    if (code[t]?).any (·.opcode = .caseEntry) then .error (.malformed range .branchIntoCases)
    else .ok [t]
  else .ok []

/-- The leaders instruction `i` makes. -/
def leadersAt (code : Array Instruction) (range : IndexRange) (i : Nat) (ins : Instruction) :
    Except CodegenError (List Nat) :=
  match ins.opcode with
  | .goto | .test .bool | .test .int | .test .float => do
    let ts ← branchTo code range ins.target
    return ts ++ [i + 1]
  | .switch => do
    let groupLast := i + ins.caseCount
    if range.last < groupLast then throw (.malformed range .switchCrossesEnd)
    let ts ← (branchTargets code i).mapM (branchTo code range)
    return ts.flatten ++ [groupLast + 1]
  | .ret => return [i + 1]
  | _ => return []

/-- The block leaders of a segment. -/
def findLeaders (code : Array Instruction) (range : IndexRange) :
    Except CodegenError Marks := do
  let found ← range.indices.mapM fun i =>
    match code[i]? with
    | some ins => leadersAt code range i ins
    | none => return []
  return .ofList range (range.first :: found.flatten)

/-- The registers a segment touches, ascending. -/
def touched (facts : Dataflow) (range : IndexRange) : List Reg :=
  (range.indices.foldl (fun s i =>
    (facts.graph.usesAt i).foldl RegSet.insert ((facts.graph.defsAt i).foldl RegSet.insert s))
    RegSet.empty).toList

/-- Whether the segment defines a register. -/
def isDefined (facts : Dataflow) (range : IndexRange) (r : Reg) : Bool :=
  range.indices.any (facts.defines r)

/-- Where a scalar register lives. -/
def storage (facts : Dataflow) (range : IndexRange) (config : Config) (r : Reg) : Storage :=
  let liveOut := facts.isLiveOut r range
  match if config.direct then facts.directDef? r range else none with
  | some i => .direct i liveOut
  | none =>
    let defined := isDefined facts range r
    .stack defined (defined && liveOut)

/-- The decisions for the scalar registers a segment touches. -/
def planRegisters (types : Array ValueType) (facts : Dataflow) (range : IndexRange)
    (config : Config) : List (Reg × RegPlan) :=
  (touched facts range).filterMap fun r =>
    ((types[r.toNat]?).bind ValueType.scalarTag?).map fun tag =>
      (r, ⟨tag, storage facts range config r⟩)

/-- Whether the comparison at `i` feeds only the test right after it. -/
def fusesWithTest (code : Array Instruction) (facts : Dataflow) (range : IndexRange)
    (leaders : Marks) (i : Nat) : Bool :=
  match code[i]?, code[i + 1]? with
  | some cmp, some test =>
    let live (k : Nat) : Bool := k < code.size && facts.isLiveIn cmp.rc k
    cmp.opcode.isComparison && i + 1 ≤ range.last && !leaders.contains (i + 1)
      && test.opcode = .test .bool && test.a = cmp.c
      && !live (i + 2) && !live test.target
  | _, _ => false

/-- The first opcode of the range without a compiled form. -/
def uncompilable? (code : Array Instruction) (range : IndexRange) : Option Opcode :=
  range.indices.findSome? fun i =>
    (code[i]?).bind fun ins => if ins.opcode.isCompilable then none else some ins.opcode

/-- Plans a segment. -/
def build (code : Array Instruction) (types : Array ValueType) (facts : Dataflow)
    (range : IndexRange) (config : Config) : Except CodegenError Plan := do
  if range.isEmpty || code.size ≤ range.last then throw (.malformed range .outsideRoutine)
  match uncompilable? code range with
  | some op => throw (.unsupported op)
  | none => pure ()
  let leaders ← findLeaders code range
  let ops := range.indices.filterMap fun i => (code[i]?).map Instruction.opcode
  return {
    range
    leaders
    registers := planRegisters types facts range config
    fused :=
      if config.fuse then range.indices.filter (fusesWithTest code facts range leaders) else []
    exits := facts.exitPoints range
    needs := ops.foldl Needs.note {}
  }

/-- Resolves a branch. -/
def target (p : Plan) (i : Nat) : Except CodegenError Target :=
  if i = p.range.last + 1 then .ok .exit
  else if p.leaders.contains i then .ok (.block i)
  else .error (.malformed p.range .notALeader)

/-- The number of the block that starts at `i`. -/
def blockNumber? (p : Plan) (i : Nat) : Option Nat := p.leaders.toList.findIdx? (· == i)

def register? (p : Plan) (r : Reg) : Option RegPlan :=
  (p.registers.find? (·.1 == r)).map (·.2)

end Plan

end Native
end RegisterVM
