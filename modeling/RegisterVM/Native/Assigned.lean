import RegisterVM.Dataflow.Reach
import RegisterVM.Native.Code

/-!
# Variables have a value when they are read

A variable loaded at entry always has a value, a directly carried one from its definition on. Code
in which some way from the entry leads to an operation that reads a variable still without a value
has no meaning, and the emitter of machine code refuses it (`Code.readsUnassigned`).

A copy computes nothing, so copying is no reading:

* a directly carried copy has its value from where that value was computed, which may be before
  the copy (`Code.source`);
* any other copy of a variable without a value has no value either.

The search goes over pairs of a step and a variable that may have no value there.
-/

namespace RegisterVM
namespace Native

/-- The variables an expression reads. -/
def Expr.operands : Expr → List Reg
  | const _ | compareString _ _ _ | size _ _ | load _ => []
  | var x | unary _ x | convert _ x | math _ x | charAt _ x | element _ _ x => [x]
  | intArith _ x y | intBits _ x y | logic _ x y | floatArith _ x y | complexArith _ x y => [x, y]
  | compareInt _ x y | compareFloat _ x y | compareComplex _ x y => [x, y]
  | elementMulti _ _ _ indices => indices

namespace Op

/-- The variables an operation reads. -/
def operands : Op → List Reg
  | assign _ e => e.operands
  | store _ x _ => [x]
  | setChar _ i ch => [i, ch]
  | setElement _ _ i x => [i, x]
  | setElementMulti _ _ _ indices x => x :: indices
  | listGet _ _ i _ | listSet _ i _ => [i]
  | reload _ | check _ _ | loadConstant _ _ | move _ _ _ => []
  | arrayArith _ _ _ _ | assignAll _ _ | concat _ _ _ => []

/-- The variable an operation gives a value. -/
def assigned? : Op → Option Reg
  | assign x _ | reload x => some x
  | _ => none

/-- The variable an operation copies into `x`. -/
def copied? (x : Reg) : Op → Option Reg
  | assign z (.var y) => if z = x then some y else none
  | _ => none

/-- The variables without a value after an operation, from those before it; `none` if it reads one
of them. -/
def carry (missing : List Reg) : Op → Option (List Reg)
  | assign z (.var y) =>
    let others := missing.filter (· ≠ z)
    some (if missing.contains y then z :: others else others)
  | op =>
    if op.operands.any missing.contains then none
    else some (missing.filter (op.assigned? ≠ some ·))

end Op

namespace Next

/-- The variables a transfer of control reads; one that goes to the same place anyhow does not look
at a variable. -/
def operands : Next → List Reg
  | branch (.word (.var x)) yes no => if yes = no then [] else [x]
  | branch (.word e) _ _ => e.operands
  | branch (.float x) _ _ => [x]
  | switch x cases _ => if cases.isEmpty then [] else [x]
  | fall | jump _ | leave => []

/-- Where control can go from step `i`. -/
def targets (i : Nat) : Next → List Target
  | fall => [.block (i + 1)]
  | jump t => [t]
  | branch _ yes no => [yes, no]
  | switch _ cases other => other :: cases.map (·.2)
  | leave => [.exit]

end Next

namespace CodeStep

/-- Whether a step gives variable `x` a value. -/
def assigns (s : CodeStep) (x : Reg) : Bool := s.ops.any (·.assigned? = some x)

/-- The variables without a value after a step to which `x` comes without one; `none` if the step
reads such a variable. -/
def carry (s : CodeStep) (x : Reg) : Option (List Reg) := do
  let missing ← s.ops.foldlM Op.carry [x]
  if s.next.operands.any missing.contains then none else some missing

end CodeStep

namespace Code

/-- The position in the body of the step a target names; the exit lies behind the body. -/
def position (c : Code) : Target → Nat
  | .block i => i - c.range.first
  | .exit => c.body.size

/-- The positions control can go to from position `j`. -/
def successors (c : Code) (j : Nat) : List Nat :=
  match c.body[j]? with
  | some s => (s.next.targets (c.range.first + j)).map c.position
  | none => []

/-- Whether the step at position `j` gives variable `x` a value. -/
def assignsAt (c : Code) (x : Reg) (j : Nat) : Bool := (c.body[j]?).any (·.assigns x)

/-- The positions control can come to from `starts` with no value given to `x` on the way. -/
def reachedKeeping (c : Code) (x : Reg) (starts : List Nat) : Array Bool :=
  reachable c.body.size (fun j => if c.assignsAt x j then [] else c.successors j) starts

/-- Whether control can come to position `j` at all. -/
def isReached (c : Code) (j : Nat) : Bool :=
  (reachable c.body.size c.successors [0]).getD j false

/-- The positions of the steps that give variable `x` a value. -/
def assignments (c : Code) (x : Reg) : List Nat :=
  (List.range c.body.size).filter (c.assignsAt x)

/-- Where the value that `x` has at position `j` can have been given to it. A directly carried
variable has one definition, whatever way is taken. -/
def givenAt (c : Code) (x : Reg) (j : Nat) : List Definition :=
  if c.entry.contains x then
    let comes (starts : List Nat) : Bool := (c.reachedKeeping x starts).getD j false
    (if comes [0] then [.entry] else [])
      ++ ((c.assignments x).filter fun k => comes (c.successors k)).map .at
  else (c.assignments x).map .at

/-- The variable the step at position `j` copies into `x`, if control can come there. -/
def copied? (c : Code) (x : Reg) (j : Nat) : Option Reg :=
  match c.body[j]? with
  | some s => if c.isReached j then s.ops.findSome? (Op.copied? x) else none
  | none => none

/-- Where the value that position `j` gives to `x` was computed, following at most `steps` copies.
A copy of what different ways can have given counts as computed by the copy. -/
def source (c : Code) : Nat → Reg → Nat → Definition
  | 0, _, j => .at j
  | steps + 1, x, j =>
    match c.copied? x j with
    | none => .at j
    | some y =>
      match c.givenAt y j with
      | [.entry] => .entry
      | [.at k] => c.source steps y k
      | _ => .at j

/-- Where each variable has its value from: the entry if it is loaded there, and where the value was
computed if it is directly carried. -/
def sources (c : Code) : Array Definition :=
  (Array.range c.width).map fun n =>
    let x := UInt16.ofNat n
    if c.entry.contains x then .entry
    else
      match c.assignments x with
      | j :: _ => c.source c.body.size x j
      | [] => .entry

/-- The variables without a value after position `j` if `x` comes there without one; `none` if one
of them is read, by the step or by storing variables back behind it. -/
def carry (c : Code) (sources : Array Definition) (j : Nat) (x : Reg) : Option (List Reg) :=
  match c.body[j]? with
  | none => some []
  | some s => do
    let after ← s.carry x
    let missing := after.filter fun y => s.assigns y || sources.getD y.toNat .entry ≠ .at j
    let leaves := (c.successors j).any (c.body.size ≤ ·)
    if leaves && c.flush.any (missing.contains ·.1) then none else some missing

/-- Whether some way from the entry leads to a read of a variable that has no value yet. -/
def readsUnassigned (c : Code) : Bool :=
  let sources := c.sources
  let pair (x : Reg) (j : Nat) : Nat := j * c.width + x.toNat
  let carried (v : Nat) : Option (List Reg) := c.carry sources (v / c.width) (.ofNat (v % c.width))
  let next (v : Nat) : List Nat :=
    ((carried v).getD []).flatMap fun x => (c.successors (v / c.width)).map (pair x)
  let computed := (List.range c.width).filter fun n => sources.getD n .entry ≠ .entry
  let met := reachable (c.body.size * c.width) next computed
  (List.range met.size).any fun v => met.getD v false && (carried v).isNone

end Code

end Native
end RegisterVM
