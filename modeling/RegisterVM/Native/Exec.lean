import RegisterVM.Heap.Element
import RegisterVM.Machine.Loop
import RegisterVM.Machine.Step
import RegisterVM.Native.Code
import RegisterVM.Native.Sequences

/-!
# Executing compiled code

Compiled code runs on the machine state with variables of its own. It returns a status word, zero or
the packed error code and index of the instruction that failed, and possibly the index of an
instruction it leaves to the interpreter. Whichever way it ends, the variables marked for it are
stored back.

Stores by compiled code overwrite slots in place: what a slot held before is not dropped.
-/

namespace RegisterVM

/-- A slot after a scalar was stored into it: one-word scalars keep the slot's second word. -/
def Value.restored (old : Value) (tag : ScalarTag) (w : Words) : Value :=
  match tag with
  | .complex => .scalar tag w
  | _ => .scalar tag ⟨w.lo, old.words.hi⟩

namespace Native

/-- The variables of running compiled code and the state it works on. -/
structure Activation where
  vars : Array Words
  state : State

/-- An action of compiled code. -/
abbrev NativeM := EStateM Failure Activation

/-- An action on the machine state. -/
def onState (m : Exec α) : NativeM α := fun ⟨vars, state⟩ =>
  match m state with
  | .ok a s => .ok a ⟨vars, s⟩
  | .error e s => .error e ⟨vars, s⟩

/-- The value of a variable. -/
def var (x : Reg) : NativeM Words := return (← get).vars.getD x.toNat ⟨0, 0⟩

def setVar (x : Reg) (w : Words) : NativeM Unit :=
  modify fun ⟨vars, state⟩ => ⟨vars.setIfInBounds x.toNat w, state⟩

/-- The value in a register slot. -/
def slot (r : Reg) : NativeM Value := onState (Exec.register r.toNat)

def onHeap (m : HeapM α) : NativeM α := onState (Exec.onHeap m)

/-- Evaluates a scalar. -/
def eval (e : Expr) : NativeM Words := do
  match e with
  | .const w => return w
  | .var x => var x
  | .unary op x => return op.apply (← var x)
  | .convert v x => return v.apply (← var x)
  | .intArith op x y =>
    let i ← onState (Exec.ofExcept (intArith op (← var x).int (← var y).int))
    return .single i.toUInt64
  | .intBits op x y => return .single (op.apply (← var x).int (← var y).int).toUInt64
  | .logic op x y => return .single (Words.ofBool (op.apply (← var x).bool (← var y).bool))
  | .floatArith op x y => return .single (op.float (← var x).lo (← var y).lo)
  | .math f x => return .single (← onState (Step.applyMath f (← var x).lo))
  | .complexArith op x y => return complexArith op (← var x) (← var y)
  | .compareInt rel x y => return .single (Words.ofBool (rel.int (← var x).int (← var y).int))
  | .compareFloat rel x y => return .single (Words.ofBool (rel.float (← var x).lo (← var y).lo))
  | .compareComplex rel x y => return .single (Words.ofBool (compareComplex rel (← var x) (← var y)))
  | .compareString rel r r' =>
    let x ← slot r
    let y ← slot r'
    return .single (Words.ofBool (rel.ordering ((← get).state.heap.compareStrings x y)))
  | .charAt r i => return .single (← onHeap (charAt (← slot r) (← var i).int)).toUInt64
  | .size of r =>
    let v ← slot r
    onState (Exec.checkTag v (some (Step.sizedTag of)))
    return .single (← onHeap (Heap.size v)).toUInt64
  | .element kind r i =>
    let i ← var i
    onHeap (Heap.wordsBy kind (← slot r) (flatPlace i.int))
  | .elementMulti kind r count is =>
    let is ← is.mapM var
    onHeap (Heap.wordsBy kind (← slot r) (multiPlace count (is.map Words.int)))
  | .load p => return (← onState (Exec.read p)).words

/-- Stores a scalar at a place. -/
def storeAt (p : Place) (tag : ScalarTag) (w : Words) : Exec Unit := do
  let _ ← Exec.read p
  Exec.overwrite p fun old => old.restored tag w

/-- Performs one operation. -/
def Op.perform (constants : Array Value) (op : Op) : NativeM Unit := do
  match op with
  | .assign x e => setVar x (← eval e)
  | .store p x tag =>
    let w ← var x
    onState (storeAt p tag w)
  | .reload x => setVar x (← slot x).words
  | .check r expected => onState (Exec.checkTag (← slot r) expected)
  | .loadConstant dst k =>
    match constants[k]? with
    | some v => onState (Exec.write (.register dst.toNat) v)
    | none => throw (.fault (.constant k))
  | .move dst src expected =>
    let v ← onState (Exec.read src)
    onState (Exec.checkTag v expected)
    onState (Exec.write dst v)
  | .arrayArith op dst r r' =>
    let v ← onHeap (Heap.arrayArith op (← slot r) (← slot r'))
    onState (Exec.put (.register dst.toNat) v)
  | .assignAll dst src => onHeap (Heap.assignAll (← slot dst) (← slot src))
  | .concat dst r r' =>
    let v ← onHeap (Heap.concat (← slot r) (← slot r'))
    onState (Exec.put (.register dst.toNat) v)
  | .setChar dst i ch =>
    let v ← onHeap (Heap.setChar (← slot dst) (← var i).int (← var ch).int)
    onState (Exec.overwrite (.register dst.toNat) fun _ => v)
  | .setElement kind r i x =>
    let i ← var i
    let w ← var x
    onHeap (Heap.setWordsBy kind (← slot r) (flatPlace i.int) w)
  | .setElementMulti kind r count is x =>
    let is ← is.mapM var
    let w ← var x
    onHeap (Heap.setWordsBy kind (← slot r) (multiPlace count (is.map Words.int)) w)
  | .listGet dst list i expected =>
    let item ← onHeap (Heap.listItem (← slot list) (← var i).int)
    onState (Exec.checkTag item (some expected))
    onState (Exec.write (.register dst.toNat) item)
  | .listSet list i src => onHeap (Heap.listSet (← slot list) (← var i).int (← slot src))

/-- Whether a condition holds. -/
def Cond.holds (c : Cond) : NativeM Bool := do
  match c with
  | .word e => return (← eval e).bool
  | .float x => return !Binary64.eq (← var x).lo 0

/-- Where control is after a step: at an index, or out of the code. -/
inductive Control where
  | at (i : Nat)
  /-- out, asking the interpreter to execute this instruction, if any -/
  | out (exit : Option Nat)
deriving DecidableEq, Repr

def Target.control : Target → Control
  | block i => .at i
  | exit => .out none

/-- Resolves the transfer of control at the end of step `i`. -/
def Next.resolve (i : Nat) (next : Next) : NativeM Control := do
  match next with
  | .fall => return .at (i + 1)
  | .jump t => return t.control
  | .branch c yes no => if ← c.holds then return yes.control else return no.control
  | .switch x cases other =>
    let key := (← var x).int
    return (((cases.find? (·.1 == key)).map (·.2)).getD other).control
  | .leave => return .out (some i)

namespace Code

/-- The step for instruction `i`. -/
def step? (c : Code) (i : Nat) : Option CodeStep :=
  if i < c.range.first then none else c.body[i - c.range.first]?

/-- Executes the step for instruction `i`. -/
def perform (c : Code) (constants : Array Value) (i : Nat) : NativeM Control := do
  match c.step? i with
  | none => throw (.fault (.instruction i))
  | some step =>
    step.ops.forM (Op.perform constants)
    step.next.resolve i

/-- Loads the variables. -/
def enter (c : Code) (state : State) : EStateM.Result Failure Activation Unit :=
  (c.entry.forM fun x => do setVar x (← slot x).words : NativeM Unit)
    ⟨Array.replicate c.width ⟨0, 0⟩, state⟩

/-- Stores the variables back. -/
def storeBack (c : Code) : NativeM Unit :=
  c.flush.forM fun (x, tag) => do
    let w ← var x
    onState (storeAt (.register x.toNat) tag w)

/-- How compiled code ended. -/
inductive Ending where
  | returned (status : Int32) (exit : Option Nat)
  | broken (f : Failure)
deriving DecidableEq, Repr

/-- The end of compiled code, variables stored back. -/
def close (c : Code) (a : Activation) (status : Int32) (exit : Option Nat) : Ending × State :=
  match c.storeBack a with
  | .ok _ a => (.returned status exit, a.state)
  | .error f a => (.broken f, a.state)

/-- One step of running compiled code. -/
def advance (c : Code) (constants : Array Value) :
    Nat × Activation → Transition (Nat × Activation) (Ending × State)
  | (i, a) =>
    if c.range.last < i then .halt (c.close a 0 none)
    else
      match c.perform constants i a with
      | .ok (.at j) a => .next (j, a)
      | .ok (.out exit) a => .halt (c.close a 0 exit)
      | .error (.code e) a => .halt (c.close a (e.pack i) none)
      | .error f a => .halt (.broken f, a.state)

/-- Runs compiled code on a state, within a budget of steps. -/
def run (c : Code) (constants : Array Value) (budget : Nat) (state : State) :
    Option (Ending × State) :=
  match c.enter state with
  | .ok _ a => iterate (c.advance constants) budget (c.range.first, a)
  | .error f a => some (.broken f, a.state)

end Code

end Native
end RegisterVM
