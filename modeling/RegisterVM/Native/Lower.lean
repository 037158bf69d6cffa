import RegisterVM.Native.Code
import RegisterVM.Routine

/-!
# From a segment to compiled code

Instructions are lowered in index order against the plan. A typed operand must be a planned register
of the right kind; a register carried directly must have been defined by an earlier instruction, and
any other must have its variable among those loaded at entry.
Around an operation that works on register slots, the scalars it reads are stored first (`sync`) and
the register it writes is loaded afterwards (`reload`).

A fused comparison makes no operation: its condition waits for the test right after it.
-/

namespace RegisterVM
namespace Native

/-- The variables loaded at entry. -/
def Plan.entryRegisters (p : Plan) : List Reg :=
  p.registers.filterMap fun (r, plan) =>
    match plan.storage with
    | .stack _ _ => some r
    | .direct _ _ => none

/-- What lowering has to remember from one instruction to the next. -/
structure Progress where
  /-- directly carried registers defined so far -/
  defined : RegSet := .empty
  /-- the condition of a fused comparison -/
  pending : Option Expr := none

/-- Lowering can fail and carries its progress. -/
abbrev LowerM := StateT Progress (Except CodegenError)

/-- The registers after `base` with the indices of an element, as many as the whole count operand says. -/
def indexRegisters (base : Reg) (count : Int32) : List Reg :=
  (List.range (countOf count)).map fun k => base + 1 + UInt16.ofNat k

/-- The instruction being lowered and its surroundings. -/
structure Site where
  routine : Routine
  plan : Plan
  index : Nat

namespace Site

def operandError (s : Site) (r : Reg) : LowerM α := throw (.operandType s.index r)

def malformed (s : Site) (d : Defect) : LowerM α := throw (.malformed s.plan.range d)

/-- Checks that register `r` can be read as a scalar of a kind, and names its variable. -/
def read (s : Site) (r : Reg) (kind : ScalarKind) : LowerM Reg := do
  match s.plan.register? r with
  | none => s.operandError r
  | some p =>
    if p.kind ≠ kind then s.operandError r
    else
      match p.storage with
      | .direct _ _ =>
        if (← get).defined.contains r then return r else s.malformed .readBeforeDefinition
      | .stack _ _ =>
        if s.plan.entryRegisters.contains r then return r else s.malformed .undeclaredVariable

/-- Notes that a register has been given a value. -/
def define (r : Reg) : LowerM Unit := modify fun p => { p with defined := p.defined.insert r }

/-- Stores variable `r` into its register. -/
def storeBack (r : Reg) (p : RegPlan) : Op := .store (.register r.toNat) r p.tag

/-- Gives register `r` a scalar of a kind. -/
def write (s : Site) (r : Reg) (kind : ScalarKind) (e : Expr) : LowerM (List Op) := do
  match s.plan.register? r with
  | none => s.operandError r
  | some p =>
    if p.kind ≠ kind then s.operandError r
    else
      match p.storage with
      | .direct _ writeThrough =>
        define r
        return .assign r e :: (if writeThrough then [storeBack r p] else [])
      | .stack _ _ => return [.assign r e]

/-- Makes the register of a scalar current before an operation reads its slot. -/
def sync (s : Site) (r : Reg) : LowerM (List Op) := do
  match s.plan.register? r with
  | none => return []
  | some p =>
    match p.storage with
    | .direct _ true | .stack false _ => return []
    | .direct _ false | .stack true _ =>
      let x ← s.read r p.kind
      return [storeBack x p]

/-- Picks up a register an operation has just written. -/
def reload (s : Site) (r : Reg) : LowerM (List Op) := do
  match s.plan.register? r with
  | none => return []
  | some p =>
    match p.storage with
    | .direct _ _ => define r
    | .stack _ _ => pure ()
    return [.reload r]

/-- The tag of a scalar register. -/
def tagOf (s : Site) (r : Reg) : LowerM ScalarTag :=
  match s.plan.register? r with
  | none => s.operandError r
  | some p => return p.tag

/-- The declared type of a register. -/
def typeOf (s : Site) (r : Reg) : ValueType := s.routine.types.getD r.toNat .any

/-- The constant an operand names. -/
def constant (s : Site) (k : Int32) : LowerM Value :=
  match s.routine.constants[placeOf k]? with
  | some v => return v
  | none => s.malformed .constantOutside

/-- Fails unless the plan provides for what the instruction reaches. -/
def require (s : Site) (provided : Bool) : LowerM Unit :=
  if provided then return () else s.malformed .baseNotLoaded

/-- The block that starts at an index. -/
def block (s : Site) (i : Nat) : LowerM Target :=
  if s.plan.leaders.contains i then return .block i else s.malformed .unknownBlock

/-- Resolves a branch. -/
def target (s : Site) (i : Nat) : LowerM Target :=
  match s.plan.target i with
  | .ok (.block k) => s.block k
  | .ok .exit => return .exit
  | .error e => throw e

/-- The `count` index registers after `base`, each checked to be an integer. -/
def indices (s : Site) (base : Reg) (count : Int32) : LowerM (List Reg) :=
  (indexRegisters base count).mapM fun r => s.read r .int

/-- The condition of a comparison. -/
def comparison (s : Site) (ins : Instruction) : LowerM Expr := do
  match ins.opcode with
  | .compareInt rel => return .compareInt rel (← s.read ins.ra .int) (← s.read ins.rb .int)
  | .compareFloat rel => return .compareFloat rel (← s.read ins.ra .float) (← s.read ins.rb .float)
  | .compareComplex rel =>
    return .compareComplex rel (← s.read ins.ra .complex) (← s.read ins.rb .complex)
  | .compareString rel => return .compareString rel ins.ra ins.rb
  | op => throw (.unsupported op)

/-- The value of a scalar constant in compiled code. -/
def constantWords (kind : ScalarKind) (w : Words) : Words :=
  match kind with
  | .bool => .single (Words.ofBool w.bool)
  | _ => w

/-- The immediate of a data instruction. -/
def immediate (ins : Instruction) : ScalarKind → Words
  | .bool => .single (Words.ofBool (ins.b ≠ 0))
  | .float => .single (Binary64.ofInt ins.b.toInt64)
  | _ => .single ins.b.toInt64.toUInt64

/-- A conversion in compiled code; a truth value is taken over as the word it is. -/
def conversion (v : Conversion) (x : Reg) : Expr :=
  match v with
  | .intOfBool => .var x
  | v => .convert v x

/-- The operations of an instruction that does not transfer control. -/
def operations (s : Site) (ins : Instruction) : LowerM (List Op) := do
  let (ra, rb, rc) := (ins.ra, ins.rb, ins.rc)
  match ins.opcode with
  | .nop | .caseEntry => return []
  | .data =>
    match (Tag.ofCode? ins.a.toUInt32.toNat).bind Tag.immediateKind? with
    | some kind => s.write rc kind (.const (immediate ins kind))
    | none => s.operandError rc
  | .getConst | .getConstString =>
    s.require s.plan.needs.constants
    return .loadConstant rc (placeOf ins.b) :: (← s.reload rc)
  | .getConstScalar k =>
    let v ← s.constant ins.b
    s.write rc k (.const (constantWords k v.words))
  | .move =>
    let stored ← s.sync ra
    return stored ++ .move (.register rc.toNat) (.register ra.toNat) none :: (← s.reload rc)
  | .moveString =>
    return .move (.register rc.toNat) (.register ra.toNat) none :: (← s.reload rc)
  | .moveScalar k =>
    let x ← s.read ra k
    s.write rc k (.var x)
  | .convert v =>
    let x ← s.read ra v.source
    s.write rc v.target (conversion v x)
  | .unary op =>
    let x ← s.read ra op.kind
    s.write rc op.kind (.unary op x)
  | .intArith op =>
    let x ← s.read ra .int
    let y ← s.read rb .int
    s.write rc .int (.intArith op x y)
  | .intBits op =>
    let x ← s.read ra .int
    let y ← s.read rb .int
    s.write rc .int (.intBits op x y)
  | .logic op =>
    let x ← s.read ra .bool
    let y ← s.read rb .bool
    s.write rc .bool (.logic op x y)
  | .floatArith op =>
    let x ← s.read ra .float
    let y ← s.read rb .float
    s.write rc .float (.floatArith op x y)
  | .math =>
    match MathFn.ofNumber? ins.a.toInt with
    | none => throw (.unsupported ins.opcode)
    | some f =>
      let x ← s.read rb .float
      s.write rc .float (.math f x)
  | .complexArith op =>
    let x ← s.read ra .complex
    let y ← s.read rb .complex
    s.write rc .complex (.complexArith op x y)
  | .compareInt _ | .compareFloat _ | .compareComplex _ | .compareString _ =>
    let e ← s.comparison ins
    if s.plan.fused.contains s.index then
      modify fun p => { p with pending := some e }
      return []
    else s.write rc .bool e
  | .arith op =>
    let first ← s.sync ra
    let second ← s.sync rb
    return first ++ second ++ .arrayArith op rc ra rb :: (← s.reload rc)
  | .assignAll =>
    let stored ← s.sync ra
    return .check rb (some .none) :: stored ++ [.assignAll rc ra]
  | .concat => return .concat rc ra rb :: (← s.reload rc)
  | .charAt =>
    let i ← s.read rb .int
    s.write rc .int (.charAt ra i)
  | .setChar =>
    let i ← s.read rb .int
    let ch ← s.read ra .int
    return .setChar rc i ch :: (← s.reload rc)
  | .size of => s.write rc .int (.size of ra)
  | .arrayGet k =>
    let i ← s.read rb .int
    s.write rc k.scalar (.element k ra i)
  | .arraySet k =>
    let x ← s.read ra k.scalar
    let i ← s.read rb .int
    return [.setElement k rc i x]
  | .arrayGetMulti k =>
    let is ← s.indices ra ins.b
    s.write rc k.scalar (.elementMulti k ra ins.b.toInt is)
  | .arraySetMulti k =>
    let x ← s.read ra k.scalar
    let is ← s.indices rc ins.b
    return [.setElementMulti k rc ins.b.toInt is x]
  | .listGet k =>
    let i ← s.read rb .int
    return .listGet rc ra i ((s.typeOf rc).listItemTag k) :: (← s.reload rc)
  | .listSet k =>
    if (← s.tagOf ra).kind ≠ k.scalar then s.operandError ra
    let stored ← s.sync ra
    let i ← s.read rb .int
    return stored ++ [.listSet rc i ra]
  | .tupleGetAny =>
    let item := Place.item .tuple ra.toNat (placeOf ins.b)
    return .move (.register rc.toNat) item (s.typeOf rc).tag? :: (← s.reload rc)
  | .tupleGet k => s.write rc k (.load (.item .tuple ra.toNat (placeOf ins.b)))
  | .tupleSetAny =>
    let stored ← s.sync ra
    let item := Place.item .tuple rc.toNat (placeOf ins.b)
    let expected := (s.typeOf rc).itemTag? (placeOf ins.b)
    return stored ++ [.check ra expected, .move item (.register ra.toNat) none]
  | .tupleSet k =>
    let x ← s.read ra k
    return [.store (.item .tuple rc.toNat (placeOf ins.b)) x (← s.tagOf ra)]
  | .getVar storage k =>
    s.require (s.plan.needs.hasStorage storage)
    s.write rc k (.load (ins.sourceVariable storage))
  | .setVar storage k =>
    s.require (s.plan.needs.hasStorage storage)
    let x ← s.read ra k
    return [.store (ins.targetVariable storage) x (← s.tagOf ra)]
  | .getField k => s.write rc k (.load (.item .object ra.toNat (placeOf ins.b)))
  | .setField k =>
    let x ← s.read ra k
    return [.store (.item .object rc.toNat (placeOf ins.b)) x (← s.tagOf ra)]
  | .goto | .test _ | .switch | .ret | .print | .callSegment => throw (.unsupported ins.opcode)

/-- The dispatch table of a switch: the first entry for a key counts, and keys that are no integers
never match. -/
def caseTable (s : Site) : List Instruction → List (Int64 × Target) → LowerM (List (Int64 × Target))
  | [], table => return table.reverse
  | entry :: rest, table => do
    match (← s.constant entry.a).int? with
    | none => s.caseTable rest table
    | some key =>
      if table.any (·.1 == key) then s.caseTable rest table
      else s.caseTable rest ((key, ← s.target entry.target) :: table)

/-- Takes the condition of a fused comparison, if one waits. -/
def takePending : LowerM (Option Expr) :=
  modifyGet fun p => (p.pending, { p with pending := none })

/-- Lowers one instruction. -/
def step (s : Site) (ins : Instruction) : LowerM CodeStep := do
  match ins.opcode with
  | .goto => return ⟨[], .jump (← s.target ins.target)⟩
  | .test .bool =>
    let cond ←
      match ← takePending with
      | some e => pure e
      | none => pure (.var (← s.read ins.ra .bool))
    let taken ← s.target ins.target
    return ⟨[], .branch (.word cond) (← s.target (s.index + 1)) taken⟩
  | .test .int =>
    let _ ← takePending
    let x ← s.read ins.ra .int
    let taken ← s.target ins.target
    return ⟨[], .branch (.word (.var x)) (← s.target (s.index + 1)) taken⟩
  | .test .float =>
    let x ← s.read ins.ra .float
    let taken ← s.target ins.target
    return ⟨[], .branch (.float x) (← s.target (s.index + 1)) taken⟩
  | .switch =>
    let x ← s.read ins.ra .int
    if s.routine.code.size ≤ s.index + ins.caseCount then s.malformed .switchPastRoutine
    let table ← s.caseTable (caseEntries s.routine.code s.index ins.caseCount) []
    return ⟨[], .switch x table (← s.target ins.target)⟩
  | .ret => return ⟨[], .leave⟩
  | _ => return ⟨← s.operations ins, .fall⟩

end Site

/-- Lowers the instruction at index `i` and appends it to what is there. -/
def lowerNext (r : Routine) (plan : Plan) (steps : Array CodeStep) (i : Nat) :
    LowerM (Array CodeStep) := do
  if plan.leaders.contains i then
    let _ ← Site.block ⟨r, plan, i⟩ i
    modify fun p => { p with pending := none }
  match r.code[i]? with
  | none => throw (.malformed plan.range .outsideRoutine)
  | some ins =>
    let step ← Site.step ⟨r, plan, i⟩ ins
    return steps.push step

/-- One more than the largest register with a variable. -/
def Plan.width (p : Plan) : Nat := p.registers.foldl (fun n (r, _) => max n (r.toNat + 1)) 0

/-- The variables stored back at the exits. -/
def Plan.flushedRegisters (p : Plan) : List (Reg × ScalarTag) :=
  p.registers.filterMap fun (r, plan) =>
    match plan.storage with
    | .stack _ true => some (r, plan.tag)
    | _ => none

/-- The compiled form of a planned segment. -/
def Plan.lower (r : Routine) (p : Plan) : Except CodegenError Code := do
  if p.leaders.toList.isEmpty then throw (.malformed p.range .noBlocks)
  let (steps, _) ← (p.range.indices.foldlM (lowerNext r p) #[]).run {}
  return ⟨p.range, p.width, p.entryRegisters, steps, p.flushedRegisters⟩

end Native
end RegisterVM
