import RegisterVM.Native.Exec

/-!
# Code images and runs

What is executed is an image: the code of a routine, or a copy in which the first instruction of
every compiled segment is a marker, together with the segments the markers name. At a marker the
segment's compiled code takes over until it returns. If it asks for an instruction, that instruction
is executed as it stands in the routine; otherwise control goes on behind the segment.

A run ends when an instruction returns a value, past the end of the code, or with an error.
-/

namespace RegisterVM

/-- A compiled segment in an image. -/
structure CompiledSegment where
  start : Nat
  length : Nat
  code : Native.Code
  /-- the instruction the marker stands for -/
  replaced : Instruction
deriving DecidableEq, Repr

/-- Instructions to execute and the compiled segments their markers name. -/
structure Image where
  code : Array Instruction
  segments : Array CompiledSegment := #[]
deriving DecidableEq, Repr, Inhabited

namespace Image

/-- The image that interprets everything. -/
def interpreted (r : Routine) : Image := { code := r.code }

def isCompiled (m : Image) : Bool := !m.segments.isEmpty

end Image

/-- Why a run failed. -/
inductive RunError where
  | failed (code : ErrorCode) (index : Nat)
  | missingSegment (n : Nat)
  | notExecutable (op : Opcode)
  | fault (f : Fault)
deriving DecidableEq, Repr

namespace RunError

/-- The error of a failure at an instruction. -/
def ofFailure (index : Nat) : Failure → RunError
  | .code e => failed e index
  | .notExecutable op => notExecutable op
  | .fault f => fault f

/-- The kind of an error; a failed instruction has the kind of its error code. -/
def name : RunError → String
  | failed e _ => e.name
  | missingSegment _ => "MissingSegment"
  | notExecutable _ => "NotExecutable"
  | fault _ => "Fault"

def message : RunError → String
  | failed e i => e.message ++ " (instruction " ++ toString i ++ ")"
  | missingSegment n => "Compiled segment " ++ toString n ++ " is not installed"
  | notExecutable op => "Opcode " ++ op.mnemonic ++ " is not executable"
  | fault _ => "Access outside the checked bounds"

end RunError

/-- Who is executing. -/
inductive Mode where
  | interpreting (pc : Nat)
  /-- the compiled code called by the marker at `pc`, about to execute index `i` -/
  | compiled (pc : Nat) (segment : CompiledSegment) (i : Nat) (vars : Array Words)

/-- A machine in the middle of a run. -/
structure Running where
  mode : Mode
  state : State

/-- The result of a run and the state it leaves. -/
structure Outcome where
  result : Except RunError Value
  state : State

namespace Image

/-- Executes one instruction of the routine and goes on as it says. -/
def interpret (r : Routine) (pc : Nat) (ins : Instruction) (s : State) :
    Transition Running Outcome :=
  match step r pc ins s with
  | .ok .next s => .next ⟨.interpreting (pc + 1), s⟩
  | .ok (.jump t) s => .next ⟨.interpreting t, s⟩
  | .ok (.ret v) s => .halt ⟨.ok v, s⟩
  | .error f s => .halt ⟨.error (.ofFailure pc f), s⟩

/-- Goes on after compiled code called at `pc` has ended. -/
def resume (r : Routine) (pc : Nat) (segment : CompiledSegment) (e : Native.Code.Ending)
    (s : State) : Transition Running Outcome :=
  match e with
  | .broken f => .halt ⟨.error (.ofFailure pc f), s⟩
  | .returned status exit =>
    if status ≠ 0 then
      let (e, i) := (ErrorCode.unpack? status).getD (.value, pc)
      .halt ⟨.error (.failed e i), s⟩
    else
      match exit with
      | none => .next ⟨.interpreting (pc + segment.length), s⟩
      | some i =>
        match r.code[i]? with
        | some ins => interpret r i ins s
        | none => .halt ⟨.error (.fault (.instruction i)), s⟩

/-- One step of a run. -/
def advance (m : Image) (r : Routine) : Running → Transition Running Outcome
  | ⟨.interpreting pc, s⟩ =>
    match m.code[pc]? with
    | none => .halt ⟨.ok .none, s⟩
    | some ins =>
      if ins.opcode = .callSegment then
        match m.segments[placeOf ins.a]? with
        | none => .halt ⟨.error (.missingSegment (placeOf ins.a)), s⟩
        | some segment =>
          match segment.code.enter s with
          | .ok _ a => .next ⟨.compiled pc segment segment.code.range.first a.vars, a.state⟩
          | .error f a => .halt ⟨.error (.ofFailure pc f), a.state⟩
      else interpret r pc ins s
  | ⟨.compiled pc segment i vars, s⟩ =>
    match segment.code.advance r.constants (i, ⟨vars, s⟩) with
    | .next (j, a) => .next ⟨.compiled pc segment j a.vars, a.state⟩
    | .halt (e, s) => resume r pc segment e s

/-- Runs an image of a routine on a state, within a budget of steps. -/
def run (m : Image) (r : Routine) (budget : Nat) (s : State) : Option Outcome :=
  iterate (m.advance r) budget ⟨.interpreting 0, s⟩

end Image

end RegisterVM
