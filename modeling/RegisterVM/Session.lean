import RegisterVM.Lifecycle

/-!
# Sessions

Several routines on one machine. They share class statics and globals, the heap, the printed text
and the random generator; each run has a frame of its own, which is given up when the run ends. A
session may compile routines when they are first run.

A routine is named by its place; an action on a place without a routine does nothing and has no
result.
-/

namespace RegisterVM

/-- Routines and what their runs share. -/
structure Session where
  routines : Array Published
  names : Namespace
  heap : Heap
  output : String
  random : Random.Generator
  compiler : Compiler
  /-- whether a routine is compiled when it is first run -/
  compilesOnRun : Bool

namespace Session

/-- The state in which a frame starts. -/
def start (s : Session) (frame : Frame) : State := ⟨frame, s.names, s.heap, s.output, s.random⟩

/-- A session with one routine replaced. -/
def update (s : Session) (k : Nat) (p : Published) : Session :=
  { s with routines := s.routines.setIfInBounds k p }

/-- A session after a run, whose frame is given up. -/
def afterRun (s : Session) (t : State) : Session :=
  { s with
    names := t.names
    heap := t.heap.dropAll (t.frame.values.filterMap Value.ref?)
    output := t.output
    random := t.random }

/-- Runs routine `k` in a frame, within a budget of steps. -/
def run (s : Session) (k : Nat) (frame : Frame) (budget : Nat) : Option (Outcome × Session) := do
  let p ← s.routines[k]?
  let p := if s.compilesOnRun then p.beforeRun s.compiler else p
  let o ← p.run budget (s.start frame)
  return (o, (s.update k p).afterRun o.state)

/-- Compiles routine `k`. -/
def compile (s : Session) (k : Nat) : Option (Except CompileError Report × Session) := do
  let p ← s.routines[k]?
  let (report, p) := p.compile s.compiler
  return (report, s.update k p)

/-- Drops the compiled code of routine `k`. -/
def discard (s : Session) (k : Nat) : Option (Published × Session) := do
  let p := (← s.routines[k]?).discard
  return (p, s.update k p)

/-- Forgets the printed text. -/
def clearOutput (s : Session) : Session := { s with output := "" }

/-- Starts the random generator over. -/
def reseed (s : Session) (g : Random.Generator) : Session := { s with random := g }

/-- Replaces the globals, which are given up. -/
def setGlobals (s : Session) (globals : Array Value) : Session :=
  { s with
    names := { s.names with globals := globals }
    heap := s.heap.dropAll (s.names.globals.toList.filterMap Value.ref?) }

/-- Runs the code of a compiled segment by itself, in a frame and a namespace of its own. -/
def runSegment (s : Session) (p : Published) (segment : CompiledSegment) (frame : Frame)
    (names : Namespace) (budget : Nat) : Option (Native.Code.Ending × State × Session) := do
  let (e, t) ← segment.code.run p.routine.constants budget { s.start frame with names := names }
  let values := t.frame.values ++ t.names.statics.toList ++ t.names.globals.toList
  let heap := t.heap.dropAll (values.filterMap Value.ref?)
  return (e, t, { s with heap := heap, random := t.random })

end Session

end RegisterVM
