import RegisterVM.Machine.Image
import RegisterVM.Native.Backend
import RegisterVM.Segment.Finder
import RegisterVM.Text.Quoted

/-!
# The life of a routine

A routine starts out unanalyzed. Compiling it finds its segments and compiles each; the segments
that compile are installed in a new image, and the others are reported with the reason. If the
backend gives up on the routine as a whole, nothing is installed and there is no report. A routine is
compiled at most once: afterwards it is installed, or interpreted for good. Discarding compiled code
puts the plain image back and is final too.

The code of the routine itself never changes.
-/

namespace RegisterVM

/-- How far a routine has come. -/
inductive Stage where
  | unanalyzed
  | installed
  | interpreted
deriving DecidableEq, Repr, Inhabited

def Stage.name : Stage → String
  | unanalyzed => "Unanalyzed"
  | installed => "Installed"
  | interpreted => "Interpreted"

/-- A routine with the image that is executed for it. -/
structure Published where
  routine : Routine
  image : Image
  stage : Stage

/-- What compilation consults. -/
structure Compiler where
  config : Native.Config := {}
  classifier : Classifier := .standard
  backend : Native.Backend := .verifying

def Compiler.finder (c : Compiler) : SegmentFinder := ⟨c.classifier, c.config.minLength⟩

/-- What compiling a routine achieved. -/
structure Report where
  segments : List IndexRange
  installed : List IndexRange
  abandoned : List (IndexRange × Native.CodegenError)
deriving DecidableEq, Repr

def Report.isInstalled (r : Report) : Bool := !r.installed.isEmpty

/-- Why a routine was not compiled at all. -/
inductive CompileError where
  | alreadyAnalyzed (name : String)
  | tooLong (name : String) (length : Nat)
  /-- the backend gave up on the routine -/
  | codegen (e : Native.CodegenError)
deriving DecidableEq, Repr

/-- The kind of an error. -/
def CompileError.name : CompileError → String
  | alreadyAnalyzed _ => "AlreadyAnalyzed"
  | tooLong _ _ => "TooLong"
  | codegen _ => "Codegen"

def CompileError.message : CompileError → String
  | alreadyAnalyzed name => "Routine '" ++ name ++ "' was already analyzed"
  | tooLong name n =>
    "Routine '" ++ name ++ "' has " ++ toString n ++ " instructions, more than the JIT handles"
  | codegen e => "Codegen error: " ++ e.message

/-- The longest routine that is compiled: every index has to fit a packed error. -/
def maxCompiledLength : Nat := ErrorCode.maxPackedIndex + 1

/-- What became of the ranges of a routine. -/
structure Emission where
  compiled : List (IndexRange × Native.Code)
  /-- the ranges that did not compile, with the reason -/
  abandoned : List (IndexRange × Native.CodegenError)
  /-- what the backend was asked for -/
  asked : List Native.Request

namespace Compiler

/-- Compiles ranges one after another and goes on after one that does not compile. -/
def compileAll (c : Compiler) (r : Routine) (facts : Dataflow) :
    List IndexRange → List Native.Request → Emission
  | [], asked => ⟨[], [], asked⟩
  | range :: ranges, asked =>
    match c.backend.compileRange r facts c.config range asked with
    | .ok code asked =>
      let rest := c.compileAll r facts ranges asked
      { rest with compiled := (range, code) :: rest.compiled }
    | .error e asked =>
      let rest := c.compileAll r facts ranges asked
      { rest with abandoned := (range, e) :: rest.abandoned }

/-- Compiles ranges of a routine into one module. If some compile, their code is made executable. -/
def generate (c : Compiler) (r : Routine) (ranges : List IndexRange) :
    Except Native.CodegenError Emission :=
  if c.backend.opens then
    let emission := c.compileAll r (.ofCode r.code r.types.size) ranges []
    if emission.compiled.isEmpty || c.backend.finishes emission.asked then .ok emission
    else .error .backend
  else .error .backend

end Compiler

/-- Adds a segment to an image: the marker names its place in the table. -/
def Image.install (m : Image) (range : IndexRange) (code : Native.Code) : Image :=
  match m.code[range.first]? with
  | none => m
  | some replaced =>
    let marker : Instruction :=
      ⟨.callSegment, Int32.ofNat m.segments.size, Int32.ofNat range.length, 0, replaced.line⟩
    { code := m.code.setIfInBounds range.first marker
      segments := m.segments.push ⟨range.first, range.length, code, replaced⟩ }

namespace Published

/-- A routine nobody has analyzed yet. -/
def fresh (r : Routine) : Published := ⟨r, .interpreted r, .unanalyzed⟩

/-- Finds, compiles and installs the segments of a routine. -/
def compile (p : Published) (c : Compiler) : Except CompileError Report × Published :=
  let r := p.routine
  if p.stage ≠ .unanalyzed then (.error (.alreadyAnalyzed r.name), p)
  else if maxCompiledLength < r.code.size then
    (.error (.tooLong r.name r.code.size), { p with stage := .interpreted })
  else
    let segments := c.finder.find r.code r.types
    if segments.isEmpty then (.ok ⟨[], [], []⟩, { p with stage := .interpreted })
    else
      match c.generate r segments with
      | .error e => (.error (.codegen e), { p with stage := .interpreted })
      | .ok ⟨compiled, abandoned, _⟩ =>
        if compiled.isEmpty then (.ok ⟨segments, [], abandoned⟩, { p with stage := .interpreted })
        else
          let image := compiled.foldl (fun m (range, code) => m.install range code) (.interpreted r)
          (.ok ⟨segments, compiled.map (·.1), abandoned⟩, ⟨r, image, .installed⟩)

/-- Drops all compiled code for good. -/
def discard (p : Published) : Published :=
  let image := if p.stage = .installed then .interpreted p.routine else p.image
  ⟨p.routine, image, .interpreted⟩

/-- Compiles a routine before its first run, if the compiler is set to. -/
def beforeRun (p : Published) (c : Compiler) : Published :=
  if c.config.onFirstCall && p.stage = .unanalyzed then (p.compile c).2 else p

/-- Runs a routine's image on a state. -/
def run (p : Published) (budget : Nat) (s : State) : Option Outcome :=
  p.image.run p.routine budget s

/-- A one-line description. -/
def text (p : Published) : String :=
  "Routine \x7b name: " ++ Text.quote p.routine.name
    ++ ", instructions: " ++ toString p.routine.code.size
    ++ ", registers: " ++ toString p.routine.types.size
    ++ ", state: " ++ p.stage.name ++ " \x7d"

end Published

end RegisterVM
