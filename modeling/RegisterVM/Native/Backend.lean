import RegisterVM.Native.Assigned
import RegisterVM.Native.Lower

/-!
# The backend

Machine code is made by a backend, which is no part of the machine. It keeps the segments of one
routine in a module: a segment is declared, then defined by its code, and in the end all of them are
made executable. The backend may refuse whatever it is asked for, in view of what it was asked
before; nothing else is known of it.

The backend at hand (`Backend.verifying`) refuses code that reads a variable before it has a value,
and to define a segment twice.
-/

namespace RegisterVM
namespace Native

/-- What a backend is asked for. -/
inductive Request where
  | declare (range : IndexRange)
  /-- the code of a segment of a routine -/
  | define (r : Routine) (code : Code)

/-- A backend, as far as one sees it: what it refuses, after the requests so far, the last one first. -/
structure Backend where
  /-- whether there is a module for the segments of a routine -/
  opens : Bool
  accepts : List Request → Request → Bool
  /-- whether the segments can be made executable -/
  finishes : List Request → Bool

/-- Code generation asks the backend; what was asked is kept also if it fails. -/
abbrev EmitM := EStateM CodegenError (List Request)

namespace Backend

/-- Asks for something. -/
def ask (b : Backend) (q : Request) : EmitM Unit := fun asked =>
  if b.accepts asked q then .ok () (q :: asked) else .error .backend (q :: asked)

/-- Compiles a range of a routine: plans it, declares it, lowers it and has it defined. -/
def compileRange (b : Backend) (r : Routine) (facts : Dataflow) (config : Config)
    (range : IndexRange) : EmitM Code := do
  let plan ← ofExcept (Plan.build r.code r.types facts range config)
  b.ask (.declare range)
  let code ← ofExcept (plan.lower r)
  b.ask (.define r code)
  return code

end Backend

/-- Whether a range begins inside a case table. -/
def beginsInCases (code : Array Instruction) (range : IndexRange) : Bool :=
  (code[range.first]?).any (·.opcode = .caseEntry)

/-- Whether a request is to define the segment of a range. -/
def Request.defines (range : IndexRange) : Request → Bool
  | declare _ => false
  | define _ code => code.range = range

/-- The backend that is used.

The plan carries a register directly only if its definition comes before every use on all ways the
instructions take. Compiled code takes one way more: it runs on through a case entry, where the
instructions end. So a variable without a value can be found only in a range that begins inside a
case table. -/
def Backend.verifying : Backend where
  opens := true
  accepts asked
    | .declare _ => true
    | .define r code =>
      !(beginsInCases r.code code.range && code.readsUnassigned) && !asked.any (·.defines code.range)
  finishes _ := true

end Native
end RegisterVM
