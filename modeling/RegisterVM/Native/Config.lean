/-!
# Compiler settings

None of the settings changes what a routine computes; they decide how much is compiled and where
compiled code keeps its scalars.
-/

namespace RegisterVM
namespace Native

/-- How hard the code generator works. -/
inductive OptLevel where
  | none
  | speed
  | speedAndSize
deriving DecidableEq, Repr, Inhabited

def OptLevel.name : OptLevel → String
  | none => "none"
  | speed => "speed"
  | speedAndSize => "speed_and_size"

def OptLevel.ofName? (s : String) : Option OptLevel :=
  [none, speed, speedAndSize].find? (·.name == s)

/-- Compiler settings. -/
structure Config where
  /-- shortest segment worth compiling -/
  minLength : Nat := 1
  optLevel : OptLevel := .speed
  /-- carry registers with one dominating definition without a variable of their own -/
  direct : Bool := true
  /-- branch on a comparison directly when only the next test reads its result -/
  fuse : Bool := true
  /-- compile a routine when it is first run -/
  onFirstCall : Bool := true
deriving DecidableEq, Repr, Inhabited

end Native
end RegisterVM
