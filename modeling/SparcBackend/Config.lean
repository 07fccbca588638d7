import SparcBackend.Json.Parser
import SparcBackend.Json.Printer
import SparcBackend.Json.Record

/-!
The options of a compilation, their names on the command line and their form in JSON.
-/
namespace SparcBackend

inductive Arch where
  | sparc
deriving DecidableEq, Repr

/-- How much work goes into better code. -/
inductive OptLevel where
  /-- Code as selected. -/
  | o0
  /-- Local changes up to a fixpoint. -/
  | o1
deriving DecidableEq, Repr

structure Config where
  arch : Arch := .sparc
  optLevel : OptLevel := .o1
  /-- Whether methods get a prologue and an epilogue. -/
  procedureFrames : Bool := true
  /-- Whether lifetimes are written to the log. -/
  verbose : Bool := false
deriving DecidableEq, Repr

/-- A name that no option has. -/
structure UnknownOption where
  kind : String
  value : String
  expected : String
deriving DecidableEq, Repr

def UnknownOption.message (e : UnknownOption) : String :=
  s!"\"{e.value}\" is not a valid {e.kind} (expected one of: {e.expected})"

namespace Arch

def name : Arch → String
  | .sparc => "sparc"

/-- The machine with a name in any case of the letters A to Z. -/
def ofName (value : String) : Except UnknownOption Arch :=
  if value.map Char.toLower = "sparc" then .ok .sparc
  else .error { kind := "architecture",value,expected := "sparc" }

def ofJson? (budget : Nat) (value : Json) : Option Arch := do
  if (← Json.unitTag? budget value) = "sparc" then some .sparc else none

end Arch

namespace OptLevel

def name : OptLevel → String
  | .o0 => "O0"
  | .o1 => "O1"

def runsPeephole : OptLevel → Bool
  | .o0 => false
  | .o1 => true

/-- The level with a name, of which the letter may be small or missing. -/
def ofName (value : String) : Except UnknownOption OptLevel :=
  let folded := value.map Char.toUpper
  if folded = "O0" || folded = "0" then .ok .o0
  else if folded = "O1" || folded = "1" then .ok .o1
  else .error { kind := "optimization level",value,expected := "O0, O1" }

def ofJson? (budget : Nat) (value : Json) : Option OptLevel := do
  let tag ← Json.unitTag? budget value
  if tag = "O0" then some .o0 else if tag = "O1" then some .o1 else none

end OptLevel

namespace Config

def toJson (c : Config) : Json :=
  .ofMembers [("arch",.ofString c.arch.name),("opt_level",.ofString c.optLevel.name),
    ("procedure_frames",.bool c.procedureFrames),("verbose",.bool c.verbose)]

/-- Reads the options; absent ones keep their defaults. -/
def ofJson? (value : Json) : Option Config := do
  let [arch,optLevel,procedureFrames,verbose] ←
    Json.fields? ["arch","opt_level","procedure_frames","verbose"] value | none
  let budget := Json.nestingLimit - 1
  let default : Config := {}
  return {
    arch := ← arch.elim (some default.arch) (Arch.ofJson? budget)
    optLevel := ← optLevel.elim (some default.optLevel) (OptLevel.ofJson? budget)
    procedureFrames := ← procedureFrames.elim (some default.procedureFrames) Json.toBool?
    verbose := ← verbose.elim (some default.verbose) Json.toBool? }

def parse? (text : String) : Option Config := do
  ofJson? (← Json.parse? text)

end Config

end SparcBackend
