import SparcBackend.Machine.Access
import SparcBackend.Machine.Instructions

/-!
What may differ between machines that share the instruction set: where arguments and results travel,
which operators and immediates instructions take, and whether a transfer of control has a delay slot.
The defaults describe SPARC V8.
-/
namespace SparcBackend.Machine

/-- A machine with the instruction set of SPARC. -/
structure Target where
  name : String := "sparc"
  /-- Where a caller finds the result of a call. -/
  callResult : Expression := .register callResultRegister
  /-- The number of arguments that a call may have. -/
  argumentCount : Nat := argumentRegisters
  /-- The one place for all arguments, if they do not travel in the outgoing registers. -/
  argumentPlace : Option Expression := none
  /-- Operators that have no instruction, besides those without a mnemonic. -/
  refused : List BinaryOp := []
  /-- What follows a transfer of control. -/
  filler : Option Instruction := some nop
  /-- The kinds whose last read slot takes an immediate. -/
  immediateKinds : List Kind := [.add,.sub,.compare]
  /-- The least immediate; the field has 13 bits with a sign. -/
  leastImmediate : Int := -4096
  /-- The greatest immediate. -/
  greatestImmediate : Int := 4095

namespace Target

def sparc : Target := {}

/-- Where a caller puts the argument with a number. -/
def outgoing (t : Target) (index : Nat) : Except AccessError Expression :=
  match t.argumentPlace with
  | some place => .ok place
  | none => outgoingArgument index

def binary? (t : Target) (op : BinaryOp) (left right : Operand) (destination : Register) :
    Option Instruction :=
  if t.refused.contains op then none else Machine.binary? op left right destination

/-- Whether the last read slot of a kind takes an immediate. -/
def acceptsImmediate (t : Target) (kind : Kind) : Bool :=
  t.immediateKinds.contains kind

/-- Whether a value fits the field for immediates. -/
def immediateFits (t : Target) (value : Int) : Bool :=
  t.leastImmediate ≤ value && value ≤ t.greatestImmediate

end Target

end SparcBackend.Machine
