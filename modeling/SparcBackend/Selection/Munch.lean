import SparcBackend.Asm.Rendering
import SparcBackend.Ir.Supply
import SparcBackend.Log
import SparcBackend.Machine.Access

/-!
Covering a tree with instructions draws on the supply of registers, takes steps that are recorded in
order, and may fail. The steps taken before a failure are kept; the supply is not, since nothing
follows.
-/
namespace SparcBackend.Selection

/-- Why a body has no instructions. -/
inductive Error where
  | badDestination (move : Statement)
  | badMemoryChild (memory : Expression)
  | badCallTarget (target : Expression)
  | relationAsValue (relation : Expression)
  | unsupportedOperator (op : BinaryOp) (target : String)
  | badAccess (place : Expression)
  | access (cause : Machine.AccessError)

def Error.message : Error → String
  | .badDestination move => "Bad MOVE destination in IR: " ++ move.text
  | .badMemoryChild memory => "Bad MEM child in IR: " ++ memory.text
  | .badCallTarget target => "Call target is not a NAME: " ++ target.text
  | .relationAsValue relation => "RELOP node used as a value in IR: " ++ relation.text
  | .unsupportedOperator op target => s!"Operator {op.name} is not supported by the {target} target"
  | .badAccess place => "Access expression is not a register: " ++ place.text
  | .access cause => cause.message

/-- A step: turning to a statement, or emitting an instruction. -/
inductive Step where
  | enter (statement : Statement)
  | emit (instruction : Instruction)

def Step.log : Step → LogLine
  | .enter statement => Log.trace ("munch " ++ statement.text)
  | .emit instruction => Log.trace ("emit " ++ instruction.text)

/-- The instruction that a step emits. -/
def Step.instruction? : Step → Option Instruction
  | .enter _ => none
  | .emit instruction => some instruction

/-- What has come of a computation: its steps, and a value with the supply that is left. -/
structure Munched (α : Type) where
  steps : List Step
  outcome : Except Error (α × RegisterSupply)

/-- The instructions emitted, in order. -/
def Munched.code {α : Type} (m : Munched α) : List Instruction :=
  m.steps.filterMap Step.instruction?

/-- A computation on a supply of registers. -/
def Munch (α : Type) : Type :=
  RegisterSupply → Munched α

namespace Munch

/-- Runs `f` on the value of `x`, behind the steps of `x`. -/
def andThen {α β : Type} (x : Munch α) (f : α → Munch β) : Munch β := fun supply =>
  let first := x supply
  match first.outcome with
  | .error e => { steps := first.steps,outcome := .error e }
  | .ok (a,rest) => { steps := first.steps ++ (f a rest).steps,outcome := (f a rest).outcome }

instance : Monad Munch where
  pure a := fun supply => { steps := [],outcome := .ok (a,supply) }
  bind := andThen

def fail {α : Type} (e : Error) : Munch α := fun _ =>
  { steps := [],outcome := .error e }

def enter (s : Statement) : Munch Unit := fun supply =>
  { steps := [.enter s],outcome := .ok ((),supply) }

def emit (i : Instruction) : Munch Unit := fun supply =>
  { steps := [.emit i],outcome := .ok ((),supply) }

def fresh : Munch Register := fun supply =>
  { steps := [],outcome := .ok supply.create }

/-- The register that an access names directly. -/
def accessRegister (access : Expression) : Munch Register :=
  match access.asRegister? with
  | some r => pure r
  | none => fail (.badAccess access)

end Munch

end SparcBackend.Selection
