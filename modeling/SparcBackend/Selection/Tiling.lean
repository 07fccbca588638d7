import SparcBackend.Machine.Target
import SparcBackend.Selection.Munch

/-!
Every expression is covered from its leaves up, operands and arguments from left to right, and yields
the operand that holds its value. How the value is used is passed down, since it decides whether a
memory cell is read and whether the result of a call is kept. A move covers its source before its
destination.
-/
namespace SparcBackend.Selection
open Machine (Target)

/-- What the parent of an expression does with it. -/
inductive Usage where
  /-- Its value is read. -/
  | value
  /-- Nothing: it is evaluated for its effect. -/
  | discarded
deriving DecidableEq, Repr

namespace Munch

/-- Emits what follows a transfer of control. -/
def emitFiller (t : Target) : Munch Unit :=
  match t.filler with
  | some filler => emit filler
  | none => pure ()

/-- Computes an operator into a new register. -/
def combine (t : Target) (op : BinaryOp) (left right : Operand) : Munch Operand := do
  let result ← fresh
  match t.binary? op left right result with
  | some i =>
    emit (i.withNote s!"({left.text} {op.symbol} {right.text}) -> {result.name}")
    return .register result
  | none => fail (.unsupportedOperator op t.name)

def constant (value : Int) : Munch Operand := do
  let result ← fresh
  emit ((Machine.loadImmediate value result).withNote s!"{value} -> {result.name}")
  return .register result

def addressOf (label : Label) : Munch Operand := do
  let result ← fresh
  emit ((Machine.loadAddress label result).withNote s!"&{label.name} -> {result.name}")
  return .register result

/-- Reads a memory cell into a new register, if its contents are wanted. -/
def readCell (usage : Usage) (address : Operand) : Munch Operand :=
  match usage with
  | .value => do
    let result ← fresh
    emit ((Machine.load address (.register result)).withNote s!"*({address.text}) -> {result.name}")
    return .register result
  | .discarded => pure address

def copy (value : Operand) (destination : Operand) : Munch Unit :=
  emit ((Machine.move value destination).withNote s!"{value.text} -> {destination.text}")

/-- Puts argument values where a call expects them, from the argument with number `index` on. -/
def stage (t : Target) (index : Nat) : List Operand → Munch Unit
  | [] => pure ()
  | value :: rest => do
    match t.outgoing index with
    | .ok access => copy value (.register (← accessRegister access))
    | .error e => fail (.access e)
    stage t (index + 1) rest

/-- Calls a procedure on staged arguments and keeps its result, unless it is discarded. -/
def callStaged (t : Target) (target : Label) (usage : Usage) : Munch Operand := do
  emit (Machine.call target)
  emitFiller t
  let source ← accessRegister t.callResult
  if usage = .discarded then
    return .register source
  else
    let result ← fresh
    copy (.register source) (.register result)
    return .register result

end Munch

/-- The expressions whose value can be an address. -/
def isAddress : Expression → Bool
  | .register _ => true
  | .binary .. => true
  | .memory _ => true
  | _ => false

open Munch

mutual

def tileStatement (t : Target) (s : Statement) : Munch Unit := do
  enter s
  match s with
  | .branch op left right ifTrue ifFalse =>
    let left ← tileExpression t .value left
    let right ← tileExpression t .value right
    emit ((Machine.compare left right).withNote s!"compare ({left.text}, {right.text})")
    -- The unconditional jump is removed later where its target follows.
    emit (Machine.branch op ifTrue)
    emitFiller t
    emit (Machine.jump ifFalse)
    emitFiller t
  | .discard value =>
    let _ ← tileExpression t .discarded value
  | .jump target =>
    emit (Machine.jump target)
    emitFiller t
  | .label name => emit (.label name)
  | .move destination source =>
    let value ← tileExpression t .value source
    match destination with
    | .register r => copy value (.register r)
    | .memory address =>
      if isAddress address then
        let address ← tileExpression t .value address
        emit ((Machine.store value address).withNote s!"{value.text} -> *({address.text})")
      else
        fail (.badMemoryChild (.memory address))
    | _ => fail (.badDestination s)
  | .seq first second =>
    tileStatement t first
    tileStatement t second

/-- Covers an expression and yields the operand with its value. -/
def tileExpression (t : Target) (usage : Usage) : Expression → Munch Operand
  | .binary op left right => do
    let left ← tileExpression t .value left
    let right ← tileExpression t .value right
    combine t op left right
  | .call function arguments => do
    match function with
    | .name target =>
      if t.argumentCount < arguments.length then
        fail (.access (.tooManyArguments arguments.length t.argumentCount))
      else
        -- Calls inside arguments use the same places, so nothing is staged before all values are known.
        let values ← tileArguments t arguments
        stage t 0 values
        callStaged t target usage
    | other => fail (.badCallTarget other)
  | .constant value => constant value.toInt
  | .memory address => do
    if isAddress address then
      readCell usage (← tileExpression t .value address)
    else
      fail (.badMemoryChild (.memory address))
  | .name label => addressOf label
  | .resultOf statement value => do
    tileStatement t statement
    tileExpression t usage value
  | .register r => pure (.register r)
  | .relation op left right => fail (.relationAsValue (.relation op left right))

/-- Covers arguments from left to right. -/
def tileArguments (t : Target) : List Expression → Munch (List Operand)
  | [] => pure []
  | e :: rest => do
    let value ← tileExpression t .value e
    let values ← tileArguments t rest
    return value :: values

end

end SparcBackend.Selection
