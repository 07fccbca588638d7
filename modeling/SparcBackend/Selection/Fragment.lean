import SparcBackend.Asm.Fragment
import SparcBackend.Machine.Frame
import SparcBackend.Selection.Tiling

/-!
The registers that a body names and that are not the machine's become the method's own before any
register is minted. The covered statements are framed at the end, if frames are asked for.
-/
namespace SparcBackend.Selection
open Machine (Target)

/-- The registers of a body that are not registers of the machine, in tree order. -/
def virtualRegisters (body : List Statement) : List Register :=
  (body.flatMap Statement.registers).filter fun r => !Machine.isPhysical r

/-- Covers statements one after the other. -/
def tileBody (t : Target) : List Statement → Munch Unit
  | [] => pure ()
  | s :: rest => do
    tileStatement t s
    tileBody t rest

/-- The code of a method between its prologue and its epilogue; `none` where the frame is too large. -/
def frame? (m : Method) (code : List Instruction) : Option (List Instruction) :=
  (Machine.prologue? m).map fun prologue => prologue ++ code ++ Machine.epilogue m

/-- What has come of selecting a method, and the lines written on the way. -/
structure Selected where
  log : Log
  outcome : Except Error CodeFragment

/-- Selects the instructions of a procedure that already owns the registers of `supply`. -/
def select (t : Target) (supply : RegisterSupply) (p : Procedure) (frames : Bool) : Selected :=
  let munched := tileBody t p.body (supply.adoptAll (virtualRegisters p.body))
  { log := munched.steps.map Step.log
    outcome := do
      let (_,supply) ← munched.outcome
      let code ←
        if frames then
          match frame? p.toMethod munched.code with
          | some code => .ok code
          | none => .error (.access .overflow)
        else
          .ok munched.code
      return { toMethod := p.toMethod,code,supply } }

end SparcBackend.Selection
