import SparcBackend.Ir.Supply
import SparcBackend.Ir.Tree

/-!
A program is a list of methods, each with the statements of its body. Whoever builds a body may hand
over the registers minted for it; a program that was read from a text has none to hand over.
-/
namespace SparcBackend

/-- A method of a class: what names it and what its frame has to hold. -/
structure Method where
  className : String
  methodName : String
  /-- Whether the program starts here. -/
  isEntry : Bool := false
  /-- The number of words on the stack. -/
  locals : UInt64 := 0
deriving DecidableEq, Repr

namespace Method

/-- The qualified name, which labels the first instruction. -/
def name (m : Method) : String :=
  Name.qualified [m.className,m.methodName]

/-- The label of the instructions that leave the method. -/
def epilogueLabel (m : Method) : String :=
  Name.qualified [m.name,"epilogueBegin"]

end Method

/-- A method with its body in tree form. -/
structure Procedure extends Method where
  body : List Statement

structure Program where
  procedures : List Procedure

/-- A procedure with the registers that it owns already. -/
structure OwningProcedure extends Procedure where
  supply : RegisterSupply := {}

structure OwningProgram where
  procedures : List OwningProcedure

/-- The program with procedures that own nothing yet. -/
def Program.owning (program : Program) : OwningProgram where
  procedures := program.procedures.map fun p => { toProcedure := p }

/-- The program without what its procedures own. -/
def OwningProgram.program (program : OwningProgram) : Program where
  procedures := program.procedures.map OwningProcedure.toProcedure

end SparcBackend
