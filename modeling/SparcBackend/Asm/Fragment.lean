import SparcBackend.Ir.Program
import SparcBackend.Lifetime

/-!
The instructions of one method with what has been derived from them, and the text of a program made
of such fragments. The text of a fragment stands between two comments that name the method; labels
begin their lines and everything else is indented.
-/
namespace SparcBackend

/-- A method in the form of instructions. -/
structure CodeFragment extends Method where
  code : List Instruction := []
  supply : RegisterSupply := {}
  /-- The lifetimes of the virtual registers, once they have been computed. -/
  lifetimes : LifetimeTable := {}
  /-- The assigned registers, once they have been handed out. -/
  registers : Option RegisterMap := none

namespace CodeFragment

def withLifetimes (f : CodeFragment) : CodeFragment :=
  { f with lifetimes := .ofCode f.code f.supply }

/-- The number of instructions that are neither labels nor comments. -/
def operationCount (f : CodeFragment) : Nat :=
  f.code.countP fun i => !i.isMarker

def line (f : CodeFragment) (i : Instruction) : String :=
  (if i.isLabel then "" else "    ") ++ i.textWith f.registers ++ "\n"

def text (f : CodeFragment) : String :=
  "! Procedure fragment for " ++ f.name ++ "\n" ++ String.join (f.code.map f.line)
    ++ "! End fragment for " ++ f.name ++ "\n"

end CodeFragment

namespace Listing

/-- The first line of every listing. -/
def header : String :=
  "! Generated by the MiniJava compiler (mjc)"

/-- The assembly text of a program: a header, the symbol where execution starts, and the fragments,
each with an empty line behind it. -/
def text (fragments : List CodeFragment) : String :=
  header ++ "\n\n.global start\nstart:\n\n" ++ String.join (fragments.map fun f => f.text ++ "\n")

end Listing

end SparcBackend
