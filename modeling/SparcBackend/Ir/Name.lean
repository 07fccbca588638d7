/-!
Registers and labels are names of different kinds. A qualified name joins its parts with a dollar
sign (`Class$method`), and a numbered name ends in a decimal number of at least four digits.
-/
namespace SparcBackend

/-- A register, virtual (`t0003`) or of the machine (`%o0`): who owns the name decides which. -/
structure Register where
  name : String
deriving DecidableEq, Repr

/-- A jump target or a symbolic address. -/
structure Label where
  name : String
deriving DecidableEq, Repr

namespace Name

def qualified (parts : List String) : String :=
  "$".intercalate parts

/-- A number in decimal, filled up with zeros on the left to four digits. -/
def fourDigits (n : Nat) : String :=
  String.ofList ((Nat.toDigits 10 n).leftpad 4 '0')

def numbered (stem : String) (n : Nat) : String :=
  stem ++ fourDigits n

end Name

end SparcBackend
