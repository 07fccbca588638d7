import SparcBackend.Ir.Name

/-!
A method owns its virtual registers: those it was given and those minted for it. Owned registers are
kept in the order in which they came, so that everything computed from them is determined. Labels
come from one counter for a whole program.
-/
namespace SparcBackend

/-- The virtual registers of a method. -/
structure RegisterSupply where
  /-- The number to try for the next name. -/
  next : Nat := 0
  children : List Register := []
deriving DecidableEq, Repr

namespace RegisterSupply

def owns (supply : RegisterSupply) (r : Register) : Bool :=
  supply.children.contains r

/-- The first number from `n` on whose name is not among `taken`. No later number has the same name
as an earlier one, so a name found taken need not be kept in the list. -/
def freeNumber (stem : String) (taken : List Register) (n : Nat) : Nat :=
  if found : ⟨Name.numbered stem n⟩ ∈ taken then
    freeNumber stem (taken.erase ⟨Name.numbered stem n⟩) (n + 1)
  else
    n
termination_by taken.length
decreasing_by
  have := List.length_pos_of_mem found
  rw [List.length_erase_of_mem found]
  omega

/-- Mints a register whose name is `stem` and a number that makes it new. -/
def mint (supply : RegisterSupply) (stem : String) : Register × RegisterSupply :=
  let n := freeNumber stem supply.children supply.next
  let fresh : Register := ⟨Name.numbered stem n⟩
  (fresh,{ next := n + 1,children := supply.children ++ [fresh] })

/-- Mints a temporary, `t` and a number. -/
def create (supply : RegisterSupply) : Register × RegisterSupply :=
  supply.mint "t"

/-- Takes ownership of a register, unless it is owned already. -/
def adopt (supply : RegisterSupply) (r : Register) : RegisterSupply :=
  if supply.owns r then supply else { supply with children := supply.children ++ [r] }

def adoptAll (supply : RegisterSupply) (registers : List Register) : RegisterSupply :=
  registers.foldl adopt supply

end RegisterSupply

/-- The counter of generated labels. -/
structure LabelSupply where
  next : Nat := 0
deriving DecidableEq, Repr

namespace LabelSupply

/-- Mints the label whose name joins `parts` and ends in the counter. -/
def create (supply : LabelSupply) (parts : List String) : Label × LabelSupply :=
  (⟨Name.numbered (Name.qualified parts) supply.next⟩,{ next := supply.next + 1 })

end LabelSupply

end SparcBackend
