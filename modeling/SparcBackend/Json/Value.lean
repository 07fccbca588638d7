/-!
A value of the data format, kept as it was written: members stay in order with their repetitions,
and a number remembers its sign and whether it has a fraction or an exponent. What a reader makes of
a repeated member or of a `-0` is decided where the value is decoded, not here.
-/
namespace SparcBackend

/-- A number as it is written. -/
inductive Json.Number where
  | natural (magnitude : Nat)
  /-- A minus sign and digits; `negative 0` is the numeral `-0`. -/
  | negative (magnitude : Nat)
  /-- A numeral with a fraction or an exponent, kept as text. -/
  | decimal (literal : String)
deriving DecidableEq, Repr

/-- A JSON value. A string is `none` when an unpaired surrogate escape keeps it from denoting text. -/
inductive Json where
  | null
  | bool (b : Bool)
  | number (n : Json.Number)
  | string (text : Option String)
  | array (items : List Json)
  | object (members : List (Option String × Json))
deriving Repr

namespace Json

/-- The integer a numeral denotes, `none` for `-0` and for numerals with a fraction or an exponent. -/
def Number.toInt? : Number → Option Int
  | .natural n => some n
  | .negative 0 => none
  | .negative n => some (-n)
  | .decimal _ => none

/-- A string value that denotes `s`. -/
def ofString (s : String) : Json :=
  .string (some s)

def ofInt (i : Int) : Json :=
  .number (if i < 0 then .negative i.natAbs else .natural i.natAbs)

def ofNat (n : Nat) : Json :=
  .number (.natural n)

/-- An object whose member names are all text. -/
def ofMembers (members : List (String × Json)) : Json :=
  .object (members.map fun (key,value) => (some key,value))

theorem toInt?_ofInt (i : Int) :
    (match ofInt i with | .number n => n.toInt? | _ => none) = some i := by
  unfold ofInt
  by_cases negative : i < 0
  · rw [if_pos negative]
    obtain ⟨n,magnitude⟩ : ∃ n, i.natAbs = n + 1 := ⟨i.natAbs - 1,by omega⟩
    simp only [magnitude,Number.toInt?,Option.some.injEq]
    omega
  · simp only [if_neg negative,Number.toInt?,Option.some.injEq]
    omega

end Json

end SparcBackend
