import SparcBackend.Asm.Rendering
import SparcBackend.Ir.Supply
import SparcBackend.Log

/-!
The lifetime of a register is the stretch of text between its first and its last mention. It knows
nothing of control flow: a register that is read at the top of a loop and written at its bottom lives
only in the text between. The first mention starts a lifetime and every later one, also in the same
instruction, moves its end.
-/
namespace SparcBackend

/-- The lines between the first and the last mention of a register. -/
structure Lifetime where
  start : Option Nat := none
  stop : Option Nat := none
deriving DecidableEq, Repr

namespace Lifetime

/-- The lifetime after one more mention. -/
def mention (life : Lifetime) (line : Nat) : Lifetime :=
  match life.start with
  | none => { life with start := some line }
  | some _ => { life with stop := some line }

/-- Whether both ends are known and in order. -/
def isValid (life : Lifetime) : Bool :=
  match life.start, life.stop with
  | some start, some stop => start ≤ stop
  | _, _ => false

/-- The last line on which the register has to keep its value. -/
def last? (life : Lifetime) : Option Nat :=
  life.stop <|> life.start

def endsAt (life : Lifetime) (line : Nat) : Bool :=
  life.stop = some line

/-- The lifetime of `r` after the mentions in one instruction. -/
def mentionIn (r : Register) (line : Nat) (life : Lifetime) (i : Instruction) : Lifetime :=
  i.registers.foldl (fun life s => if s = r then life.mention line else life) life

/-- The lifetime of `r` after `code`, whose first line has the number `line`. -/
def scan (r : Register) (life : Lifetime) (line : Nat) : List Instruction → Lifetime
  | [] => life
  | i :: rest => scan r (mentionIn r line life i) (line + 1) rest

/-- The lifetime of `r` in `code`. -/
def ofCode (code : List Instruction) (r : Register) : Lifetime :=
  scan r {} 0 code

end Lifetime

/-- The lifetimes of the registers a method owns, in the order of the registers. -/
structure LifetimeTable where
  rows : List (Register × Lifetime) := []
deriving DecidableEq, Repr

namespace LifetimeTable

def ofCode (code : List Instruction) (supply : RegisterSupply) : LifetimeTable :=
  { rows := supply.children.map fun r => (r,.ofCode code r) }

/-- The lifetime of a register, `none` for one that is not tracked. -/
def get? (table : LifetimeTable) (r : Register) : Option Lifetime :=
  table.rows.lookup r

def endsAt (table : LifetimeTable) (r : Register) (line : Nat) : Bool :=
  (table.get? r).any (·.endsAt line)

def size (table : LifetimeTable) : Nat :=
  table.rows.length

/-- A table of `code` knows the registers that are owned and no others. -/
theorem get?_ofCode (code : List Instruction) (supply : RegisterSupply) (r : Register) :
    (ofCode code supply).get? r = if r ∈ supply.children then some (.ofCode code r) else none := by
  simp only [ofCode,get?]
  induction supply.children with
  | nil => simp
  | cons s rest ih =>
    by_cases same : r = s
    · subst same
      simp
    · have differs : (r == s) = false := by simpa
      simp [List.lookup_cons,differs,same,ih]

/-- One line for each register a method owns: its lifetime with the instructions at both ends. -/
def dump (table : LifetimeTable) (code : List Instruction) (supply : RegisterSupply) : Log :=
  supply.children.map fun r => Log.debug <|
    match table.get? r with
    | some ⟨some start,some stop⟩ =>
      if start ≤ stop then
        "Lifetime " ++ r.name ++ ": begin " ++ place start ++ " / end " ++ place stop
      else
        notAvailable r
    | _ => notAvailable r
where
  /-- The line of a register whose lifetime is not valid. -/
  notAvailable (r : Register) : String :=
    "Lifetime " ++ r.name ++ ": N/A"
  /-- A line number and the instruction there. -/
  place (line : Nat) : String :=
    "(no:" ++ Name.fourDigits line ++ ") " ++ (code[line]?.elim "" Instruction.text)

end LifetimeTable

end SparcBackend
