import SparcBackend.Allocation.Pool
import SparcBackend.Lifetime

/-!
One walk through the code hands out machine registers. At each instruction the registers whose
lifetimes are over go back first, and then each virtual register that is written for the first time
takes the first free register of the pool. Nothing is spilled: when the pool is exhausted the walk
stops, and what was assigned so far is kept.
-/
namespace SparcBackend

/-- The pool was exhausted when a register was first written. -/
structure Exhaustion where
  line : Nat
  register : Register
deriving DecidableEq, Repr

def Exhaustion.message (e : Exhaustion) : String :=
  s!"Ran out of registers at instruction {e.line} allocating {e.register.name} (no spilling)"

/-- What has come of an allocation; the map is partial if the pool was exhausted. -/
structure Allocation where
  map : RegisterMap
  exhausted : Option Exhaustion := none
deriving DecidableEq, Repr

namespace Allocation

structure Progress where
  pool : RegisterPool
  map : RegisterMap := {}
  /-- The virtual registers that hold a register of the pool, with that register. -/
  held : List (Register × Register) := []
deriving DecidableEq, Repr

/-- Whether a lifetime is over before a line. A register without a known lifetime needs none. -/
def isOver (lifetimes : LifetimeTable) (line : Nat) (r : Register) : Bool :=
  match (lifetimes.get? r).bind Lifetime.last? with
  | some last => last < line
  | none => true

/-- Takes back what `r` holds, if its lifetime is over. -/
def releaseOne (lifetimes : LifetimeTable) (line : Nat) (p : Progress) (r : Register) : Logged Progress :=
  match p.held.lookup r with
  | none => pure p
  | some assigned =>
    if isOver lifetimes line r then
      let held := p.held.filter fun (holder,_) => holder ≠ r
      match p.pool.release? assigned with
      | some pool => do
        Logged.write <| Log.debug <|
          s!"Freeing register {assigned.name} from {r.name} at instruction {Name.fourDigits line}"
        return { p with pool,held }
      | none => return { p with held }
    else
      pure p

/-- Takes back what is held by registers whose lifetimes are over, in the order of the registers. -/
def releaseOver (lifetimes : LifetimeTable) (line : Nat) (owned : List Register) (p : Progress) :
    Logged Progress :=
  owned.foldlM (releaseOne lifetimes line) p

/-- Assigns a machine register to each of the written registers that is owned and has none. Stops at
the first for which the pool has none left. -/
def assignAll (supply : RegisterSupply) (line : Nat) (p : Progress) :
    List Register → Logged (Progress × Option Exhaustion)
  | [] => pure (p,none)
  | r :: rest =>
    if supply.owns r && !p.map.contains r then
      match p.pool.acquire? with
      | some (assigned,pool) => do
        Logged.write (Log.debug s!"Allocated register {assigned.name} for {r.name}")
        assignAll supply line
          { pool,map := p.map.insert r assigned,held := (r,assigned) :: p.held } rest
      | none => do
        Logged.write <| Log.debug <|
          s!"Ran out of registers at instruction {Name.fourDigits line}, cannot spill"
        return (p,some { line,register := r })
    else
      assignAll supply line p rest

/-- Walks through the code, whose first line has the number `line`. -/
def walk (supply : RegisterSupply) (lifetimes : LifetimeTable) (line : Nat) (p : Progress) :
    List Instruction → Logged Allocation
  | [] => pure { map := p.map }
  | i :: rest => do
    let p ← releaseOver lifetimes line supply.children p
    let (p,exhausted) ← assignAll supply line p i.defRegisters
    match exhausted with
    | some e => return { map := p.map,exhausted := some e }
    | none => walk supply lifetimes (line + 1) p rest

def firstFit (code : List Instruction) (supply : RegisterSupply) (lifetimes : LifetimeTable)
    (registers : List Register) : Logged Allocation :=
  walk supply lifetimes 0 { pool := .ofList registers } code

end Allocation

end SparcBackend
