import SparcBackend.Ir.Name

/-!
A fixed list of registers that serve equally well, each free or busy. The first free one is handed out.
-/
namespace SparcBackend

structure PoolEntry where
  register : Register
  isFree : Bool := true
deriving DecidableEq, Repr

/-- Registers in the order in which they are handed out. -/
structure RegisterPool where
  entries : List PoolEntry
deriving DecidableEq, Repr

namespace RegisterPool

def ofList (registers : List Register) : RegisterPool :=
  { entries := registers.map fun register => { register } }

/-- The entries with the first one that satisfies `p` replaced by `f` of it, and that entry; `none` if
there is no such entry. -/
def changeFirst? (p : PoolEntry → Bool) (f : PoolEntry → PoolEntry) :
    List PoolEntry → Option (PoolEntry × List PoolEntry)
  | [] => none
  | entry :: rest =>
    if p entry then some (entry,f entry :: rest)
    else (changeFirst? p f rest).map fun (found,rest) => (found,entry :: rest)

/-- Takes the first free register; `none` when all are busy. -/
def acquire? (pool : RegisterPool) : Option (Register × RegisterPool) :=
  (changeFirst? PoolEntry.isFree (fun entry => { entry with isFree := false }) pool.entries).map
    fun (found,entries) => (found.register,{ entries })

/-- Gives a register back; `none` when it was not busy. -/
def release? (pool : RegisterPool) (r : Register) : Option RegisterPool :=
  (changeFirst? (fun entry => entry.register = r && !entry.isFree)
    (fun entry => { entry with isFree := true }) pool.entries).map
    fun (_,entries) => { entries }

def freeCount (pool : RegisterPool) : Nat :=
  pool.entries.countP PoolEntry.isFree

end RegisterPool

end SparcBackend
