import SparcBackend.Allocation.FirstFit
import SparcBackend.Config
import SparcBackend.Diagnostic
import SparcBackend.Peephole.Sweep
import SparcBackend.Selection.Fragment

/-!
Selection, optimization and allocation, each over all methods of a program. A method that cannot be
selected is reported and left out, and after an error the later phases are not entered. A method that
runs out of registers is reported as a warning and keeps what it was assigned.

A frame size beyond 64 bits ends a compilation without an answer.
-/
namespace SparcBackend.Pipeline
open Machine (Target)

def target : Arch → Target
  | .sparc => .sparc

/-- The fragments of a program and the reports on it. -/
structure State where
  fragments : List CodeFragment := []
  reporter : Reporter := {}

/-- Selects one procedure and reports a failure; `none` when a frame size does not fit. -/
def selectOne (config : Config) (s : State) (p : OwningProcedure) : Option (Logged State) :=
  let selected := Selection.select (target config.arch) p.supply p.toProcedure config.procedureFrames
  match selected.outcome with
  | .ok fragment => some do
    Logged.writeAll selected.log
    Logged.write (Log.debug s!"Selected {fragment.code.length} instructions for {p.name}")
    return { s with fragments := s.fragments ++ [fragment] }
  | .error (.access .overflow) => none
  | .error e => some do
    Logged.writeAll selected.log
    let reporter ← s.reporter.report (.selection p.name e.message) []
    return { s with reporter }

/-- Selects procedures one after the other. -/
def selectAll (config : Config) : List OwningProcedure → Logged State → Option (Logged State)
  | [], s => some s
  | p :: rest, s => do
    let next ← selectOne config s.value p
    selectAll config rest { value := next.value,log := s.log ++ next.log }

/-- The first phase: selects every procedure of a program. -/
def codeGenOwning (config : Config) (program : OwningProgram) (reporter : Reporter) : Option (Logged State) :=
  selectAll config program.procedures do
    let reporter ← reporter.beginPhase "CodeGen"
    return { reporter }

/-- The first phase for procedures that own nothing yet. -/
def codeGen (config : Config) (program : Program) (reporter : Reporter) : Option (Logged State) :=
  codeGenOwning config program.owning reporter

/-- Optimizes one fragment and computes its lifetimes. -/
def optimizeOne (config : Config) (f : CodeFragment) : Logged CodeFragment := do
  if config.verbose then
    Logged.writeAll (f.withLifetimes.lifetimes.dump f.code f.supply)
  if config.optLevel.runsPeephole then
    let optimized := Peephole.optimize (target config.arch) f.supply f.code
    let shorter := { f with code := optimized.code }.withLifetimes
    Logged.writeAll optimized.log
    Logged.write <| Log.debug <|
      s!"{f.name}: {f.operationCount} -> {shorter.operationCount} operations in {optimized.passes} pass(es)"
    return shorter
  else
    return f.withLifetimes

/-- The second phase: optimizes every fragment. -/
def optimize (config : Config) (s : State) : Logged State := do
  let reporter ← s.reporter.beginPhase "Optimize"
  let fragments ← s.fragments.mapM (optimizeOne config)
  return { fragments,reporter }

/-- Assigns machine registers to one fragment and reports it if they do not suffice. -/
def allocateOne (s : State) (f : CodeFragment) : Logged State := do
  let allocation ← Allocation.firstFit f.code f.supply f.lifetimes Machine.localRegisters
  let reporter ←
    match allocation.exhausted with
    | some e =>
      s.reporter.warning (f.name ++ ": " ++ e.message) ["unassigned registers keep their virtual names"]
    | none => pure s.reporter
  return { fragments := s.fragments ++ [{ f with registers := some allocation.map }],reporter }

/-- The third phase: assigns machine registers to every fragment. -/
def allocate (s : State) : Logged State := do
  let reporter ← s.reporter.beginPhase "RegAlloc"
  s.fragments.foldlM allocateOne { reporter }

/-- What has come of a compilation: the fragments, if none failed, and the reports. -/
structure Result where
  fragments : Option (List CodeFragment)
  reporter : Reporter

/-- Runs every phase; `none` when a frame size does not fit. -/
def runOwning (config : Config) (program : OwningProgram) (reporter : Reporter) : Option (Logged Result) := do
  let count := program.procedures.length
  let selected ← codeGenOwning config program reporter
  return do
    Logged.write <| Log.info <|
      s!"Compiling {count} fragment(s) for {(target config.arch).name} at {config.optLevel.name}"
    let s ← selected
    if s.reporter.hasErrors then
      return { fragments := none,reporter := s.reporter }
    else
      let s ← optimize config s
      let s ← allocate s
      return { fragments := some s.fragments,reporter := s.reporter }

/-- Runs every phase on procedures that own nothing yet. -/
def run (config : Config) (program : Program) (reporter : Reporter) : Option (Logged Result) :=
  runOwning config program.owning reporter

end SparcBackend.Pipeline
