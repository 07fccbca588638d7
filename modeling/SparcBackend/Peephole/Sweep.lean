import SparcBackend.Peephole.Change

/-!
A sweep goes through the code once and applies the first change at each instruction. Lifetimes are
those of the code as it stands at that moment. After a change the sweep goes on with the next
instruction, set back by what has been deleted. Sweeps are repeated until one changes nothing; both
loops end because changes make the code lighter.
-/
namespace SparcBackend.Peephole
open Machine (Target)

/-- Whether `r` is owned and its lifetime in `code` ends on a line. -/
def endsOn (supply : RegisterSupply) (code : List Instruction) (line : Nat) (r : Register) : Bool :=
  supply.owns r && (Lifetime.ofCode code r).endsAt line

def changeAt? (t : Target) (supply : RegisterSupply) (code : List Instruction) (line : Nat) :
    Option Change :=
  match code.drop line with
  | [] => none
  | head :: rest => change? t (fun lines r => endsOn supply code (line + lines) r) head rest

/-- The code after a change at a line. -/
def applyAt (code : List Instruction) (line : Nat) (c : Change) : List Instruction :=
  code.take line ++ c.code

theorem weight_applyAt_lt {t : Target} {supply : RegisterSupply} {code : List Instruction} {line : Nat}
    {c : Change} (change : changeAt? t supply code line = some c) :
    weight (applyAt code line c) < weight code := by
  unfold changeAt? at change
  split at change
  · cases change
  · rename_i dropped
    have lighter := weight_lt_of_change? change
    have parts := weight_append (code.take line) (code.drop line)
    rw [List.take_append_drop,dropped] at parts
    rw [applyAt,weight_append]
    omega

/-- What has come of a sweep. -/
structure Sweep where
  code : List Instruction
  /-- The reports of the changes, in order. -/
  messages : List String := []
deriving DecidableEq, Repr

namespace Sweep

def changed (s : Sweep) : Bool :=
  !s.messages.isEmpty

/-- A sweep with a change before it. -/
def after (message : String) (s : Sweep) : Sweep :=
  { s with messages := message :: s.messages }

/-- The lines that the changes write. -/
def log (s : Sweep) : Log :=
  s.messages.map Log.debug

end Sweep

/-- How much work a sweep that stands at a line has left. -/
def remaining (code : List Instruction) (line : Nat) : Nat :=
  weight code * weight code + (code.length - line)

theorem remaining_lt_of_weight_lt {code before : List Instruction} {line lineBefore : Nat}
    (lighter : weight code < weight before) : remaining code line < remaining before lineBefore := by
  have length : code.length ≤ weight code := Nat.le_add_right _ _
  have square : weight code * (weight code + 1) ≤ weight code * weight before :=
    Nat.mul_le_mul_left _ lighter
  have less : weight code * weight before < weight before * weight before :=
    Nat.mul_lt_mul_of_pos_right lighter (by omega)
  rw [Nat.mul_succ] at square
  simp only [remaining]
  omega

/-- Sweeps the code from a line on. -/
def sweepFrom (t : Target) (supply : RegisterSupply) (code : List Instruction) (line : Nat) : Sweep :=
  if line < code.length then
    match change : changeAt? t supply code line with
    | some c => (sweepFrom t supply (applyAt code line c) (line + 1 - c.deleted)).after c.message
    | none => sweepFrom t supply code (line + 1)
  else
    { code }
termination_by remaining code line
decreasing_by
  · exact remaining_lt_of_weight_lt (weight_applyAt_lt change)
  · simp only [remaining]; omega

def sweep (t : Target) (supply : RegisterSupply) (code : List Instruction) : Sweep :=
  sweepFrom t supply code 0

theorem weight_sweepFrom (t : Target) (supply : RegisterSupply) (code : List Instruction) (line : Nat) :
    weight (sweepFrom t supply code line).code + (sweepFrom t supply code line).messages.length
      ≤ weight code := by
  fun_induction sweepFrom t supply code line with
  | case1 code line _ c change ih =>
    have := weight_applyAt_lt change
    simp only [Sweep.after,List.length_cons]
    omega
  | case2 code line _ _ ih => exact ih
  | case3 code line _ => simp

/-- A sweep that changes something makes the code lighter. -/
theorem weight_sweep_lt {t : Target} {supply : RegisterSupply} {code : List Instruction}
    (changed : (sweep t supply code).changed = true) : weight (sweep t supply code).code < weight code := by
  have weighed := weight_sweepFrom t supply code 0
  simp only [Sweep.changed,Bool.not_eq_true',List.isEmpty_eq_false_iff] at changed
  have := List.length_pos_iff.2 changed
  simp only [sweep] at *
  omega

/-- Every sweep until one changes nothing, that one included. -/
def sweeps (t : Target) (supply : RegisterSupply) (code : List Instruction) : List Sweep :=
  if _changed : (sweep t supply code).changed then
    sweep t supply code :: sweeps t supply (sweep t supply code).code
  else
    [sweep t supply code]
termination_by weight code
decreasing_by exact weight_sweep_lt _changed

/-- What has come of sweeping to a fixpoint. -/
structure Optimized where
  code : List Instruction
  /-- The number of sweeps that changed something. -/
  passes : Nat
  log : Log
deriving DecidableEq, Repr

/-- Sweeps the code until a sweep changes nothing. -/
def optimize (t : Target) (supply : RegisterSupply) (code : List Instruction) : Optimized :=
  let all := sweeps t supply code
  { code := (all.getLast?.map Sweep.code).getD code
    passes := all.length - 1
    log := all.flatMap Sweep.log }

end SparcBackend.Peephole
