import Mathlib.Tactic.Common
import SparcBackend.Peephole.Sweep

/-!
The changes that a run of the optimizer makes, each with the code it is made in. What
every change preserves holds of the code behind every sweep (`sweeps_induction`), and
what no change undoes holds in the end once some change has brought it about
(`survives_optimize`).
-/
namespace SparcBackend.Peephole
open Machine (Target)

/-- A change that is made at a line of some code. -/
structure Site where
  code : List Instruction
  line : Nat
  change : Change

/-- The code behind a change. -/
def Site.after (s : Site) : List Instruction := applyAt s.code s.line s.change

/-- The change is the one that the rules make there. -/
def Site.IsMade (t : Target) (supply : RegisterSupply) (s : Site) : Prop := changeAt? t supply s.code s.line = some s.change

/-- The changes of a sweep from a line on. -/
def sitesFrom (t : Target) (supply : RegisterSupply) (code : List Instruction) (line : Nat) : List Site :=
  if line < code.length then
    match made : changeAt? t supply code line with
    | some c => ⟨code,line,c⟩ :: sitesFrom t supply (applyAt code line c) (line + 1 - c.deleted)
    | none => sitesFrom t supply code (line + 1)
  else
    []
termination_by remaining code line
decreasing_by
  · exact remaining_lt_of_weight_lt (weight_applyAt_lt made)
  · simp only [remaining]; omega

/-- The changes of all sweeps. -/
def sites (t : Target) (supply : RegisterSupply) (code : List Instruction) : List Site :=
  if _changed : (sweep t supply code).changed then
    sitesFrom t supply code 0 ++ sites t supply (sweep t supply code).code
  else
    sitesFrom t supply code 0
termination_by weight code
decreasing_by exact weight_sweep_lt _changed

section
variable {t : Target} {supply : RegisterSupply} {code : List Instruction} {line : Nat}

theorem sweepFrom_of_some {c : Change} (inside : line < code.length) (made : changeAt? t supply code line = some c) :
    sweepFrom t supply code line = (sweepFrom t supply (applyAt code line c) (line + 1 - c.deleted)).after c.message := by
  conv_lhs => rw [sweepFrom,if_pos inside]
  split
  · rename_i made'
    cases made.symm.trans made'
    rfl
  · rename_i none
    cases made.symm.trans none

theorem sweepFrom_of_none (inside : line < code.length) (none : changeAt? t supply code line = none) :
    sweepFrom t supply code line = sweepFrom t supply code (line + 1) := by
  conv_lhs => rw [sweepFrom,if_pos inside]
  split
  · rename_i made
    cases none.symm.trans made
  · rfl

end

/-- A change at the first line is made first. -/
theorem mem_sites_of_first {t : Target} {supply : RegisterSupply} {code : List Instruction} {c : Change}
    (made : changeAt? t supply code 0 = some c) : ⟨code,0,c⟩ ∈ sites t supply code := by
  have inside : 0 < code.length := by
    cases code with
    | nil => cases made
    | cons i rest => exact Nat.succ_pos _
  have first : ⟨code,0,c⟩ ∈ sitesFrom t supply code 0 := by
    rw [sitesFrom,if_pos inside]
    split
    · rename_i c' made'
      cases made.symm.trans made'
      exact List.mem_cons_self
    · rename_i none
      cases made.symm.trans none
  rw [sites]
  split
  · exact List.mem_append_left _ first
  · exact first

section
variable {t : Target} {supply : RegisterSupply} {P : List Instruction → Prop} (Good : Site → Prop)
  (step : ∀ s : Site, s.IsMade t supply → Good s → P s.code → P s.after)
include step

theorem sweepFrom_induction (code : List Instruction) (line : Nat) (good : ∀ s ∈ sitesFrom t supply code line, Good s)
    (start : P code) : P (sweepFrom t supply code line).code := by
  fun_induction sweepFrom t supply code line with
  | case1 code line inside c made ih =>
    rw [sitesFrom,if_pos inside] at good
    split at good
    · rename_i c' made'
      obtain rfl : c = c' := Option.some.inj (made.symm.trans made')
      exact ih (fun s member => good s (List.mem_cons_of_mem _ member))
        (step ⟨code,line,c⟩ made (good _ List.mem_cons_self) start)
    · rename_i none
      cases made.symm.trans none
  | case2 code line inside none ih =>
    rw [sitesFrom,if_pos inside] at good
    split at good
    · rename_i made'
      cases none.symm.trans made'
    · exact ih good start
  | case3 code line outside => exact start

/-- What every good change preserves holds behind every sweep. -/
theorem sweeps_induction (code : List Instruction) (good : ∀ s ∈ sites t supply code, Good s) (start : P code) :
    ∀ s ∈ sweeps t supply code, P s.code := by
  fun_induction sweeps t supply code with
  | case1 code changed ih =>
    rw [sites,dif_pos changed] at good
    have once := sweepFrom_induction Good step code 0 (fun s member => good s (List.mem_append_left _ member)) start
    intro s member
    rcases List.mem_cons.1 member with rfl | later
    · exact once
    · exact ih (fun s member => good s (List.mem_append_right _ member)) once s later
  | case2 code unchanged =>
    rw [sites,dif_neg unchanged] at good
    intro s member
    cases List.mem_singleton.1 member
    exact sweepFrom_induction Good step code 0 good start

theorem optimize_induction (code : List Instruction) (good : ∀ s ∈ sites t supply code, Good s) (start : P code) :
    P (optimize t supply code).code := by
  have all := sweeps_induction Good step code good start
  simp only [optimize]
  cases last : (sweeps t supply code).getLast? with
  | none => exact start
  | some s => exact all s (List.mem_of_getLast? last)

end

theorem sweeps_ne_nil (t : Target) (supply : RegisterSupply) (code : List Instruction) : sweeps t supply code ≠ [] := by
  rw [sweeps]
  split <;> simp

theorem optimize_code (t : Target) (supply : RegisterSupply) (code : List Instruction) : (optimize t supply code).code =
    if (sweep t supply code).changed then (optimize t supply (sweep t supply code).code).code else (sweep t supply code).code := by
  by_cases changed : (sweep t supply code).changed = true
  · have nonempty := sweeps_ne_nil t supply (sweep t supply code).code
    rw [if_pos changed]
    simp only [optimize]
    rw [sweeps,dif_pos changed,List.getLast?_cons_of_ne_nil nonempty]
    cases last : (sweeps t supply (sweep t supply code).code).getLast? with
    | none => exact absurd (List.getLast?_eq_none_iff.1 last) nonempty
    | some s => rfl
  · rw [if_neg changed]
    simp only [optimize]
    rw [sweeps,dif_neg changed]
    rfl

theorem optimize_passes (t : Target) (supply : RegisterSupply) (code : List Instruction) : (optimize t supply code).passes =
    if (sweep t supply code).changed then (optimize t supply (sweep t supply code).code).passes + 1 else 0 := by
  by_cases changed : (sweep t supply code).changed = true
  · have some := List.length_pos_iff.2 (sweeps_ne_nil t supply (sweep t supply code).code)
    rw [if_pos changed]
    simp only [optimize]
    rw [sweeps,dif_pos changed,List.length_cons]
    omega
  · rw [if_neg changed]
    simp only [optimize]
    rw [sweeps,dif_neg changed]
    rfl

section
variable {t : Target} {supply : RegisterSupply} {P : List Instruction → Prop}
  (step : ∀ s : Site, s.IsMade t supply → P s.code → P s.after)
include step

theorem survives_sweepFrom {code : List Instruction} {line : Nat} {site : Site} (member : site ∈ sitesFrom t supply code line)
    (holds : P site.after) : P (sweepFrom t supply code line).code := by
  fun_induction sitesFrom t supply code line with
  | case1 code line inside c made ih =>
    rw [sweepFrom_of_some inside made]
    rcases List.mem_cons.1 member with rfl | later
    · exact sweepFrom_induction (fun _ => True) (fun s made _ => step s made) _ _ (fun _ _ => trivial) holds
    · exact ih later
  | case2 code line inside none ih =>
    rw [sweepFrom_of_none inside none]
    exact ih member
  | case3 code line outside => cases member

/-- What no change undoes holds in the end, if it holds behind some change. -/
theorem survives_optimize {code : List Instruction} {site : Site} (member : site ∈ sites t supply code)
    (holds : P site.after) : P (optimize t supply code).code := by
  fun_induction sites t supply code with
  | case1 code changed ih =>
    rw [optimize_code,if_pos changed]
    rcases List.mem_append.1 member with first | later
    · exact optimize_induction (fun _ => True) (fun s made _ => step s made) _ (fun _ _ => trivial)
        (survives_sweepFrom step first holds)
    · exact ih later
  | case2 code unchanged =>
    rw [optimize_code,if_neg unchanged]
    exact survives_sweepFrom step member holds

theorem sitesFrom_induction {code : List Instruction} {line : Nat} (start : P code) :
    ∀ s ∈ sitesFrom t supply code line, s.IsMade t supply ∧ P s.code := by
  fun_induction sitesFrom t supply code line with
  | case1 code line inside c made ih =>
    intro s member
    rcases List.mem_cons.1 member with rfl | later
    · exact ⟨made,start⟩
    · exact ih (step ⟨code,line,c⟩ made start) s later
  | case2 code line inside none ih => exact ih start
  | case3 code line outside => exact fun _ absurdity => absurd absurdity List.not_mem_nil

/-- What every change preserves holds of the code of every change. -/
theorem sites_induction {code : List Instruction} (start : P code) : ∀ s ∈ sites t supply code, s.IsMade t supply ∧ P s.code := by
  fun_induction sites t supply code with
  | case1 code changed ih =>
    intro s member
    rcases List.mem_append.1 member with first | later
    · exact sitesFrom_induction step start s first
    · exact ih (sweepFrom_induction (fun _ => True) (fun s made _ => step s made) code 0 (fun _ _ => trivial) start) s later
  | case2 code unchanged => exact sitesFrom_induction step start

end

/-! ### A number of sweeps -/

/-- The code behind so many sweeps, whether they change something or not. -/
def afterSweeps (t : Target) (supply : RegisterSupply) (code : List Instruction) : Nat → List Instruction
  | 0 => code
  | n + 1 => (sweep t supply (afterSweeps t supply code n)).code

theorem afterSweeps_induction {t : Target} {supply : RegisterSupply} {P : List Instruction → Prop} {code : List Instruction}
    (step : ∀ s : Site, s.IsMade t supply → P s.code → P s.after) (start : P code) (n : Nat) : P (afterSweeps t supply code n) := by
  induction n with
  | zero => exact start
  | succ n ih => exact sweepFrom_induction (fun _ => True) (fun s made _ => step s made) _ 0 (fun _ _ => trivial) ih

theorem afterSweeps_sweep (t : Target) (supply : RegisterSupply) (code : List Instruction) (n : Nat) :
    afterSweeps t supply (sweep t supply code).code n = afterSweeps t supply code (n + 1) := by
  induction n with
  | zero => rfl
  | succ n ih =>
    rw [afterSweeps,ih]
    rfl

/-- The optimizer sweeps the code a number of times. -/
theorem exists_afterSweeps (t : Target) (supply : RegisterSupply) (code : List Instruction) :
    ∃ n, (optimize t supply code).code = afterSweeps t supply code n := by
  induction code using sweeps.induct t supply with
  | case1 code changed ih =>
    obtain ⟨n,same⟩ := ih
    refine ⟨n + 1,?_⟩
    rw [optimize_code,if_pos changed,same,afterSweeps_sweep]
  | case2 code unchanged => exact ⟨1,by rw [optimize_code,if_neg unchanged]; rfl⟩

end SparcBackend.Peephole
