import Mathlib.Algebra.GroupWithZero.Nat
import SparcBackend.Proofs.Machine.Action

/-!
Registers that are written once and then looked at once at most. From the top of the code
to its end such a register goes through three stages: nobody has mentioned it, it holds a
value for somebody further down, or somebody has looked at it. The stage at a line tells
what the lines behind may do, so it suffices to know what each line does to the stage.
-/
namespace SparcBackend
open Machine (Action)

namespace Operand

theorem count_registers (operands : List Operand) (r : Register) :
    (operands.filterMap asRegister?).count r = operands.count (.register r) := by
  induction operands with
  | nil => rfl
  | cons operand rest ih => cases operand <;> simp [List.filterMap_cons,asRegister?,List.count_cons,ih]

end Operand

namespace Instruction
variable {i : Instruction} {a : Action} {r : Register}

/-- How many slots of an instruction put a value into a register. -/
def writeCount (i : Instruction) (r : Register) : Nat := if i.kind = .store then 0 else i.defRegisters.count r

/-- How many slots of an instruction look at a register, as a value or as part of the
    address of a store. -/
def consumeCount (i : Instruction) (r : Register) : Nat := i.useCount r + if i.kind = .store then i.defRegisters.count r else 0

theorem writeCount_eq (means : i.action? = some a) (r : Register) :
    i.writeCount r = if a.destination? = some r then 1 else 0 := by
  unfold writeCount defRegisters
  rw [Operand.count_registers]
  cases hasAction means with
  | label is | comment is => simp [is,defs,Action.destination?]
  | @arithmetic op d left right kind defs =>
    have other : i.kind ≠ .store := by rw [kind]; cases op <;> simp [Machine.Operation.kind]
    simp [other,defs,Action.destination?,List.count_cons]
  | store kind | offsetStore kind => simp [kind,Action.destination?]
  | set kind defs | move kind defs | load kind defs | offsetLoad kind defs | compare kind defs | branch kind defs
  | jump kind defs | call kind defs | nop kind defs | special kind defs =>
    simp [kind,defs,Action.destination?,List.count_cons]

theorem consumeCount_eq (means : i.action? = some a) (r : Register) : i.consumeCount r = a.operands.count (.register r) := by
  unfold consumeCount useCount useRegisters defRegisters
  rw [Operand.count_registers,Operand.count_registers]
  cases hasAction means with
  | label is | comment is => simp [is,uses,Action.operands]
  | @arithmetic op d left right kind defs uses =>
    have other : i.kind ≠ .store := by rw [kind]; cases op <;> simp [Machine.Operation.kind]
    simp [other,uses,Action.operands,Machine.Source.operands]
  | store kind defs uses | offsetStore kind defs uses =>
    simp [kind,defs,uses,Action.operands,Machine.Address.operands,List.count_cons]
    omega
  | set kind defs uses | move kind defs uses | load kind defs uses | offsetLoad kind defs uses | compare kind defs uses
  | branch kind defs uses | jump kind defs uses | call kind defs uses | nop kind defs uses | special kind defs uses =>
    simp [kind,uses,Action.operands,Machine.Source.operands,Machine.Address.operands]

/-- An instruction that neither writes a register nor looks at it. -/
def Ignores (i : Instruction) (r : Register) : Prop := i.writeCount r = 0 ∧ i.consumeCount r = 0

theorem ignores_iff : i.Ignores r ↔ r ∉ i.registers := by
  simp only [Ignores,writeCount,consumeCount,registers,useCount,List.mem_append,not_or]
  split <;> simp only [Nat.add_eq_zero_iff,List.count_eq_zero,Nat.add_zero,true_and,and_comm]

theorem ignores_of_action (means : i.action? = some a) (apart : a.destination? ≠ some r) (unseen : .register r ∉ a.operands) :
    i.Ignores r :=
  ⟨by rw [writeCount_eq means,if_neg apart],by rw [consumeCount_eq means,List.count_eq_zero.2 unseen]⟩

/-- A line that looks at no register and writes none. -/
theorem ignores_of_bare (means : i.action? = some a) (looks : a.operands = []) (writes : a.destination? = none) :
    i.Ignores r :=
  ignores_of_action means (by simp [writes]) (by simp [looks])

end Instruction

/-- One line puts a value into `r`, in one slot and without looking at it. No other line
    writes `r`, none above looks at it, and below at most one slot does. -/
def IsLinear (code : List Instruction) (r : Register) : Prop :=
  ∃ above i below, code = above ++ i :: below ∧ i.writeCount r = 1 ∧ i.consumeCount r = 0 ∧ (∀ j ∈ above, j.Ignores r) ∧
    (∀ j ∈ below, j.writeCount r = 0) ∧ (below.map fun j => j.consumeCount r).sum ≤ 1

/-! ### Stages -/

/-- How far the code has come with a register. -/
inductive Stage where
  | absent
  | held
  | spent
deriving DecidableEq

namespace Stage
variable {r : Register} {s t u : Stage} {code first second : List Instruction}

/-- The stage behind an instruction that writes a register and looks at it so many times. -/
def next : Stage → Nat → Nat → Option Stage
  | .absent, 1, 0 => some .held
  | .held, 0, 1 => some .spent
  | s, 0, 0 => some s
  | _, _, _ => none

/-- The stage behind some code; `none` if it is not linear in the register. -/
def scan (r : Register) (s : Stage) (code : List Instruction) : Option Stage :=
  code.foldlM (fun s i => s.next (i.writeCount r) (i.consumeCount r)) s

theorem next_zero (s : Stage) : s.next 0 0 = some s := by cases s <;> rfl

/-- Every way on from a stage. -/
theorem next_eq_some {writes consumes : Nat} : s.next writes consumes = some t ↔
    (writes = 0 ∧ consumes = 0 ∧ t = s) ∨ (s = .absent ∧ writes = 1 ∧ consumes = 0 ∧ t = .held) ∨
      (s = .held ∧ writes = 0 ∧ consumes = 1 ∧ t = .spent) := by
  unfold next
  split <;> simp_all [eq_comm]

theorem scan_nil : scan r s [] = some s := rfl

theorem scan_cons {i : Instruction} : scan r s (i :: code) = some u ↔
    ∃ t, s.next (i.writeCount r) (i.consumeCount r) = some t ∧ scan r t code = some u := by
  simp only [scan,List.foldlM_cons]
  exact Option.bind_eq_some_iff

theorem scan_append : scan r s (first ++ second) = some u ↔ ∃ t, scan r s first = some t ∧ scan r t second = some u := by
  simp only [scan,List.foldlM_append]
  exact Option.bind_eq_some_iff

theorem scan_single {i : Instruction} : scan r s [i] = s.next (i.writeCount r) (i.consumeCount r) := by
  simp [scan]

theorem scan_ignored (ignored : ∀ i ∈ code, i.Ignores r) : scan r s code = some s := by
  induction code with
  | nil => rfl
  | cons i rest ih =>
    obtain ⟨writes,consumes⟩ := ignored i List.mem_cons_self
    refine scan_cons.2 ⟨s,?_,ih fun j member => ignored j (List.mem_cons_of_mem _ member)⟩
    rw [writes,consumes,next_zero]

theorem scan_behind_ignored (ignored : ∀ i ∈ first, i.Ignores r) : scan r s (first ++ second) = scan r s second := by
  have stays := scan_ignored (s := s) ignored
  unfold scan at stays ⊢
  rw [List.foldlM_append,stays]
  rfl

theorem ignored_of_spent (scans : scan r .spent code = some u) : u = .spent ∧ ∀ i ∈ code, i.Ignores r := by
  induction code with
  | nil =>
    cases scans
    exact ⟨rfl,by simp⟩
  | cons i rest ih =>
    obtain ⟨t,here,behind⟩ := scan_cons.1 scans
    rcases next_eq_some.1 here with ⟨writes,consumes,rfl⟩ | ⟨absurdity,-⟩ | ⟨absurdity,-⟩
    · obtain ⟨rfl,others⟩ := ih behind
      exact ⟨rfl,by simpa using ⟨⟨writes,consumes⟩,others⟩⟩
    · cases absurdity
    · cases absurdity

/-- A value that is held is looked at once at most, and not written over. -/
theorem consumed_of_held (scans : scan r .held code = some u) :
    (∀ i ∈ code, i.writeCount r = 0) ∧ (code.map fun i => i.consumeCount r).sum ≤ 1 := by
  induction code with
  | nil => simp
  | cons i rest ih =>
    obtain ⟨t,here,behind⟩ := scan_cons.1 scans
    rcases next_eq_some.1 here with ⟨writes,consumes,rfl⟩ | ⟨absurdity,-⟩ | ⟨-,writes,consumes,rfl⟩
    · obtain ⟨unwritten,once⟩ := ih behind
      exact ⟨by simpa using ⟨writes,unwritten⟩,by simpa [consumes] using once⟩
    · cases absurdity
    · obtain ⟨-,ignored⟩ := ignored_of_spent behind
      have nothing : (rest.map fun j => j.consumeCount r).sum = 0 := by
        rw [List.sum_eq_zero_iff_forall_eq_nat]
        simpa using fun j member => (ignored j member).2
      exact ⟨by simpa using ⟨writes,fun j member => (ignored j member).1⟩,by simp [consumes,nothing]⟩

/-- A register that was not mentioned above is linear, or not mentioned here either. -/
theorem ignored_or_isLinear (scans : scan r .absent code = some u) : (∀ i ∈ code, i.Ignores r) ∨ IsLinear code r := by
  induction code with
  | nil => exact .inl (by simp)
  | cons i rest ih =>
    obtain ⟨t,here,behind⟩ := scan_cons.1 scans
    rcases next_eq_some.1 here with ⟨writes,consumes,rfl⟩ | ⟨-,writes,consumes,rfl⟩ | ⟨absurdity,-⟩
    · rcases ih behind with ignored | ⟨above,j,below,rfl,writes',consumes',ignored,below'⟩
      · exact .inl (by simpa using ⟨⟨writes,consumes⟩,ignored⟩)
      · exact .inr ⟨i :: above,j,below,rfl,writes',consumes',by simpa using ⟨⟨writes,consumes⟩,ignored⟩,below'⟩
    · exact .inr ⟨[],i,rest,rfl,writes,consumes,by simp,consumed_of_held behind⟩
    · cases absurdity

theorem isLinear_of_scan (scans : scan r .absent code = some u) (mentioned : u ≠ .absent) : IsLinear code r := by
  rcases ignored_or_isLinear scans with ignored | linear
  · rw [scan_ignored ignored] at scans
    exact absurd (Option.some.inj scans).symm mentioned
  · exact linear

end Stage

end SparcBackend
