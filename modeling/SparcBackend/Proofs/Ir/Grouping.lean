import Mathlib.Tactic.Common
import SparcBackend.Ir.Tree

/-!
Statements that are executed one after the other may be grouped into sequences in many
ways. The leaves of a tree are the statements in it that are no sequences, in order; inside
them, sequences are nested to the right. Bodies with the same leaves hold the same
statements, however they are grouped (`Regroups`).
-/
namespace SparcBackend

mutual

/-- The statements of a tree that are no sequences, in order. The sequences in front of the
    values inside them are nested to the right. -/
def Statement.leaves : Statement → List Statement
  | .branch op left right ifTrue ifFalse => [.branch op left.regrouped right.regrouped ifTrue ifFalse]
  | .discard value => [.discard value.regrouped]
  | .jump target => [.jump target]
  | .label name => [.label name]
  | .move destination source => [.move destination.regrouped source.regrouped]
  | .seq first second => first.leaves ++ second.leaves

/-- The expression with its sequences nested to the right. -/
def Expression.regrouped : Expression → Expression
  | .binary op left right => .binary op left.regrouped right.regrouped
  | .call function arguments => .call function.regrouped (Expression.allRegrouped arguments)
  | .constant value => .constant value
  | .memory address => .memory address.regrouped
  | .name label => .name label
  | .resultOf statement value => .resultOf ((Statement.sequence? statement.leaves).getD statement) value.regrouped
  | .register r => .register r
  | .relation op left right => .relation op left.regrouped right.regrouped

def Expression.allRegrouped : List Expression → List Expression
  | [] => []
  | e :: rest => e.regrouped :: Expression.allRegrouped rest

end

/-- The statement with all its sequences nested to the right. -/
def Statement.regrouped (s : Statement) : Statement := (Statement.sequence? s.leaves).getD s

/-- Two bodies hold the same statements in the same order and differ at most in how these
    are grouped into sequences, here and in front of the values inside them. -/
def Regroups (body grouped : List Statement) : Prop := body.flatMap Statement.leaves = grouped.flatMap Statement.leaves

/-! ### Sequences nested to the right -/

namespace Statement
variable {β : Type} {s : Statement} {ss : List Statement}

theorem leaves_ne_nil : ∀ s : Statement, s.leaves ≠ []
  | .branch .. | .discard _ | .jump _ | .label _ | .move .. => by simp [leaves]
  | .seq first second => by simp [leaves,leaves_ne_nil first]

theorem exists_sequence? (some : ss ≠ []) : ∃ s, sequence? ss = .some s := by
  cases ss with
  | nil => exact absurd rfl some
  | cons first rest =>
    rw [sequence?]
    cases sequence? rest <;> exact ⟨_,rfl⟩

/-- One statement is its own sequence, and the first of several comes in front of the sequence of the others. -/
theorem sequence?_cons {first : Statement} {rest : List Statement} (is : sequence? (first :: rest) = some s) :
    (rest = [] ∧ s = first) ∨ ∃ tail, sequence? rest = some tail ∧ s = .seq first tail := by
  rw [sequence?] at is
  cases behind : sequence? rest with
  | none =>
    rw [behind] at is
    refine .inl ⟨by_contra fun some => ?_,(Option.some.inj is).symm⟩
    obtain ⟨_,absurdity⟩ := exists_sequence? some
    cases absurdity.symm.trans behind
  | some tail =>
    rw [behind] at is
    exact .inr ⟨tail,rfl,(Option.some.inj is).symm⟩

/-- What is gathered from a sequence part by part is gathered from the statements of the
    sequence one by one. -/
theorem flatMap_of_sequence? {F : Statement → List β} (splits : ∀ first second, F (.seq first second) = F first ++ F second)
    (is : sequence? ss = some s) : F s = ss.flatMap F := by
  induction ss generalizing s with
  | nil => cases is
  | cons first rest ih =>
    obtain ⟨rfl,rfl⟩ | ⟨tail,behind,rfl⟩ := sequence?_cons is
    · exact (List.flatMap_singleton F s).symm
    · rw [splits,ih behind,List.flatMap_cons]

theorem sequence?_leaves (s : Statement) : sequence? s.leaves = some s.regrouped := by
  obtain ⟨nested,is⟩ := exists_sequence? s.leaves_ne_nil
  rw [regrouped,is]
  rfl

theorem regrouped_of_leaves {nested : Statement} (is : s.leaves = [nested]) : s.regrouped = nested := by
  rw [regrouped,is]
  rfl

theorem flatMap_leaves {F : Statement → List β} (splits : ∀ first second, F (.seq first second) = F first ++ F second) (s : Statement) :
    s.leaves.flatMap F = F s.regrouped := (flatMap_of_sequence? splits s.sequence?_leaves).symm

/-- The statements of a list, nested to the right, are the statements of the list. -/
theorem regroups_of_sequence? (is : sequence? ss = some s) : Regroups [s] ss := by
  rw [Regroups,← flatMap_of_sequence? (fun _ _ => rfl) is,List.flatMap_singleton]

end Statement

/-! ### Registers -/

mutual

theorem Statement.registers_leaves : ∀ s : Statement, s.leaves.flatMap Statement.registers = s.registers
  | .branch _ left right _ _ => by
    simp only [Statement.leaves,List.flatMap_singleton,Statement.registers,left.registers_regrouped,right.registers_regrouped]
  | .discard value => by simp only [Statement.leaves,List.flatMap_singleton,Statement.registers,value.registers_regrouped]
  | .jump _ => rfl
  | .label _ => rfl
  | .move destination source => by
    simp only [Statement.leaves,List.flatMap_singleton,Statement.registers,destination.registers_regrouped,source.registers_regrouped]
  | .seq first second => by
    rw [Statement.leaves,List.flatMap_append,first.registers_leaves,second.registers_leaves,Statement.registers]

theorem Expression.registers_regrouped : ∀ e : Expression, e.regrouped.registers = e.registers
  | .binary _ left right => by
    simp only [Expression.regrouped,Expression.registers,left.registers_regrouped,right.registers_regrouped]
  | .call function arguments => by
    simp only [Expression.regrouped,Expression.registers,function.registers_regrouped,Expression.allRegisters_allRegrouped arguments]
  | .constant _ => rfl
  | .memory address => by simp only [Expression.regrouped,Expression.registers,address.registers_regrouped]
  | .name _ => rfl
  | .resultOf statement value => by
    have nested := (Statement.flatMap_leaves (F := Statement.registers) (fun _ _ => rfl) statement).symm.trans statement.registers_leaves
    simp only [Expression.regrouped,Expression.registers,value.registers_regrouped]
    exact congrArg (· ++ _) nested
  | .register _ => rfl
  | .relation _ left right => by
    simp only [Expression.regrouped,Expression.registers,left.registers_regrouped,right.registers_regrouped]

theorem Expression.allRegisters_allRegrouped : ∀ es : List Expression,
    Expression.allRegisters (Expression.allRegrouped es) = Expression.allRegisters es
  | [] => rfl
  | e :: rest => by
    simp only [Expression.allRegrouped,Expression.allRegisters,e.registers_regrouped,Expression.allRegisters_allRegrouped rest]

end

theorem Regroups.registers {body grouped : List Statement} (same : Regroups body grouped) :
    body.flatMap Statement.registers = grouped.flatMap Statement.registers := by
  have leaves (ss : List Statement) : ss.flatMap Statement.registers = (ss.flatMap Statement.leaves).flatMap Statement.registers := by
    simp only [List.flatMap_assoc,Statement.registers_leaves]
  rw [leaves body,leaves grouped,same]

/-! ### Trees that are nested to the right already -/

mutual

theorem Statement.leaves_leaves : ∀ s : Statement, s.leaves.flatMap Statement.leaves = s.leaves
  | .branch _ left right _ _ => by
    simp only [Statement.leaves,List.flatMap_singleton,left.regrouped_regrouped,right.regrouped_regrouped]
  | .discard value => by simp only [Statement.leaves,List.flatMap_singleton,value.regrouped_regrouped]
  | .jump _ => rfl
  | .label _ => rfl
  | .move destination source => by
    simp only [Statement.leaves,List.flatMap_singleton,destination.regrouped_regrouped,source.regrouped_regrouped]
  | .seq first second => by
    rw [Statement.leaves,List.flatMap_append,first.leaves_leaves,second.leaves_leaves]

/-- Nesting to the right is done in one go. -/
theorem Expression.regrouped_regrouped : ∀ e : Expression, e.regrouped.regrouped = e.regrouped
  | .binary _ left right => by simp only [Expression.regrouped,left.regrouped_regrouped,right.regrouped_regrouped]
  | .call function arguments => by
    simp only [Expression.regrouped,function.regrouped_regrouped,Expression.allRegrouped_allRegrouped arguments]
  | .constant _ => rfl
  | .memory address => by simp only [Expression.regrouped,address.regrouped_regrouped]
  | .name _ => rfl
  | .resultOf statement value => by
    have nested : statement.regrouped.leaves = statement.leaves :=
      (Statement.flatMap_leaves (fun _ _ => rfl) statement).symm.trans statement.leaves_leaves
    have again : statement.regrouped.regrouped = statement.regrouped := by
      rw [Statement.regrouped,nested,Statement.sequence?_leaves]
      rfl
    exact congrArg₂ Expression.resultOf again value.regrouped_regrouped
  | .register _ => rfl
  | .relation _ left right => by simp only [Expression.regrouped,left.regrouped_regrouped,right.regrouped_regrouped]

theorem Expression.allRegrouped_allRegrouped : ∀ es : List Expression,
    Expression.allRegrouped (Expression.allRegrouped es) = Expression.allRegrouped es
  | [] => rfl
  | e :: rest => by simp only [Expression.allRegrouped,e.regrouped_regrouped,Expression.allRegrouped_allRegrouped rest]

end

end SparcBackend
