import SparcBackend.Proofs.Peephole.Rewording

/-!
What a change does to the lines of any code, whether they have a meaning or not. A sum
becomes a copy; or one line goes and at most one other is put in place of a line of its
kind; or a jump goes with the nops behind it (`Trims`). So code never grows, and with a
change there go as many lines as it says.
-/
namespace SparcBackend.Peephole
open Machine (Target Kind OffsetSign)

/-- The kinds of lines that a rule takes away from beside another line. -/
def isExpendable : Kind → Bool
  | .add | .sub | .loadImmediate | .move => true
  | _ => false

/-- The code from the head of a change on, what comes of it and how many lines go. -/
inductive Trims : List Instruction → List Instruction → Nat → Prop
  /-- A sum becomes a copy. -/
  | copied {head new : Instruction} {rest : List Instruction} (sum : isArithmetic head = true) (copies : new.kind = .move)
      (bare : new.jumps = []) : Trims (head :: rest) (new :: rest) 0
  /-- A line goes and the one behind it is replaced. -/
  | forward {front behind : List Instruction} {gone old new : Instruction} (expendable : isExpendable gone.kind = true)
      (replaces : Replaces new old) : Trims (front ++ gone :: old :: behind) (front ++ new :: behind) 1
  /-- A line goes and the one in front of it is replaced. -/
  | backward {behind : List Instruction} {gone old new : Instruction} (expendable : isExpendable gone.kind = true)
      (replaces : Replaces new old) : Trims (old :: gone :: behind) (new :: behind) 1
  /-- A line goes. -/
  | vanished {behind : List Instruction} {gone : Instruction} (expendable : isExpendable gone.kind = true) :
      Trims (gone :: behind) behind 1
  /-- A jump goes with the nops behind it, and its label follows. -/
  | jump {head : Instruction} {nops behind : List Instruction} {target : Label} (jumps : head.kind = .jump)
      (first : head.jumps.head? = some target) (idle : ∀ i ∈ nops, i.kind = .nop) (all : ∀ i ∈ behind.head?, i.kind ≠ .nop)
      (follows : target ∈ leadingLabels behind) : Trims (head :: nops ++ behind) behind (nops.length+1)

theorem isMarker_of_expendable {i : Instruction} (expendable : isExpendable i.kind = true) : i.isMarker = false := by
  apply isMarker_of_kind
  intro other
  rw [other] at expendable
  cases expendable

section
variable {t : Target} {ends : EndsAfter} {head : Instruction} {rest : List Instruction} {c : Change}

theorem isExpendable_of_isArithmetic {i : Instruction} (sum : isArithmetic i = true) : isExpendable i.kind = true := by
  simp only [isArithmetic,Bool.or_eq_true,decide_eq_true_eq] at sum
  rcases sum with kind | kind <;> rw [kind] <;> rfl

theorem isExpendable_of_worth {i : Instruction} {value : Note} (worth : worth? i = some value) : isExpendable i.kind = true := by
  unfold worth? at worth
  split at worth
  case h_5 => cases worth
  all_goals
    rename_i kind _
    rw [kind]
    rfl

/-- What is left of a change once notes and operands are forgotten. -/
theorem Rewords.trims {before after : List Instruction} {deleted : Nat} {k : Option Rewording}
    (rewords : Rewords ends before after deleted k) : Trims before after deleted := by
  cases rewords with
  | anew sum defs uses => exact .copied sum (by simp [copy]) rfl
  | forward defs worth drops renames => exact .forward (isExpendable_of_worth worth) renames.replaces
  | backward defs copies reads writes value drops renames => exact .backward (by rw [copies]; rfl) renames.replaces
  | vanished copies => exact .vanished (by rw [copies]; rfl)
  | jump jumps first idle all follows => exact .jump jumps first idle all follows

theorem trims_of_kindRule (changed : kindRule? t ends head rest = some c) : Trims (head :: rest) c.code c.deleted := by
  obtain ⟨_,rewords⟩ := rewords_of_kindRule changed
  exact rewords.trims

theorem trims_of_mergeMove (changed : mergeMove? ends head rest = some c) : Trims (head :: rest) c.code c.deleted := by
  obtain ⟨_,rewords⟩ := rewords_of_mergeMove changed
  exact rewords.trims

/-- Whatever the lines are, this is all that a change does to them. -/
theorem trims_of_change (changed : change? t ends head rest = some c) : Trims (head :: rest) c.code c.deleted := by
  obtain ⟨_,rewords⟩ := rewords_of_change changed
  exact rewords.trims

end

/-! ### Lengths -/

/-- The number of lines that are neither labels nor comments. -/
def operations (code : List Instruction) : Nat := code.countP fun i => !i.isMarker

variable {before after : List Instruction} {deleted : Nat}

theorem Trims.length_eq (trims : Trims before after deleted) : after.length+deleted = before.length := by
  cases trims with
  | copied | vanished | backward => rfl
  | forward | jump =>
    simp only [List.length_append,List.length_cons]
    omega

theorem Trims.operations_le (trims : Trims before after deleted) : operations after ≤ operations before := by
  cases trims with
  | copied sum copies =>
    have special := isMarker_of_kind (i := _) (by rw [copies]; nofun)
    simp [operations,isMarker_of_expendable (isExpendable_of_isArithmetic sum),special]
  | forward _ replaces | backward _ replaces =>
    simp only [operations,List.countP_append,List.countP_cons,replaces.isOperation.1,replaces.isOperation.2]
    omega
  | vanished _ | jump _ _ _ _ _ =>
    simp only [operations,List.countP_append,List.countP_cons,List.cons_append]
    omega

/-- What is trimmed from a line on makes the code shorter by as many lines as go. -/
theorem Trims.within {code window : List Instruction} {line : Nat} (trims : Trims (code.drop line) window deleted) :
    (code.take line ++ window).length+deleted = code.length ∧ operations (code.take line ++ window) ≤ operations code := by
  have whole := (List.take_append_drop line code).symm
  have length := trims.length_eq
  have count := trims.operations_le
  simp only [operations] at count ⊢
  constructor
  · conv_rhs => rw [whole]
    rw [List.length_append,List.length_append]
    omega
  · conv_rhs => rw [whole]
    rw [List.countP_append,List.countP_append]
    omega

end SparcBackend.Peephole
