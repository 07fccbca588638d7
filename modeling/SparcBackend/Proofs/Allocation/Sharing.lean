import SparcBackend.Pipeline
import SparcBackend.Proofs.Allocation.FirstFit
import SparcBackend.Proofs.Machine.Flow

/-!
Two virtual registers may share a machine register, and then each of them is held in its
own stretch of the text, from its first definition to its last mention. Within that
stretch nobody else writes the machine register. A value may leave the stretch, though,
where control goes back: it is carried from the bottom of a loop to the top, past lines
that belong to somebody else.
-/
namespace SparcBackend.Allocation
open Machine (Flow LeadsForward Live)
variable {supply : RegisterSupply} {code : List Instruction} {registers : List Register} {m : RegisterMap} {r s : Register} {line : Nat}

/-- Some way leads from a line that writes `r` to another one without passing a line that
    writes it again. -/
inductive Carries (code : List Instruction) (r : Register) : Nat → Prop
  | start {line next : Nat} {i : Instruction} (here : code[line]? = some i) (writes : i.writes r = true)
      (flow : Flow code line next) : Carries code r next
  | step {line next : Nat} {i : Instruction} (carries : Carries code r line) (here : code[line]? = some i)
      (keeps : i.writes r = false) (flow : Flow code line next) : Carries code r next

/-- On some way between a line that puts a value into `r` and one that looks at it, this
    line writes `s`. -/
structure Crosses (code : List Instruction) (r s : Register) (line : Nat) : Prop where
  carries : Carries code r line
  writes : ∃ i, code[line]? = some i ∧ i.writes s = true ∧ i.writes r = false
  live : ∃ next, Flow code line next ∧ Live code r next

def Shares (m : RegisterMap) (r s : Register) : Prop := ∃ x, m.get? r = some x ∧ m.get? s = some x

/-- No value is overwritten by one that another owned register holds in the same machine
    register. -/
def Intact (supply : RegisterSupply) (code : List Instruction) (m : RegisterMap) : Prop :=
  ∀ line r s, r ∈ supply.children → s ∈ supply.children → r ≠ s → Crosses code r s line → ¬ Shares m r s

/-- Nobody else defines a machine register where it is held. -/
theorem Sound.not_shares {a : Allocation} (sound : Sound supply code registers a) (other : r ≠ s) {i : Instruction}
    (here : code[line]? = some i) (defines : i.defines s = true) (holds : Holds code r line) : ¬ Shares a.map r s := by
  rintro ⟨x,is,also⟩
  have holds' := holds_of_defines here defines
  rcases sound.disjoint r s x other is also with earlier | later
  · exact earlier.not_holds holds holds'
  · exact later.not_holds holds' holds

/-- An allocation is intact if it is where values have left the stretch in which they are
    held. -/
theorem Sound.intact_iff {a : Allocation} (sound : Sound supply code registers a) : Intact supply code a.map ↔
    ∀ line r s, r ∈ supply.children → s ∈ supply.children → r ≠ s → Crosses code r s line → ¬ Holds code r line →
      ¬ Shares a.map r s := by
  constructor
  · exact fun intact line r s owned owned' other crosses _ => intact line r s owned owned' other crosses
  · intro outside line r s owned owned' other crosses
    by_cases holds : Holds code r line
    · obtain ⟨i,here,writes,-⟩ := crosses.writes
      refine sound.not_shares other here ?_ holds
      simp only [Instruction.writes,Bool.and_eq_true] at writes
      exact writes.2
    · exact outside line r s owned owned' other crosses holds

/-- Where all jumps lead forward, values stay where they are held. -/
theorem holds_of_leadsForward (forward : LeadsForward code) (crosses : Crosses code r s line) : Holds code r line := by
  have opened : ∃ first i, first < line ∧ code[first]? = some i ∧ i.writes r = true := by
    have carries := crosses.carries
    clear crosses
    induction carries with
    | start here writes flow => exact ⟨_,_,forward.lt flow,here,writes⟩
    | step carries here keeps flow ih =>
      obtain ⟨first,i,before,there,writes⟩ := ih
      exact ⟨first,i,Nat.lt_trans before (forward.lt flow),there,writes⟩
  obtain ⟨first,i,before,there,writes⟩ := opened
  obtain ⟨next,flow,live⟩ := crosses.live
  obtain ⟨last,j,beyond,here,consumes⟩ := forward.consumed live
  simp only [Instruction.writes,Bool.and_eq_true] at writes
  refine ⟨⟨first,i,Nat.le_of_lt before,there,writes.2⟩,?_⟩
  intro past
  have behind := past.lt here (Instruction.mem_registers.2 (.inl consumes))
  have onward := forward.lt flow
  omega

theorem Sound.intact_of_leadsForward {a : Allocation} (sound : Sound supply code registers a) (forward : LeadsForward code) :
    Intact supply code a.map := by
  refine sound.intact_iff.2 ?_
  intro line r s _ _ _ crosses outside
  exact absurd (holds_of_leadsForward forward crosses) outside

end SparcBackend.Allocation
