import SparcBackend.Proofs.Peephole.Simulation
import SparcBackend.Proofs.Selection.Wellformed

/-!
No change exposes a transfer of control to a line that does something. Lines of a kind
take the place of lines of that kind, and a jump only goes with the slot behind it.
-/
namespace SparcBackend
open DelaySlots (walk walk_cons walk_append walk_ordinary)

namespace Peephole
open Machine (Action)
variable {ends : EndsAfter} {tail before new : List Instruction} {loss : Option Loss} {pending after : Bool}

/-- One line in place of two leads to the same tail. -/
theorem walk_single_of_pair {head next now : Instruction} (first : head.IsOrdinary) (second : next.IsOrdinary)
    (third : now.IsOrdinary) (walks : walk pending (head :: next :: tail) = some after) : walk pending (now :: tail) = some after := by
  obtain ⟨closed,behind⟩ := (walk_ordinary first).1 walks
  exact (walk_ordinary third).2 ⟨closed,((walk_ordinary second).1 behind).2⟩

/-- In front of a label no slot is open. -/
theorem closed_of_leadingLabels (labelled : leadingLabels tail ≠ []) (walks : walk pending tail = some after) : pending = false := by
  cases tail with
  | nil => exact absurd rfl labelled
  | cons i rest =>
    cases i with
    | label name => exact ((walk_ordinary (Instruction.isOrdinary_of_action (a := .label name) rfl rfl)).1 walks).1
    | operation | move | comment => exact absurd rfl labelled

theorem Rewrite.walk (rewrite : Rewrite ends tail before new loss) (walks : walk pending (before ++ tail) = some after) :
    walk pending (new ++ tail) = some after := by
  have ordinary {i : Instruction} {a : Action} (means : i.action? = some a) (is : a.isOrdinary = true) : i.IsOrdinary :=
    Instruction.isOrdinary_of_action means is
  cases rewrite with
  | neutral computes _ copies =>
    exact (walk_ordinary (ordinary copies rfl)).2 ((walk_ordinary (ordinary computes rfl)).1 walks)
  | load one two three | merge one two three => exact walk_single_of_pair (ordinary one rfl) (ordinary two rfl) (ordinary three rfl) walks
  | store one two three => exact walk_single_of_pair (ordinary one rfl) (ordinary two rfl) (ordinary three rfl) walks
  | immediate one two three placed =>
    refine walk_single_of_pair (ordinary one rfl) (ordinary two ?_) (ordinary three ?_) walks <;>
    · cases placed <;> rfl
  | jump jumps _ follows =>
    obtain ⟨mid,front,behind⟩ := walk_append.1 walks
    obtain rfl := closed_of_leadingLabels (List.ne_nil_of_mem follows) behind
    have closed : pending = false := by
      have transfers := Instruction.isTransfer_of_action jumps rfl nofun
      simpa [Instruction.busy_of_isTransfer transfers] using (walk_cons.1 front).1
    rw [closed]
    exact behind
  | @forward head copied reader new nops d target a calls idle copies means reads forwarded =>
    rw [List.append_assoc] at walks ⊢
    obtain ⟨mid,front,behind⟩ := walk_append.1 walks
    have reading : a.isOrdinary = true ∧
        (a.mapUses fun operand => if operand.isRegister d then .register Machine.callResultRegister else operand).isOrdinary = true := by
      have member := Instruction.reads_iff.1 reads
      rw [Instruction.uses_eq means] at member
      cases a with
      | assign | store | compare => exact ⟨rfl,rfl⟩
      | branch | jump | call | label | skip | special => cases member
    have same := walk_single_of_pair (ordinary copies rfl) (ordinary means reading.1) (ordinary forwarded reading.2) behind
    exact walk_append.2 ⟨mid,front,same⟩
  | selfMove copies =>
    obtain ⟨rfl,behind⟩ := (walk_ordinary (ordinary copies rfl)).1 walks
    exact behind

theorem Site.Rewrites.walk {s : Site} {supply : RegisterSupply} (rewrites : s.Rewrites supply loss)
    (walks : DelaySlots.walk false s.code = some false) : DelaySlots.walk false s.after = some false := by
  obtain ⟨pre,before,new,tail,is,becomes,-,rewrite⟩ := rewrites
  rw [is] at walks
  rw [becomes]
  obtain ⟨mid,front,behind⟩ := walk_append.1 walks
  exact walk_append.2 ⟨mid,front,rewrite.walk behind⟩

/-- Code that has a meaning and in which the slots are filled. -/
def Filled (code : List Instruction) : Prop := Meaningful code ∧ DelaySlots.walk false code = some false

/-- Slots that are filled stay filled, change by change and sweep by sweep. -/
theorem filled_optimize (supply : RegisterSupply) {code : List Instruction} (filled : Filled code) :
    Filled (optimize .sparc supply code).code ∧ (∀ s ∈ sweeps .sparc supply code, Filled s.code) ∧
      ∀ s ∈ sites .sparc supply code, Filled s.code ∧ Filled s.after := by
  have keeps : ∀ s : Site, s.IsMade .sparc supply → True → Filled s.code → Filled s.after :=
    preserved_of_rewrites (P := fun code => DelaySlots.walk false code = some false)
      fun (s : Site) loss (rewrites : s.Rewrites supply loss) _ walks => rewrites.walk walks
  refine ⟨optimize_induction _ keeps code (fun _ _ => trivial) filled,sweeps_induction _ keeps code (fun _ _ => trivial) filled,?_⟩
  intro s member
  obtain ⟨made,holds⟩ := sites_induction (fun s made => keeps s made trivial) filled s member
  exact ⟨holds,keeps s made trivial holds⟩

theorem Filled.fillsSlots {code : List Instruction} (filled : Filled code) : FillsSlots code :=
  DelaySlots.fillsSlots_of_walk filled.2

theorem fillsSlots_optimize (supply : RegisterSupply) {code : List Instruction} (filled : Filled code) :
    FillsSlots (optimize .sparc supply code).code ∧ (∀ s ∈ sweeps .sparc supply code, FillsSlots s.code) ∧
      ∀ s ∈ sites .sparc supply code, FillsSlots s.code ∧ FillsSlots s.after := by
  obtain ⟨last,sweeps,sites⟩ := filled_optimize supply filled
  exact ⟨last.fillsSlots,fun s among => (sweeps s among).fillsSlots,
    fun s among => ⟨(sites s among).1.fillsSlots,(sites s among).2.fillsSlots⟩⟩

end Peephole

namespace Selection

/-- Filled slots are kept, since each transfer of control comes with its slot. -/
theorem isCompositional_walk : IsCompositional (fun _ => True) (fun _ => True) fun _ _ code _ => walk false code = some false where
  nil := rfl
  append one two := walk_append.2 ⟨false,one,two⟩
  operand _ _ := rfl
  number means _ _ := (walk_ordinary (Instruction.isOrdinary_of_action means rfl)).2 ⟨rfl,rfl⟩
  fresh holds means := walk_append.2 ⟨false,holds,(walk_ordinary (Instruction.isOrdinary_of_action means rfl)).2 ⟨rfl,rfl⟩⟩
  read _ ordinary _ holds := walk_append.2 ⟨false,holds,(walk_ordinary ordinary).2 ⟨rfl,rfl⟩⟩
  drop holds := holds
  transfer {_ i _} _ _ _ transfers := by
    refine walk_cons.2 ⟨by simp [Instruction.busy_of_isTransfer transfers],?_⟩
    rw [transfers]
    rfl

end Selection

open Selection Peephole

theorem select_filled {supply : RegisterSupply} {p : Procedure} {frames : Bool} {f : CodeFragment}
    (accepted : (select .sparc supply p frames).outcome = .ok f) : Filled f.code := by
  refine ⟨fun i member => ((select_proper accepted).2 i member).means,?_⟩
  exact isCompositional_walk.select accepted (fun _ _ => trivial) fun _ _ => trivial

end SparcBackend
