import SparcBackend.Proofs.Machine.Action

/-!
Jumps, branches and calls take effect one line late. The line behind each of them is
therefore idle, and no other line is. On the way down the code it suffices to remember
whether the line above transfers control.
-/
namespace SparcBackend
open Machine (Action)

/-- Actions of lines that neither transfer control nor idle. -/
def Machine.Action.isOrdinary : Action → Bool
  | .branch .. | .jump _ | .call _ | .skip => false
  | _ => true

namespace Instruction
variable {i : Instruction} {a : Action}

/-- Whether control may go elsewhere once the next line is done. -/
def isTransfer (i : Instruction) : Bool := i.kind = .jump || i.kind = .branch || i.kind = .call

/-- A line that neither transfers control nor idles in a slot. -/
structure IsOrdinary (i : Instruction) : Prop where
  stays : i.isTransfer = false
  busy : i.kind ≠ .nop

theorem isOrdinary_of_action (means : i.action? = some a) (ordinary : a.isOrdinary = true) : i.IsOrdinary := by
  cases hasAction means with
  | label is | comment is => constructor <;> simp [isTransfer,is]
  | @arithmetic op _ _ _ kind => constructor <;> cases op <;> simp [isTransfer,kind,Machine.Operation.kind]
  | set kind | move kind | load kind | offsetLoad kind | store kind | offsetStore kind | compare kind | special kind =>
    constructor <;> simp [isTransfer,kind]
  | branch | jump | call | nop => cases ordinary

theorem isTransfer_of_action (means : i.action? = some a) (stays : a.isOrdinary = false) (busy : a ≠ .skip) : i.isTransfer = true := by
  cases hasAction means with
  | branch kind | jump kind | call kind => simp [isTransfer,kind]
  | label | set | move | arithmetic | load | offsetLoad | store | offsetStore | compare | special => cases stays
  | comment | nop => exact absurd rfl busy

theorem busy_of_isTransfer (transfers : i.isTransfer = true) : i.kind ≠ .nop := by
  intro idle
  simp [isTransfer,idle] at transfers

end Instruction

/-- Behind each transfer of control one line idles, and no line idles elsewhere. -/
def FillsSlots (code : List Instruction) : Prop :=
  ∀ above i below, code = above ++ i :: below →
    (i.isTransfer = true → ∃ filler rest, below = filler :: rest ∧ filler.kind = .nop) ∧
      (i.kind = .nop → ∃ rest transfer, above = rest ++ [transfer] ∧ transfer.isTransfer = true)

namespace DelaySlots
variable {pending after : Bool} {i : Instruction} {code first second : List Instruction}

/-- Whether a slot is to be filled behind a line; `none` if the line idles without need
    or does not idle where it has to. -/
def step (pending : Bool) (i : Instruction) : Option Bool := if decide (i.kind = .nop) = pending then some i.isTransfer else none

/-- Whether a slot is to be filled behind some code; `none` if one in it is not. -/
def walk (pending : Bool) (code : List Instruction) : Option Bool := code.foldlM step pending

theorem step_eq_some : step pending i = some after ↔ (i.kind = .nop ↔ pending = true) ∧ i.isTransfer = after := by
  unfold step
  split
  · rename_i same
    simp [← same]
  · rename_i other
    simp only [reduceCtorEq,false_iff,not_and]
    intro same
    exact absurd (by simp [same]) other

theorem walk_nil : walk pending [] = some after ↔ pending = after := Option.some_inj

theorem walk_cons : walk pending (i :: code) = some after ↔ (i.kind = .nop ↔ pending = true) ∧ walk i.isTransfer code = some after := by
  simp only [walk,List.foldlM_cons]
  refine Option.bind_eq_some_iff.trans ?_
  simp [step_eq_some,and_assoc]

theorem walk_append : walk pending (first ++ second) = some after ↔ ∃ mid, walk pending first = some mid ∧ walk mid second = some after := by
  simp only [walk,List.foldlM_append]
  exact Option.bind_eq_some_iff

theorem walk_ordinary (ordinary : i.IsOrdinary) : walk pending (i :: code) = some after ↔ pending = false ∧ walk false code = some after := by
  rw [walk_cons,ordinary.stays]
  simp [ordinary.busy]

theorem fillsSlots_of_walk (walks : walk false code = some false) : FillsSlots code := by
  rintro above i below rfl
  obtain ⟨pending,front,behind⟩ := walk_append.1 walks
  obtain ⟨fits,rest⟩ := walk_cons.1 behind
  constructor
  · intro transfers
    rw [transfers] at rest
    cases below with
    | nil => cases rest
    | cons filler rest' => exact ⟨filler,rest',rfl,(walk_cons.1 rest).1.2 rfl⟩
  · intro idle
    rw [fits.1 idle] at front
    rcases List.eq_nil_or_concat above with rfl | ⟨rest',last,rfl⟩
    · cases front
    · rw [List.concat_eq_append] at front ⊢
      obtain ⟨_,-,last'⟩ := walk_append.1 front
      exact ⟨rest',last,rfl,walk_nil.1 (walk_cons.1 last').2⟩

end DelaySlots

end SparcBackend
