import SparcBackend.Ir.Name
import SparcBackend.Text.Blank
import SparcBackend.Text.Replacement

/-!
An instruction is a text template with slots and the operands that fill them: registers written,
values read, labels jumped to. Everything but the final text looks only at these lists. A note is a
remark for people that mentions the operands by name and so follows them when they change.
-/
namespace SparcBackend

/-- What fills a slot. -/
inductive Operand where
  | register (r : Register)
  | immediate (value : Int)
  | address (label : Label)
deriving DecidableEq, Repr

namespace Operand

def asRegister? : Operand → Option Register
  | .register r => some r
  | _ => none

def asImmediate? : Operand → Option Int
  | .immediate value => some value
  | _ => none

def isRegister (operand : Operand) (r : Register) : Bool :=
  operand = .register r

def mapRegister (f : Register → Register) : Operand → Operand
  | .register r => .register (f r)
  | operand => operand

def text : Operand → String
  | .register r => r.name
  | .immediate value => toString value
  | .address label => label.name

@[simp] theorem mapRegister_id : mapRegister id = id := by
  funext operand
  cases operand <;> rfl

@[simp] theorem mapRegister_mapRegister (f g : Register → Register) (operand : Operand) :
    (operand.mapRegister f).mapRegister g = operand.mapRegister (g ∘ f) := by
  cases operand <;> rfl

end Operand

inductive Instruction where
  /-- An operation on registers, memory or control. -/
  | operation (template : String) (defs uses : List Operand) (jumps : List Label) (note : Option String)
  | move (template : String) (destination source : Operand) (note : Option String)
  | label (name : Label)
  | comment (text : String)
deriving DecidableEq, Repr

namespace Instruction

/-- An operation that neither jumps nor carries a note. -/
def plain (template : String) (defs uses : List Operand) : Instruction :=
  .operation template defs uses [] none

def transfer (template : String) (target : Label) : Instruction :=
  .operation template [] [] [target] none

/-! ### Parts -/

/-- The slots that are written. -/
def defs : Instruction → List Operand
  | .operation _ defs _ _ _ => defs
  | .move _ destination _ _ => [destination]
  | _ => []

/-- The slots that are read. -/
def uses : Instruction → List Operand
  | .operation _ _ uses _ _ => uses
  | .move _ _ source _ => [source]
  | _ => []

def jumps : Instruction → List Label
  | .operation _ _ _ jumps _ => jumps
  | _ => []

/-- The template; labels and comments have none. -/
def template? : Instruction → Option String
  | .operation template .. => some template
  | .move template .. => some template
  | _ => none

def note? : Instruction → Option String
  | .operation _ _ _ _ note => note
  | .move _ _ _ note => note
  | _ => none

def label? : Instruction → Option Label
  | .label name => some name
  | _ => none

def isLabel (i : Instruction) : Bool :=
  i.label?.isSome

/-- Whether the line is a label or a comment, which carry no operation. -/
def isMarker (i : Instruction) : Bool :=
  i.template?.isNone

/-- The mnemonic, the first word of the template. -/
def opcode? (i : Instruction) : Option String :=
  i.template?.bind Text.firstWord?

def defRegisters (i : Instruction) : List Register :=
  i.defs.filterMap Operand.asRegister?

def useRegisters (i : Instruction) : List Register :=
  i.uses.filterMap Operand.asRegister?

/-- The registers in all slots, written ones first. -/
def registers (i : Instruction) : List Register :=
  i.defRegisters ++ i.useRegisters

/-- Whether a written slot holds `r`. -/
def defines (i : Instruction) (r : Register) : Bool :=
  i.defRegisters.contains r

def useCount (i : Instruction) (r : Register) : Nat :=
  i.useRegisters.count r

def reads (i : Instruction) (r : Register) : Bool :=
  i.useRegisters.contains r

/-! ### Changes -/

/-- The instruction with a note. Labels and comments carry none. -/
def withNote (i : Instruction) (note : String) : Instruction :=
  match i with
  | .operation template defs uses jumps _ => .operation template defs uses jumps (some note)
  | .move template destination source _ => .move template destination source (some note)
  | i => i

def withJumps (i : Instruction) (jumps : List Label) : Instruction :=
  match i with
  | .operation template defs uses _ note => .operation template defs uses jumps note
  | i => i

/-- The instruction with other written slots; a copy has exactly one. -/
def withDefs (i : Instruction) (defs : List Operand) : Instruction :=
  match i, defs with
  | .operation template _ uses jumps note, defs => .operation template defs uses jumps note
  | .move template _ source note, [destination] => .move template destination source note
  | i, _ => i

/-- The instruction with other read slots; a copy has exactly one. -/
def withUses (i : Instruction) (uses : List Operand) : Instruction :=
  match i, uses with
  | .operation template defs _ jumps note, uses => .operation template defs uses jumps note
  | .move template destination _ note, [source] => .move template destination source note
  | i, _ => i

/-- The instruction with `value` for `old` throughout its note. -/
def renameInNote (old value : String) : Instruction → Instruction
  | .operation template defs uses jumps note =>
    .operation template defs uses jumps (note.map (Text.replaceAll old value))
  | .move template destination source note =>
    .move template destination source (note.map (Text.replaceAll old value))
  | i => i

/-- The instruction with `value` in every read slot that holds `r`, and in the note if there is one
such slot. -/
def replaceUse (i : Instruction) (r : Register) (value : Operand) : Instruction :=
  if i.reads r then
    (i.withUses (i.uses.map fun operand => if operand.isRegister r then value else operand)).renameInNote
      r.name value.text
  else
    i

def mapRegisters (f : Register → Register) : Instruction → Instruction
  | .operation template defs uses jumps note =>
    .operation template (defs.map (Operand.mapRegister f)) (uses.map (Operand.mapRegister f)) jumps note
  | .move template destination source note =>
    .move template (destination.mapRegister f) (source.mapRegister f) note
  | i => i

/-! ### What changes keep -/

@[simp] theorem template?_withNote (i : Instruction) (note : String) :
    (i.withNote note).template? = i.template? := by
  cases i <;> rfl

@[simp] theorem template?_withDefs (i : Instruction) (defs : List Operand) :
    (i.withDefs defs).template? = i.template? := by
  unfold withDefs
  split <;> rfl

@[simp] theorem template?_withUses (i : Instruction) (uses : List Operand) :
    (i.withUses uses).template? = i.template? := by
  unfold withUses
  split <;> rfl

@[simp] theorem template?_renameInNote (old value : String) (i : Instruction) :
    (i.renameInNote old value).template? = i.template? := by
  cases i <;> rfl

@[simp] theorem template?_replaceUse (i : Instruction) (r : Register) (value : Operand) :
    (i.replaceUse r value).template? = i.template? := by
  unfold replaceUse
  split <;> simp

@[simp] theorem defs_withNote (i : Instruction) (note : String) : (i.withNote note).defs = i.defs := by
  cases i <;> rfl

@[simp] theorem uses_withNote (i : Instruction) (note : String) : (i.withNote note).uses = i.uses := by
  cases i <;> rfl

@[simp] theorem jumps_withNote (i : Instruction) (note : String) : (i.withNote note).jumps = i.jumps := by
  cases i <;> rfl

@[simp] theorem defs_renameInNote (old value : String) (i : Instruction) :
    (i.renameInNote old value).defs = i.defs := by
  cases i <;> rfl

@[simp] theorem uses_renameInNote (old value : String) (i : Instruction) :
    (i.renameInNote old value).uses = i.uses := by
  cases i <;> rfl

@[simp] theorem jumps_renameInNote (old value : String) (i : Instruction) :
    (i.renameInNote old value).jumps = i.jumps := by
  cases i <;> rfl

@[simp] theorem uses_withDefs (i : Instruction) (defs : List Operand) : (i.withDefs defs).uses = i.uses := by
  unfold withDefs
  split <;> rfl

@[simp] theorem jumps_withDefs (i : Instruction) (defs : List Operand) : (i.withDefs defs).jumps = i.jumps := by
  unfold withDefs
  split <;> rfl

@[simp] theorem defs_withUses (i : Instruction) (uses : List Operand) : (i.withUses uses).defs = i.defs := by
  unfold withUses
  split <;> rfl

@[simp] theorem jumps_withUses (i : Instruction) (uses : List Operand) : (i.withUses uses).jumps = i.jumps := by
  unfold withUses
  split <;> rfl

/-- As many written slots as before take the place of the old ones. -/
theorem defs_withDefs {i : Instruction} {defs : List Operand} (same : defs.length = i.defs.length) :
    (i.withDefs defs).defs = defs := by
  cases i with
  | operation => rfl
  | move =>
    obtain ⟨d,rfl⟩ := List.length_eq_one_iff.1 same
    rfl
  | label => exact (List.length_eq_zero_iff.1 same).symm
  | comment => exact (List.length_eq_zero_iff.1 same).symm

/-- As many read slots as before take the place of the old ones. -/
theorem uses_withUses {i : Instruction} {uses : List Operand} (same : uses.length = i.uses.length) :
    (i.withUses uses).uses = uses := by
  cases i with
  | operation => rfl
  | move =>
    obtain ⟨d,rfl⟩ := List.length_eq_one_iff.1 same
    rfl
  | label => exact (List.length_eq_zero_iff.1 same).symm
  | comment => exact (List.length_eq_zero_iff.1 same).symm

@[simp] theorem defs_replaceUse (i : Instruction) (r : Register) (value : Operand) :
    (i.replaceUse r value).defs = i.defs := by
  unfold replaceUse
  split <;> simp

@[simp] theorem jumps_replaceUse (i : Instruction) (r : Register) (value : Operand) :
    (i.replaceUse r value).jumps = i.jumps := by
  unfold replaceUse
  split <;> simp

theorem uses_replaceUse (i : Instruction) (r : Register) (value : Operand) :
    (i.replaceUse r value).uses = i.uses.map fun operand => if operand.isRegister r then value else operand := by
  unfold replaceUse
  split
  · rw [uses_renameInNote,uses_withUses (List.length_map _)]
  · rename_i unread
    have absent : ∀ operand ∈ i.uses, operand.isRegister r = false := by
      intro operand member
      cases operand with
      | register s =>
        by_cases same : s = r
        · subst same
          have read : s ∈ i.useRegisters := List.mem_filterMap.2 ⟨_,member,rfl⟩
          exact absurd (List.contains_iff_mem.2 read) unread
        · simpa [Operand.isRegister] using same
      | immediate => rfl
      | address => rfl
    exact (List.map_congr_left fun operand member => by simp [absent operand member]).trans (List.map_id _) |>.symm

end Instruction

end SparcBackend
