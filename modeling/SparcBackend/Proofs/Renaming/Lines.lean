import Mathlib.Data.List.Count
import Mathlib.Data.List.Forall2
import SparcBackend.Lifetime
import SparcBackend.Machine.Instructions

/-!
Lines that differ in nothing but the names of registers, and in their notes, which
mention registers by name. Different registers keep different names, so that all that is
ever asked of a line, which register stands where and where its lifetime ends, is
answered alike.
-/
namespace SparcBackend

/-- The second line is the first with other names, and with any note. -/
inductive Renames (σ : Register → Register) : Instruction → Instruction → Prop
  | operation {template : String} {defs uses : List Operand} {jumps : List Label} {note other : Option String} :
      Renames σ (.operation template defs uses jumps note)
        (.operation template (defs.map (Operand.mapRegister σ)) (uses.map (Operand.mapRegister σ)) jumps other)
  | move {template : String} {destination source : Operand} {note other : Option String} :
      Renames σ (.move template destination source note)
        (.move template (destination.mapRegister σ) (source.mapRegister σ) other)
  | label {name : Label} : Renames σ (.label name) (.label name)
  | comment {text : String} : Renames σ (.comment text) (.comment text)

namespace Operand
variable {σ : Register → Register}

theorem asRegister?_mapRegister (operand : Operand) : (operand.mapRegister σ).asRegister? = operand.asRegister?.map σ := by
  cases operand <;> rfl

theorem asImmediate?_mapRegister (operand : Operand) : (operand.mapRegister σ).asImmediate? = operand.asImmediate? := by
  cases operand <;> rfl

theorem mapRegister_eq_immediate {operand : Operand} {value : Int} :
    operand.mapRegister σ = .immediate value ↔ operand = .immediate value := by
  cases operand with
  | register r => exact ⟨nofun,nofun⟩
  | immediate | address => exact .rfl

theorem mapRegister_injective (injective : Function.Injective σ) : Function.Injective (mapRegister σ) := by
  intro one other same
  cases one with
  | register r =>
    cases other with
    | register s => rw [injective (register.inj same)]
    | immediate | address => cases same
  | immediate | address =>
    cases other with
    | register s => cases same
    | immediate | address => exact same

theorem isRegister_mapRegister (injective : Function.Injective σ) (operand : Operand) (r : Register) :
    (operand.mapRegister σ).isRegister (σ r) = operand.isRegister r := by
  have same : operand.mapRegister σ = mapRegister σ (.register r) ↔ operand = .register r := (mapRegister_injective injective).eq_iff
  rw [mapRegister] at same
  simp [isRegister,same]

end Operand

namespace Renames
variable {σ : Register → Register} {i j : Instruction} {r : Register}

theorem template?_eq (renames : Renames σ i j) : j.template? = i.template? := by
  cases renames <;> rfl

theorem kind_eq (renames : Renames σ i j) : j.kind = i.kind := Instruction.kind_eq_of_template? renames.template?_eq

theorem isMarker_eq (renames : Renames σ i j) : j.isMarker = i.isMarker := by
  rw [Instruction.isMarker,Instruction.isMarker,renames.template?_eq]

theorem label?_eq (renames : Renames σ i j) : j.label? = i.label? := by
  cases renames <;> rfl

theorem jumps_eq (renames : Renames σ i j) : j.jumps = i.jumps := by
  cases renames <;> rfl

theorem defs_eq (renames : Renames σ i j) : j.defs = i.defs.map (Operand.mapRegister σ) := by
  cases renames <;> rfl

theorem uses_eq (renames : Renames σ i j) : j.uses = i.uses.map (Operand.mapRegister σ) := by
  cases renames <;> rfl

theorem filterMap_asRegister? (operands : List Operand) :
    (operands.map (Operand.mapRegister σ)).filterMap Operand.asRegister? = (operands.filterMap Operand.asRegister?).map σ := by
  rw [List.filterMap_map,List.map_filterMap]
  exact List.filterMap_congr fun operand _ => Operand.asRegister?_mapRegister operand

theorem defRegisters_eq (renames : Renames σ i j) : j.defRegisters = i.defRegisters.map σ := by
  rw [Instruction.defRegisters,renames.defs_eq,filterMap_asRegister?,Instruction.defRegisters]

theorem useRegisters_eq (renames : Renames σ i j) : j.useRegisters = i.useRegisters.map σ := by
  rw [Instruction.useRegisters,renames.uses_eq,filterMap_asRegister?,Instruction.useRegisters]

theorem registers_eq (renames : Renames σ i j) : j.registers = i.registers.map σ := by
  rw [Instruction.registers,renames.defRegisters_eq,renames.useRegisters_eq,Instruction.registers,List.map_append]

theorem useCount_eq (injective : Function.Injective σ) (renames : Renames σ i j) : j.useCount (σ r) = i.useCount r := by
  rw [Instruction.useCount,renames.useRegisters_eq,Instruction.useCount]
  exact List.count_map_of_injective _ _ injective _

theorem reads_eq (injective : Function.Injective σ) (renames : Renames σ i j) : j.reads (σ r) = i.reads r := by
  rw [Instruction.reads,renames.useRegisters_eq,Instruction.reads,Bool.eq_iff_iff,List.contains_iff_mem,List.contains_iff_mem]
  exact List.mem_map_of_injective injective

/-! ### Changes -/

theorem renameInNote (renames : Renames σ i j) (old value old' value' : String) :
    Renames σ (i.renameInNote old value) (j.renameInNote old' value') := by
  cases renames <;> constructor

theorem withDefs (renames : Renames σ i j) (defs : List Operand) :
    Renames σ (i.withDefs defs) (j.withDefs (defs.map (Operand.mapRegister σ))) := by
  cases renames with
  | operation | label | comment => constructor
  | move =>
    rcases defs with _ | ⟨first,_ | ⟨second,more⟩⟩ <;> constructor

theorem withUses (renames : Renames σ i j) (uses : List Operand) :
    Renames σ (i.withUses uses) (j.withUses (uses.map (Operand.mapRegister σ))) := by
  cases renames with
  | operation | label | comment => constructor
  | move =>
    rcases uses with _ | ⟨first,_ | ⟨second,more⟩⟩ <;> constructor

theorem replaceUse (injective : Function.Injective σ) (renames : Renames σ i j) (d : Register) (value : Operand) :
    Renames σ (i.replaceUse d value) (j.replaceUse (σ d) (value.mapRegister σ)) := by
  rw [Instruction.replaceUse,Instruction.replaceUse,renames.reads_eq injective]
  have replaced : (j.uses.map fun operand => if operand.isRegister (σ d) then value.mapRegister σ else operand) =
      (i.uses.map fun operand => if operand.isRegister d then value else operand).map (Operand.mapRegister σ) := by
    rw [renames.uses_eq,List.map_map,List.map_map]
    apply List.map_congr_left
    intro operand _
    simp only [Function.comp_apply,Operand.isRegister_mapRegister injective]
    split <;> rfl
  by_cases reads : i.reads d = true
  · rw [if_pos reads,if_pos reads,replaced]
    exact (renames.withUses _).renameInNote _ _ _ _
  · rw [if_neg reads,if_neg reads]
    exact renames

theorem mapRegisters (i : Instruction) : Renames σ i (i.mapRegisters σ) := by
  cases i <;> constructor

end Renames

/-! ### Supplies and lifetimes -/

/-- The supply with other names for its registers, in the same order. -/
def RegisterSupply.rename (σ : Register → Register) (supply : RegisterSupply) : RegisterSupply :=
  { supply with children := supply.children.map σ }

section
variable {σ : Register → Register} (injective : Function.Injective σ) {r : Register}
include injective

theorem owns_rename (supply : RegisterSupply) : (supply.rename σ).owns (σ r) = supply.owns r := by
  rw [Bool.eq_iff_iff,RegisterSupply.owns,RegisterSupply.owns,List.contains_iff_mem,List.contains_iff_mem]
  exact List.mem_map_of_injective injective

theorem Lifetime.mentionIn_renames {i j : Instruction} (renames : Renames σ i j) (line : Nat) (life : Lifetime) :
    mentionIn (σ r) line life j = mentionIn r line life i := by
  rw [mentionIn,mentionIn,renames.registers_eq,List.foldl_map]
  simp only [injective.eq_iff]

/-- A register lives on the same lines under its other name. -/
theorem Lifetime.ofCode_renames {code code' : List Instruction} (renames : List.Forall₂ (Renames σ) code code') :
    ofCode code' (σ r) = ofCode code r := by
  have scanned : ∀ life line, scan (σ r) life line code' = scan r life line code := by
    induction renames with
    | nil => exact fun _ _ => rfl
    | cons first _ ih =>
      intro life line
      rw [scan,scan,mentionIn_renames injective first]
      exact ih _ _
  exact scanned {} 0

end

end SparcBackend
