import Mathlib.Data.Fintype.Pi
import Mathlib.Logic.Function.Basic
import SparcBackend.Ir.Tree
import SparcBackend.Machine.Access

/-!
What trees and instructions act on: 32-bit words, registers under their names, a
memory, and procedures elsewhere. A world says what memory and procedures do; nothing
is assumed of it, so what is proved of every world holds of bytes and of words, of
procedures that compute and of procedures that remember what they were asked.

A procedure sees its name, the eight outgoing registers and the memory, and it changes
outgoing registers and memory only. One that looks at its arguments alone is a special
case.
-/
namespace SparcBackend

abbrev Word := BitVec 32

/-- The value of an operator; results wrap around, and shifts look at the last five
    bits of their distance. -/
def BinaryOp.apply : BinaryOp → Word → Word → Word
  | .plus, a, b => a + b
  | .minus, a, b => a - b
  | .mul, a, b => a * b
  | .div, a, b => a.sdiv b
  | .and, a, b => a &&& b
  | .or, a, b => a ||| b
  | .xor, a, b => a ^^^ b
  | .lshift, a, b => a <<< (b.toNat % 32)
  | .rshift, a, b => a >>> (b.toNat % 32)
  | .arshift, a, b => a.sshiftRight (b.toNat % 32)

def RelOp.holds : RelOp → Word → Word → Bool
  | .eq, a, b => a == b
  | .ne, a, b => a != b
  | .lt, a, b => a.slt b
  | .gt, a, b => b.slt a
  | .le, a, b => a.sle b
  | .ge, a, b => b.sle a
  | .ult, a, b => a.ult b
  | .ugt, a, b => b.ult a
  | .ule, a, b => a.ule b
  | .uge, a, b => b.ule a

/-- The contents of the outgoing registers, by number. -/
abbrev Outgoing := Fin Machine.groupSize → Word

def outgoing (k : Fin Machine.groupSize) : Register := Machine.groupRegister 'o' k

def outgoingIndex? (r : Register) : Option (Fin Machine.groupSize) :=
  (List.finRange Machine.groupSize).find? fun k => outgoing k = r

def IsOutgoing (r : Register) : Prop := ∃ k, outgoing k = r

@[simp] theorem outgoingIndex?_outgoing (k : Fin Machine.groupSize) : outgoingIndex? (outgoing k) = some k := by
  revert k
  decide +kernel

theorem outgoing_injective : Function.Injective outgoing := by
  intro j k same
  have found := outgoingIndex?_outgoing j
  rw [same,outgoingIndex?_outgoing] at found
  exact (Option.some.inj found).symm

theorem eq_outgoing_of_index {r : Register} {k : Fin Machine.groupSize} (found : outgoingIndex? r = some k) :
    r = outgoing k := by
  have same := List.find?_some found
  exact (of_decide_eq_true same).symm

theorem outgoingIndex?_eq_none {r : Register} : outgoingIndex? r = none ↔ ¬ IsOutgoing r := by
  constructor
  · rintro missing ⟨k,rfl⟩
    simp at missing
  · intro other
    cases found : outgoingIndex? r with
    | none => rfl
    | some k => exact absurd ⟨k,(eq_outgoing_of_index found).symm⟩ other

theorem isPhysical_outgoing (k : Fin Machine.groupSize) : Machine.isPhysical (outgoing k) = true := by
  revert k
  decide +kernel

theorem isPhysical_of_isOutgoing {r : Register} (out : IsOutgoing r) : Machine.isPhysical r = true := by
  obtain ⟨k,rfl⟩ := out
  exact isPhysical_outgoing k

/-- What memory and the procedures elsewhere do. -/
structure World (Memory : Type) where
  load : Memory → Word → Word
  store : Memory → Word → Word → Memory
  addressOf : Label → Word
  /-- What a procedure leaves in the outgoing registers and in memory. -/
  call : Label → Outgoing → Memory → Outgoing × Memory
  /-- What an instruction of a frame does to the machine's registers and memory; `none`
      where control leaves by it. -/
  special : String → (Register → Word) → Memory → Option ((Register → Word) × Memory)

/-- Memory of independent words, procedures and frames that leave everything as it is. -/
def World.idle : World (Word → Word) where
  load memory address := memory address
  store memory address value := Function.update memory address value
  addressOf _ := 0
  call _ arguments memory := (arguments,memory)
  special _ registers memory := some (registers,memory)

/-- What can be seen of a run from outside. -/
inductive Event where
  | label (name : Label)
  | store (address value : Word)
  | call (procedure : Label) (outgoing : Outgoing)
deriving DecidableEq

/-- Whether an event is a store or a call. -/
def Event.isEffect : Event → Bool
  | .label _ => false
  | _ => true

/-- How control leaves some code. -/
inductive Exit where
  /-- Behind its last line. -/
  | bottom
  /-- By a jump to a label of other code. -/
  | jump (target : Label)
  /-- By an instruction of a frame. -/
  | special (text : String)
  /-- At a line that has no meaning. -/
  | stuck
deriving DecidableEq

/-- Registers and memory at some time, and what has happened before. -/
structure Store (Memory : Type) where
  registers : Register → Word
  memory : Memory
  trace : List Event := []

namespace Store
variable {Memory : Type}

def withOutgoing (values : Outgoing) (registers : Register → Word) (r : Register) : Word :=
  match outgoingIndex? r with
  | some k => values k
  | none => registers r

def set (s : Store Memory) (r : Register) (value : Word) : Store Memory :=
  { s with registers := Function.update s.registers r value }

def pass (s : Store Memory) (name : Label) : Store Memory :=
  { s with trace := s.trace ++ [.label name] }

def write (w : World Memory) (s : Store Memory) (address value : Word) : Store Memory :=
  { s with memory := w.store s.memory address value,trace := s.trace ++ [.store address value] }

/-- Calls a procedure with what the outgoing registers hold. -/
def call (w : World Memory) (s : Store Memory) (procedure : Label) : Store Memory :=
  let arguments : Outgoing := fun k => s.registers (outgoing k)
  let after := w.call procedure arguments s.memory
  { registers := withOutgoing after.1 s.registers
    memory := after.2
    trace := s.trace ++ [.call procedure arguments] }

@[simp] theorem registers_set (s : Store Memory) (r : Register) (value : Word) :
    (s.set r value).registers = Function.update s.registers r value := rfl

@[simp] theorem memory_set (s : Store Memory) (r : Register) (value : Word) :
    (s.set r value).memory = s.memory := rfl

@[simp] theorem trace_set (s : Store Memory) (r : Register) (value : Word) : (s.set r value).trace = s.trace := rfl

@[simp] theorem registers_pass (s : Store Memory) (name : Label) : (s.pass name).registers = s.registers := rfl

@[simp] theorem memory_pass (s : Store Memory) (name : Label) : (s.pass name).memory = s.memory := rfl

@[simp] theorem trace_pass (s : Store Memory) (name : Label) : (s.pass name).trace = s.trace ++ [.label name] := rfl

@[simp] theorem registers_write (w : World Memory) (s : Store Memory) (address value : Word) :
    (s.write w address value).registers = s.registers := rfl

@[simp] theorem memory_write (w : World Memory) (s : Store Memory) (address value : Word) :
    (s.write w address value).memory = w.store s.memory address value := rfl

@[simp] theorem trace_write (w : World Memory) (s : Store Memory) (address value : Word) :
    (s.write w address value).trace = s.trace ++ [.store address value] := rfl

theorem withOutgoing_of_not {values : Outgoing} {registers : Register → Word} {r : Register} (other : ¬ IsOutgoing r) :
    withOutgoing values registers r = registers r := by
  simp [withOutgoing,outgoingIndex?_eq_none.2 other]

@[simp] theorem withOutgoing_outgoing (values : Outgoing) (registers : Register → Word) (k : Fin Machine.groupSize) :
    withOutgoing values registers (outgoing k) = values k := by
  simp [withOutgoing]

/-- A procedure changes no register but the outgoing ones. -/
theorem registers_call_of_not (w : World Memory) (s : Store Memory) (procedure : Label) {r : Register}
    (other : ¬ IsOutgoing r) : (s.call w procedure).registers r = s.registers r :=
  withOutgoing_of_not other

/-- What two stores have in common when they agree on some registers and in all
    else. -/
structure Agree (registers : Register → Prop) (s t : Store Memory) : Prop where
  registers_eq : ∀ r, registers r → s.registers r = t.registers r
  memory_eq : s.memory = t.memory
  trace_eq : s.trace = t.trace

theorem Agree.refl (registers : Register → Prop) (s : Store Memory) : Agree registers s s := ⟨fun _ _ => rfl,rfl,rfl⟩

theorem Agree.mono {registers fewer : Register → Prop} {s t : Store Memory} (agree : Agree registers s t)
    (weaken : ∀ r, fewer r → registers r) : Agree fewer s t :=
  ⟨fun r among => agree.registers_eq r (weaken r among),agree.memory_eq,agree.trace_eq⟩

theorem Agree.set {registers : Register → Prop} {s t : Store Memory} (agree : Agree registers s t) (r : Register)
    (value : Word) : Agree (fun x => registers x ∨ x = r) (s.set r value) (t.set r value) := by
  refine ⟨?_,agree.memory_eq,agree.trace_eq⟩
  intro x among
  by_cases same : x = r
  · subst same; simp
  · simp only [registers_set,Function.update_of_ne same]
    exact agree.registers_eq x (among.resolve_right same)

/-- A value put into a register outside hurts no agreement. -/
theorem Agree.set_outside {registers : Register → Prop} {s t : Store Memory} (agree : Agree registers s t) {r : Register}
    (outside : ¬ registers r) (value : Word) : Agree registers s (t.set r value) := by
  refine ⟨?_,agree.memory_eq,agree.trace_eq⟩
  intro x among
  have other : x ≠ r := by
    rintro rfl
    exact outside among
  rw [registers_set,Function.update_of_ne other]
  exact agree.registers_eq x among

theorem Agree.write {registers : Register → Prop} {s t : Store Memory} (agree : Agree registers s t)
    (w : World Memory) (address value : Word) : Agree registers (s.write w address value) (t.write w address value) :=
  ⟨agree.registers_eq,by simp [agree.memory_eq],by simp [agree.trace_eq]⟩

theorem Agree.pass {registers : Register → Prop} {s t : Store Memory} (agree : Agree registers s t) (name : Label) :
    Agree registers (s.pass name) (t.pass name) :=
  ⟨agree.registers_eq,agree.memory_eq,by simp [agree.trace_eq]⟩

/-- Stores that agree on the outgoing registers come out of a call alike. -/
theorem Agree.call {registers : Register → Prop} {s t : Store Memory} (agree : Agree registers s t)
    (w : World Memory) (procedure : Label) (out : ∀ k, registers (outgoing k)) :
    Agree registers (s.call w procedure) (t.call w procedure) := by
  have same : (fun k => s.registers (outgoing k)) = fun k => t.registers (outgoing k) :=
    funext fun k => agree.registers_eq _ (out k)
  refine ⟨?_,by simp only [Store.call,same,agree.memory_eq],by simp only [Store.call,same,agree.trace_eq]⟩
  intro r among
  simp only [Store.call,same,agree.memory_eq,withOutgoing]
  split
  · rfl
  · exact agree.registers_eq r among

end Store

end SparcBackend
