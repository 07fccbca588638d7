import SparcBackend.Proofs.Machine.Action
import SparcBackend.Proofs.Transition
import SparcBackend.Proofs.World

/-!
How a machine runs code. Lines are executed one after the other; a branch tests the
last comparison, and a jump goes to the first line with its label. What stands in a
delay slot is executed where it stands, which is the same thing for a filler that does
nothing.

A stretch of lines without jumps is executed as one (`block`), wherever it stands in
some code (`steps_block`).
-/
namespace SparcBackend.Machine
variable {Memory : Type}

/-- Registers and memory together with the words that were compared last. -/
structure State (Memory : Type) extends Store Memory where
  compared : Word × Word

inductive Position where
  | inside (line : Nat)
  | outside (exit : Exit)
deriving DecidableEq

structure Configuration (Memory : Type) where
  position : Position
  state : State Memory

/-- Where an action sends control. -/
inductive Next where
  | onward
  | goto (target : Label)
  | leave (exit : Exit)

end Machine

open Machine (Action Address Configuration Next OffsetSign Position Source State isPhysical)

variable {Memory : Type}

/-- The value of an operand; a number is cut to a word. -/
def Operand.eval (w : World Memory) (registers : Register → Word) : Operand → Word
  | .register r => registers r
  | .immediate value => BitVec.ofInt 32 value
  | .address label => w.addressOf label

namespace Machine

def Address.eval (w : World Memory) (registers : Register → Word) : Address → Word
  | .direct base => base.eval w registers
  | .offset base sign displacement =>
    sign.operator.apply (base.eval w registers) (displacement.eval w registers)

def Source.eval (w : World Memory) (s : Store Memory) : Source → Word
  | .operand value => value.eval w s.registers
  | .binary op left right => op.apply (left.eval w s.registers) (right.eval w s.registers)
  | .load address => w.load s.memory (address.eval w s.registers)

end Machine

/-- What an instruction of a frame leaves of the machine's registers and of memory. -/
def Store.special (w : World Memory) (s : Store Memory) (text : String) : Option (Store Memory) :=
  (w.special text (fun r => if isPhysical r then s.registers r else 0) s.memory).map fun (after,memory) =>
    { s with registers := fun r => if isPhysical r then after r else s.registers r,memory }

namespace Machine

def Action.effect (w : World Memory) (m : State Memory) : Action → State Memory
  | .assign d source => { m with toStore := m.set d (source.eval w m.toStore) }
  | .store address value =>
    { m with toStore := m.write w (address.eval w m.registers) (value.eval w m.registers) }
  | .compare left right => { m with compared := (left.eval w m.registers,right.eval w m.registers) }
  | .call target => { m with toStore := m.call w target }
  | .label name => { m with toStore := m.pass name }
  | .special text => { m with toStore := (m.special w text).getD m.toStore }
  | .branch .. | .jump _ | .skip => m

def Action.next (w : World Memory) (m : State Memory) : Action → Next
  | .branch op target => if op.holds m.compared.1 m.compared.2 then .goto target else .onward
  | .jump target => .goto target
  | .special text => if (m.special w text).isSome then .onward else .leave (.special text)
  | _ => .onward

/-- The first line with a label. -/
def labelLine? (code : List Instruction) (name : Label) : Option Nat :=
  code.findIdx? fun i => i.label? = some name

def Next.position (code : List Instruction) (line : Nat) : Next → Position
  | .onward => .inside (line+1)
  | .goto target => (labelLine? code target).elim (.outside (.jump target)) .inside
  | .leave exit => .outside exit

/-- One step: an action, or leaving at the bottom or at a line without meaning. -/
def step (w : World Memory) (code : List Instruction) (c : Configuration Memory) : Option (Configuration Memory) :=
  match c.position with
  | .outside _ => none
  | .inside line =>
    match code[line]? with
    | none => some { c with position := .outside .bottom }
    | some i =>
      match i.action? with
      | none => some { c with position := .outside .stuck }
      | some a => some ⟨(a.next w c.state).position code line,a.effect w c.state⟩

/-- What has happened grows with every action. -/
theorem trace_effect (w : World Memory) (m : State Memory) (a : Action) : m.trace <+: (a.effect w m).trace := by
  cases a with
  | assign | compare | branch | jump | skip => exact List.prefix_rfl
  | store => exact List.prefix_append _ _
  | call => exact List.prefix_append _ _
  | label => exact List.prefix_append _ _
  | special text =>
    simp only [Action.effect,Store.special]
    cases w.special text (fun r => if isPhysical r then m.registers r else 0) m.memory <;> exact List.prefix_rfl

theorem trace_step {w : World Memory} {code : List Instruction} {c next : Configuration Memory}
    (steps : step w code c = some next) : c.state.trace <+: next.state.trace := by
  unfold step at steps
  split at steps
  · cases steps
  · split at steps
    · cases steps; exact List.prefix_rfl
    · split at steps
      · cases steps; exact List.prefix_rfl
      · cases steps; exact trace_effect w c.state _

/-- Code at work in a world, with all events seen. -/
def system (w : World Memory) (code : List Instruction) : System (Configuration Memory) Event where
  step := step w code
  trace c := c.state.trace
  grows := trace_step

/-- Code at work in a world, with stores and calls seen. -/
def effects (w : World Memory) (code : List Instruction) : System (Configuration Memory) Event where
  step := step w code
  trace c := c.state.trace.filter Event.isEffect
  grows steps := (trace_step steps).filter _

theorem step_bottom (w : World Memory) {code : List Instruction} {line : Nat} (m : State Memory)
    (beyond : code[line]? = none) : step w code ⟨.inside line,m⟩ = some ⟨.outside .bottom,m⟩ := by
  simp [step,beyond]

theorem step_action (w : World Memory) {code : List Instruction} {line : Nat} {i : Instruction} {a : Action}
    (m : State Memory) (here : code[line]? = some i) (means : i.action? = some a) :
    step w code ⟨.inside line,m⟩ = some ⟨(a.next w m).position code line,a.effect w m⟩ := by
  simp [step,here,means]

/-- One step from a line known by what stands before it. -/
theorem step_here (w : World Memory) {code before after : List Instruction} {i : Instruction} {a : Action}
    (whole : code = before ++ i :: after) (means : i.action? = some a) (m : State Memory) :
    step w code ⟨.inside before.length,m⟩ = some ⟨(a.next w m).position code before.length,a.effect w m⟩ :=
  step_action w m (by simp [whole]) means

/-! ### Lines without jumps -/

/-- What a stretch of lines does; `none` if one of them may send control elsewhere. -/
def block (w : World Memory) : List Instruction → State Memory → Option (State Memory)
  | [], m => some m
  | i :: rest, m =>
    match i.action? with
    | some a => if a.isStraight then block w rest (a.effect w m) else none
    | none => none

theorem block_nil (w : World Memory) (m : State Memory) : block w [] m = some m := rfl

theorem block_cons (w : World Memory) {i : Instruction} {a : Action} (means : i.action? = some a)
    (straight : a.isStraight = true) (rest : List Instruction) (m : State Memory) :
    block w (i :: rest) m = block w rest (a.effect w m) := by
  simp [block,means,straight]

theorem block_single (w : World Memory) {i : Instruction} {a : Action} (means : i.action? = some a)
    (straight : a.isStraight = true) (m : State Memory) : block w [i] m = some (a.effect w m) := by
  rw [block_cons w means straight,block_nil]

theorem block_pair (w : World Memory) {i j : Instruction} {a b : Action} (means : i.action? = some a)
    (straight : a.isStraight = true) (means' : j.action? = some b) (straight' : b.isStraight = true) (m : State Memory) :
    block w [i,j] m = some (b.effect w (a.effect w m)) := by
  rw [block_cons w means straight,block_single w means' straight']

theorem block_append (w : World Memory) (xs ys : List Instruction) (m : State Memory) :
    block w (xs ++ ys) m = (block w xs m).bind (block w ys) := by
  induction xs generalizing m with
  | nil => rfl
  | cons i rest ih =>
    simp only [List.cons_append,block]
    split
    · split
      · exact ih _
      · rfl
    · rfl

theorem next_of_isStraight (w : World Memory) (m : State Memory) {a : Action} (straight : a.isStraight = true) :
    a.next w m = .onward := by
  cases a <;> first | rfl | cases straight

/-- A stretch of lines does in the middle of some code what it does alone. -/
theorem steps_block (w : World Memory) {code : List Instruction} (before xs after : List Instruction)
    (whole : code = before ++ xs ++ after) {m last : State Memory} (done : block w xs m = some last) :
    (system w code).steps xs.length ⟨.inside before.length,m⟩
      = some ⟨.inside (before.length+xs.length),last⟩ := by
  induction xs generalizing before m with
  | nil => cases done; rfl
  | cons i rest ih =>
    have here : code[before.length]? = some i := by simp [whole]
    simp only [block] at done
    split at done
    · rename_i a means
      split at done
      · rename_i straight
        have one := step_action w m here means
        rw [next_of_isStraight w m straight] at one
        have whole' : code = (before ++ [i]) ++ rest ++ after := by simp [whole]
        have more := ih (before ++ [i]) whole' done
        rw [List.length_cons,System.steps_succ]
        simp only [system,one,Next.position,Option.bind_some]
        simp only [List.length_append,List.length_singleton] at more
        rw [show before.length+(rest.length+1) = before.length+1+rest.length by omega]
        exact more
      · cases done
    · cases done

/-- The steps are the same whichever events are seen. -/
theorem steps_effects (w : World Memory) (code : List Instruction) (n : Nat) (c : Configuration Memory) :
    (effects w code).steps n c = (system w code).steps n c := by
  induction n generalizing c with
  | zero => rfl
  | succ n ih =>
    rw [System.steps_succ,System.steps_succ]
    congr 1
    funext next
    exact ih next

end Machine

end SparcBackend
