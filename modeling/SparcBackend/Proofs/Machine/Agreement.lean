import SparcBackend.Proofs.Machine.Execution

/-!
Machines that differ in some registers only. An action that looks at none of them does
the same to both, so the difference grows no larger, and the register it writes is alike
afterwards. Labels passed on the way are not counted: what can be seen of a machine here
are its stores and calls.
-/
namespace SparcBackend
open Machine (Action Address Source State isPhysical)
variable {Memory : Type}

/-- The stores and calls of a run so far. -/
def Store.effects (s : Store Memory) : List Event := s.trace.filter Event.isEffect

namespace Machine

/-- Two machines that agree on some registers and in all else that counts. -/
structure State.Alike (registers : Register → Prop) (m n : State Memory) : Prop where
  registers_eq : ∀ r, registers r → m.registers r = n.registers r
  memory_eq : m.memory = n.memory
  compared_eq : m.compared = n.compared
  effects_eq : m.effects = n.effects

namespace State.Alike
variable {registers fewer : Register → Prop} {m n o : State Memory}

theorem refl (registers : Register → Prop) (m : State Memory) : Alike registers m m :=
  ⟨fun _ _ => rfl,rfl,rfl,rfl⟩

theorem trans (first : Alike registers m n) (second : Alike registers n o) : Alike registers m o :=
  ⟨fun r among => (first.registers_eq r among).trans (second.registers_eq r among),
    first.memory_eq.trans second.memory_eq,first.compared_eq.trans second.compared_eq,
    first.effects_eq.trans second.effects_eq⟩

theorem mono (alike : Alike registers m n) (weaken : ∀ r, fewer r → registers r) : Alike fewer m n :=
  ⟨fun r among => alike.registers_eq r (weaken r among),alike.memory_eq,alike.compared_eq,alike.effects_eq⟩

/-- Machines are alike in an operand when they are in its register. -/
theorem operand_eq (alike : Alike registers m n) (w : World Memory) {operand : Operand}
    (among : ∀ r, operand = .register r → registers r) : operand.eval w m.registers = operand.eval w n.registers := by
  cases operand with
  | register r => exact alike.registers_eq r (among r rfl)
  | immediate => rfl
  | address => rfl

theorem address_eq (alike : Alike registers m n) (w : World Memory) {address : Address}
    (among : ∀ r, .register r ∈ address.operands → registers r) :
    address.eval w m.registers = address.eval w n.registers := by
  cases address with
  | direct base =>
    exact alike.operand_eq w fun r same => among r (by simp [Address.operands,same])
  | offset base sign displacement =>
    have left := alike.operand_eq w fun r (same : base = _) => among r (by simp [Address.operands,same])
    have right := alike.operand_eq w fun r (same : displacement = _) => among r (by simp [Address.operands,same])
    simp only [Address.eval,left,right]

theorem source_eq (alike : Alike registers m n) (w : World Memory) {source : Source}
    (among : ∀ r, .register r ∈ source.operands → registers r) : source.eval w m.toStore = source.eval w n.toStore := by
  cases source with
  | operand value => exact alike.operand_eq w fun r same => among r (by simp [Source.operands,same])
  | binary op a b =>
    have left := alike.operand_eq w fun r (same : a = _) => among r (by simp [Source.operands,same])
    have right := alike.operand_eq w fun r (same : b = _) => among r (by simp [Source.operands,same])
    simp only [Source.eval,left,right]
  | load address => simp only [Source.eval,alike.memory_eq,alike.address_eq w among]

theorem set (alike : Alike registers m n) (d : Register) {value other : Word} (same : value = other) :
    Alike (fun r => registers r ∨ r = d) { m with toStore := m.set d value } { n with toStore := n.set d other } := by
  subst same
  refine ⟨?_,alike.memory_eq,alike.compared_eq,alike.effects_eq⟩
  intro r among
  by_cases here : r = d
  · subst here
    simp
  · simp only [Store.registers_set,Function.update_of_ne here]
    exact alike.registers_eq r (among.resolve_right here)

theorem write (alike : Alike registers m n) (w : World Memory) {address address' value value' : Word}
    (here : address = address') (put : value = value') :
    Alike registers { m with toStore := m.write w address value } { n with toStore := n.write w address' value' } := by
  subst here put
  have seen := alike.effects_eq
  simp only [Store.effects] at seen
  refine ⟨alike.registers_eq,?_,alike.compared_eq,?_⟩
  · simp only [Store.memory_write,alike.memory_eq]
  · simp only [Store.effects,Store.trace_write,List.filter_append,seen]

theorem compare (alike : Alike registers m n) {pair other : Word × Word} (same : pair = other) :
    Alike registers { m with compared := pair } { n with compared := other } :=
  ⟨alike.registers_eq,alike.memory_eq,same,alike.effects_eq⟩

/-- What a machine has in a register that does not count is its own affair. -/
theorem set_left (alike : Alike registers m n) {d : Register} (outside : ¬ registers d) (value : Word) :
    Alike registers { m with toStore := m.set d value } n := by
  refine ⟨?_,alike.memory_eq,alike.compared_eq,alike.effects_eq⟩
  intro r among
  have other : r ≠ d := by
    rintro rfl
    exact outside among
  simp only [Store.registers_set,Function.update_of_ne other]
  exact alike.registers_eq r among

/-- Machines that are alike in the registers of the machine find themselves alike behind
    an instruction of a frame, or leave by it together. -/
theorem special (alike : Alike registers m n) (w : World Memory) (physical : ∀ r, isPhysical r = true → registers r)
    (text : String) : (m.special w text).isSome = (n.special w text).isSome ∧
      Alike registers ((Action.special text).effect w m) ((Action.special text).effect w n) := by
  have same : (fun r => if isPhysical r then m.registers r else 0) = fun r => if isPhysical r then n.registers r else 0 := by
    funext r
    cases known : isPhysical r with
    | true => simpa using alike.registers_eq r (physical r known)
    | false => rfl
  simp only [Action.effect,Store.special,same,alike.memory_eq]
  cases w.special text (fun r => if isPhysical r then n.registers r else 0) n.memory with
  | none => exact ⟨rfl,alike⟩
  | some left =>
    refine ⟨rfl,⟨?_,rfl,alike.compared_eq,alike.effects_eq⟩⟩
    intro r among
    simp only [Option.map_some,Option.getD_some]
    split
    · rfl
    · exact alike.registers_eq r among

/-- Procedures that are called alike return alike. -/
theorem call (alike : Alike registers m n) (w : World Memory) (physical : ∀ r, isPhysical r = true → registers r)
    (target : Label) : Alike registers ((Action.call target).effect w m) ((Action.call target).effect w n) := by
  have same : (fun k => m.registers (outgoing k)) = fun k => n.registers (outgoing k) :=
    funext fun k => alike.registers_eq _ (physical _ (isPhysical_outgoing k))
  have seen := alike.effects_eq
  refine ⟨?_,by simp only [Action.effect,Store.call,same,alike.memory_eq],alike.compared_eq,?_⟩
  · intro r among
    simp only [Action.effect,Store.call,same,alike.memory_eq,Store.withOutgoing]
    split
    · rfl
    · exact alike.registers_eq r among
  · simp only [Store.effects] at seen ⊢
    simp only [Action.effect,Store.call,same,List.filter_append,seen]

/-- An action does the same to machines that are alike in what it looks at. -/
theorem effect (alike : Alike registers m n) (w : World Memory) {a : Action}
    (physical : ∀ r, isPhysical r = true → registers r) (among : ∀ r, .register r ∈ a.operands → registers r) :
    Alike (fun r => registers r ∨ a.destination? = some r) (a.effect w m) (a.effect w n) := by
  cases a with
  | assign d source =>
    refine (alike.set d (alike.source_eq w among)).mono ?_
    rintro r (known | written)
    · exact .inl known
    · exact .inr (Option.some.inj written).symm
  | store address value =>
    have put := alike.operand_eq w fun r (same : value = _) => among r (by simp [Action.operands,same])
    have here := alike.address_eq w fun r member => among r (List.mem_cons_of_mem _ member)
    exact (alike.write w here put).mono fun r => by simp [Action.destination?]
  | compare a b =>
    have left := alike.operand_eq w fun r (same : a = _) => among r (by simp [Action.operands,same])
    have right := alike.operand_eq w fun r (same : b = _) => among r (by simp [Action.operands,same])
    exact (alike.compare (Prod.ext left right)).mono fun r => by simp [Action.destination?]
  | call target => exact (alike.call w physical target).mono fun r => by simp [Action.destination?]
  | label name =>
    have seen := alike.effects_eq
    simp only [Store.effects] at seen
    refine ⟨?_,alike.memory_eq,alike.compared_eq,?_⟩
    · rintro r (known | written)
      · exact alike.registers_eq r known
      · cases written
    · simp only [Store.effects,Action.effect,Store.trace_pass,List.filter_append,seen]
  | special text => exact (alike.special w physical text).2.mono fun r => by simp [Action.destination?]
  | branch | jump | skip => exact alike.mono fun r => by simp [Action.destination?]

/-- An action sends control the same way. -/
theorem next_eq (alike : Alike registers m n) (w : World Memory) (physical : ∀ r, isPhysical r = true → registers r)
    (a : Action) : a.next w m = a.next w n := by
  cases a with
  | branch op target => simp only [Action.next,alike.compared_eq]
  | special text => simp only [Action.next,(alike.special w physical text).1]
  | assign | store | compare | jump | call | label | skip => rfl

end State.Alike

end Machine

end SparcBackend
