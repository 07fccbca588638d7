import SparcBackend.Proofs.Machine.Agreement
import SparcBackend.Proofs.Peephole.Rewrite

/-!
A rewrite does to a machine what the lines did that it replaces, except that the register
it drops keeps its old contents. That register is the only one in which the machines may
differ behind the lines, and they do not differ in it where the reader writes it. One
reader is excluded: a store that finds the register both in its value and in its address
has only one of the two replaced.
-/
namespace SparcBackend.Peephole
open Machine (Action Address OffsetSign Source State block isPhysical)
variable {Memory : Type} {ends : EndsAfter} {tail before after : List Instruction}

/-- The reader is a store that has the dropped register as its value and in its address. -/
def Loss.Strands (l : Loss) : Prop := l.reader.kind = .store ∧ l.reader.reads l.register = true ∧ l.reader.defines l.register = true

theorem Loss.strands_iff {l : Loss} {a : Action} (means : l.reader.action? = some a) :
    l.Strands ↔ ∃ address, a = .store address (.register l.register) ∧ .register l.register ∈ address.operands := by
  unfold Strands
  rw [Instruction.kind_eq_store_iff means,Instruction.reads_iff,Instruction.defines_iff]
  cases Instruction.hasAction means with
  | store kind defs uses => simp [defs,uses,Address.operands,eq_comm]
  | offsetStore kind defs uses => simp [defs,uses,Address.operands,eq_comm]
  | _ => simp

theorem Neutral.eval {op : BinaryOp} {left right value : Operand} (neutral : Neutral op left right value) (w : World Memory)
    (registers : Register → Word) : op.apply (left.eval w registers) (right.eval w registers) = value.eval w registers := by
  cases neutral <;> simp [BinaryOp.apply,Operand.eval]

/-- Instructions that do nothing leave a machine as it is. -/
theorem block_idle (w : World Memory) {nops : List Instruction} (idle : ∀ i ∈ nops, i.action? = some .skip) (m : State Memory) :
    block w nops m = some m := by
  induction nops with
  | nil => rfl
  | cons i rest ih =>
    rw [Machine.block_cons w (idle i List.mem_cons_self) rfl]
    exact ih fun i member => idle i (List.mem_cons_of_mem _ member)

/-- An instruction that reads a register is no label and leads to the next line, whatever
    it reads instead. -/
theorem straight_of_reads {i : Instruction} {a : Action} {d : Register} (means : i.action? = some a) (reads : i.reads d = true)
    (f : Operand → Operand) : (a.mapUses f).isStraight = true ∧ ∀ name, a.mapUses f ≠ .label name := by
  have looks := (Instruction.consumes_iff means d).1 (by simp [Instruction.consumes,reads])
  cases a with
  | assign | store | compare => exact ⟨rfl,fun _ => Machine.Action.noConfusion⟩
  | branch | jump | call | label | skip | special => cases looks

theorem mapUses_id (a : Action) : a.mapUses id = a := by
  cases a with
  | assign d source =>
    cases source with
    | load address => cases address <;> rfl
    | operand | binary => rfl
  | store | compare | branch | jump | call | label | skip | special => rfl

section
variable {w : World Memory} {m n : State Memory} {d : Register}

/-- A machine that has taken a value into the register that is dropped. -/
theorem dropped {source : Source} {needed : Prop} (alike : State.Alike (fun r => r ≠ d ∨ needed) m n)
    (among : ∀ r, .register r ∈ (Action.assign d source).operands → r ≠ d ∨ needed) :
    ((Action.assign d source).effect w m).registers d = source.eval w n.toStore ∧
      State.Alike (· ≠ d) ((Action.assign d source).effect w m) n := by
  constructor
  · rw [← alike.source_eq w among]
    exact Function.update_self _ _ _
  · exact (alike.mono fun _ => .inl).set_left (by simp) _

/-- An operand in which a register is replaced by one that holds the same. -/
theorem eval_replaced {result : Register} (alike : State.Alike (· ≠ d) m n) (other : result ≠ d)
    (holds : m.registers d = m.registers result) (operand : Operand) :
    operand.eval w m.registers = (if operand.isRegister d then .register result else operand : Operand).eval w n.registers := by
  cases operand with
  | register r =>
    by_cases same : r = d
    · subst same
      simp only [Operand.isRegister,decide_true,if_true,Operand.eval,holds]
      exact alike.registers_eq result other
    · simp only [Operand.isRegister,Operand.register.injEq,same,decide_false,Operand.eval]
      exact alike.registers_eq r same
  | immediate => rfl
  | address => rfl

/-- An action that reads a register does the same once it reads another that holds the
    same, unless a store has the register in its address. -/
theorem effect_replaced {result : Register} {a : Action} {i : Instruction} (alike : State.Alike (· ≠ d) m n) (other : result ≠ d)
    (holds : m.registers d = m.registers result) (means : i.action? = some a) (reads : i.reads d = true)
    (spared : ¬ (i.kind = .store ∧ i.reads d = true ∧ i.defines d = true)) :
    State.Alike (fun r => r ≠ d ∨ a.destination? = some r) (a.effect w m)
      ((a.mapUses fun operand => if operand.isRegister d then .register result else operand).effect w n) := by
  have replaced := eval_replaced (w := w) alike other holds
  have looks := (Instruction.consumes_iff means d).1 (by simp [Instruction.consumes,reads])
  cases a with
  | assign x source =>
    have same : source.eval w m.toStore =
        (source.mapOperands fun operand => if operand.isRegister d then .register result else operand).eval w n.toStore := by
      cases source with
      | operand value => exact replaced value
      | binary op left right => simp only [Source.mapOperands,Source.eval,← replaced left,← replaced right]
      | load address =>
        cases address with
        | direct base => simp only [Source.mapOperands,Address.mapOperands,Source.eval,Address.eval,← replaced base,alike.memory_eq]
        | offset base sign displacement =>
          simp only [Source.mapOperands,Address.mapOperands,Source.eval,Address.eval,← replaced base,← replaced displacement,
            alike.memory_eq]
    exact (alike.set x same).mono fun r => by simp [Action.destination?,eq_comm]
  | store address value =>
    have apart : ∀ r, .register r ∈ address.operands → r ≠ d := by
      rintro r member rfl
      refine spared ⟨?_,reads,?_⟩
      · cases Instruction.hasAction means with
        | store kind | offsetStore kind => exact kind
      · refine Instruction.defines_iff.2 ?_
        cases Instruction.hasAction means with
        | store _ defs => simpa [defs,Address.operands] using member
        | offsetStore _ defs => simpa [defs,Address.operands] using member
    exact (alike.write w (alike.address_eq w apart) (replaced value)).mono fun r => by simp [Action.destination?]
  | compare left right =>
    exact (alike.compare (Prod.ext (replaced left) (replaced right))).mono fun r => by simp [Action.destination?]
  | branch | jump | call | label | skip | special => cases looks

/-- An action into which a number is put does the same as the action that finds it in a
    register. -/
theorem effect_placed {value : Int} {a b : Action} (alike : State.Alike (· ≠ d) m n)
    (holds : m.registers d = BitVec.ofInt 32 value) (placed : Placed d value a b) :
    State.Alike (fun r => r ≠ d ∨ a.destination? = some r) (a.effect w m) (b.effect w n) := by
  have operand_eq {operand : Operand} (other : operand ≠ .register d) : operand.eval w m.registers = operand.eval w n.registers := by
    refine alike.operand_eq w ?_
    rintro r rfl rfl
    exact other rfl
  cases placed with
  | @right x op left other =>
    have same : op.apply (left.eval w m.registers) (m.registers d) = op.apply (left.eval w n.registers) (BitVec.ofInt 32 value) := by
      rw [operand_eq other,holds]
    exact (alike.set x same).mono fun r => by simp [Action.destination?,eq_comm]
  | @left x right other =>
    have same : BinaryOp.plus.apply (m.registers d) (right.eval w m.registers) =
        BinaryOp.plus.apply (right.eval w n.registers) (BitVec.ofInt 32 value) := by
      rw [operand_eq other,holds]
      exact BitVec.add_comm _ _
    exact (alike.set x same).mono fun r => by simp [Action.destination?,eq_comm]
  | @compared left other =>
    exact (alike.compare (Prod.ext (operand_eq other) holds)).mono fun r => by simp [Action.destination?]

/-- A result is copied and looked at in the copy, or it is looked at where it is. -/
theorem exchange_copied {result : Register} {copied reader new : Instruction} {a : Action} (alike : State.Alike (· ≠ d) m n)
    (other : result ≠ d) (copies : copied.action? = some (.assign d (.operand (.register result)))) (means : reader.action? = some a)
    (reads : reader.reads d = true)
    (forwarded : new.action? = some (a.mapUses fun operand => if operand.isRegister d then .register result else operand))
    (spared : ¬ (reader.kind = .store ∧ reader.reads d = true ∧ reader.defines d = true)) :
    ∃ m' n', block w [copied,reader] m = some m' ∧ block w [new] n = some n' ∧
      State.Alike (fun r => r ≠ d ∨ a.destination? = some r) m' n' := by
  have looks : ∀ r, .register r ∈ (Action.assign d (.operand (.register result))).operands → r ≠ d ∨ False := by
    simp [Action.operands,Source.operands,other]
  obtain ⟨holds,rest⟩ := dropped (w := w) (alike.mono fun r => by simp) looks
  have held := holds.trans (rest.registers_eq result other).symm
  have straight : a.isStraight = true := mapUses_id a ▸ (straight_of_reads means reads id).1
  have ran := Machine.block_pair w copies rfl means straight m
  have ran' := Machine.block_single w forwarded (straight_of_reads means reads _).1 n
  exact ⟨_,_,ran,ran',effect_replaced rest other held means reads spared⟩

end

/-- Lines and what comes in their place do the same, up to the register that is dropped.
    The machines may differ in it before, unless the first line looks at it, and behind,
    unless the reader writes it. More than two lines begin with a call, which looks at the
    registers of the machine. -/
theorem Rewrite.exchange {l : Loss} (rewrite : Rewrite ends tail before after (some l)) (w : World Memory)
    (virtual : 2 < before.length → isPhysical l.register = false) (spared : ¬ l.Strands) {needed kept : Prop}
    (first : ∀ i, before.head? = some i → i.consumes l.register = true → needed) (last : kept → l.reader.writes l.register = true)
    {m n : State Memory} (alike : State.Alike (fun r => r ≠ l.register ∨ needed) m n) :
    ∃ m' n', block w before m = some m' ∧ block w after n = some n' ∧ State.Alike (fun r => r ≠ l.register ∨ kept) m' n' := by
  have apart : State.Alike (· ≠ l.register) m n := alike.mono fun _ => .inl
  have outside {m' n' : State Memory} {a : Action} (means : l.reader.action? = some a)
      (same : State.Alike (fun r => r ≠ l.register ∨ a.destination? = some r) m' n') :
      State.Alike (fun r => r ≠ l.register ∨ kept) m' n' := by
    refine same.mono ?_
    rintro r (other | keeps)
    · exact .inl other
    · by_cases here : r = l.register
      · subst here
        exact .inr ((Instruction.writes_iff means _).1 (last keeps))
      · exact .inl here
  have among {i : Instruction} {a : Action} (is : before.head? = some i) (means : i.action? = some a) :
      ∀ r, .register r ∈ a.operands → r ≠ l.register ∨ needed := by
    intro r member
    by_cases here : r = l.register
    · subst here
      exact .inr (first i is ((Instruction.consumes_iff means _).2 member))
    · exact .inl here
  cases rewrite with
  | @load head next new d x base offset sign computes loads folded gone =>
    obtain ⟨holds,rest⟩ := dropped (w := w) alike (among rfl computes)
    have ran := Machine.block_pair w computes rfl loads rfl m
    have ran' := Machine.block_single w folded rfl n
    refine ⟨_,_,ran,ran',outside loads ((rest.set x ?_).mono fun r => by simp [Action.destination?,eq_comm])⟩
    simp only [Source.eval,Address.eval,Operand.eval,holds,rest.memory_eq]
  | @store head next new d base offset value sign computes stores folded gone =>
    obtain ⟨holds,rest⟩ := dropped (w := w) alike (among rfl computes)
    have ran := Machine.block_pair w computes rfl stores rfl m
    have ran' := Machine.block_single w folded rfl n
    have other : value ≠ .register d := by
      rintro rfl
      exact spared ((Loss.strands_iff stores).2 ⟨_,rfl,by simp [Address.operands]⟩)
    have put : value.eval w _ = value.eval w n.registers := rest.operand_eq w (by rintro r rfl rfl; exact other rfl)
    refine ⟨_,_,ran,ran',outside stores ((rest.write w ?_ put).mono fun r => by simp [Action.destination?])⟩
    simp only [Source.eval,Address.eval,Operand.eval,holds]
  | @forward head copied reader new nops d target a calls idle copies means reads forwarded gone =>
    have virtual : isPhysical d = false := virtual (by simp)
    have physical : ∀ r, isPhysical r = true → r ≠ d := by
      rintro r known rfl
      exact absurd (virtual.symm.trans known) (by decide)
    have ran (more : List Instruction) (m : State Memory) :
        block w (head :: nops ++ more) m = block w more ((Action.call target).effect w m) := by
      rw [List.cons_append,Machine.block_cons w calls rfl,Machine.block_append,block_idle w idle,Option.bind_some]
    obtain ⟨m',n',done,done',same⟩ :=
      exchange_copied (w := w) (apart.call w physical target) (physical _ rfl) copies means reads forwarded spared
    exact ⟨m',n',(ran _ m).trans done,(ran _ n).trans done',outside means same⟩
  | @immediate head next new d value a b loads means folded placed gone =>
    obtain ⟨holds,rest⟩ := dropped (w := w) alike (among rfl loads)
    have straight : a.isStraight = true ∧ b.isStraight = true := by
      cases placed <;> exact ⟨rfl,rfl⟩
    have ran := Machine.block_pair w loads rfl means straight.1 m
    have ran' := Machine.block_single w folded straight.2 n
    exact ⟨_,_,ran,ran',outside means (effect_placed rest holds placed)⟩
  | @merge head next new d x source computes copies merged gone =>
    obtain ⟨holds,rest⟩ := dropped (w := w) alike (among rfl computes)
    have ran := Machine.block_pair w computes rfl copies rfl m
    have ran' := Machine.block_single w merged rfl n
    exact ⟨_,_,ran,ran',outside copies ((rest.set x holds).mono fun r => by simp [Action.destination?,eq_comm])⟩

/-- Lines that drop nothing and do not jump do exactly what comes in their place does. -/
theorem Rewrite.exchange_none (rewrite : Rewrite ends tail before after none) (w : World Memory) {m n : State Memory}
    (alike : State.Alike (fun _ => True) m n) :
    (∃ head nops target, before = head :: nops ∧ after = [] ∧ head.action? = some (.jump target) ∧ target ∈ leadingLabels tail) ∨
      ∃ m' n', block w before m = some m' ∧ block w after n = some n' ∧ State.Alike (fun _ => True) m' n' := by
  cases rewrite with
  | @neutral head new d op left right value computes isNeutral copies =>
    right
    have ran := Machine.block_single w computes rfl m
    have ran' := Machine.block_single w copies rfl n
    refine ⟨_,_,ran,ran',(alike.set d ?_).mono fun _ _ => .inl trivial⟩
    rw [← alike.source_eq w (fun _ _ => trivial)]
    exact isNeutral.eval w m.registers
  | @jump head nops target jumps idle follows => exact .inl ⟨head,nops,target,rfl,rfl,jumps,follows⟩
  | @selfMove head x copies =>
    right
    have ran := Machine.block_single w copies rfl m
    refine ⟨_,n,ran,rfl,?_,alike.memory_eq,alike.compared_eq,alike.effects_eq⟩
    intro r _
    have same : ((Action.assign x (.operand (.register x))).effect w m).registers = m.registers := Function.update_eq_self _ _
    rw [same]
    exact alike.registers_eq r trivial

end SparcBackend.Peephole
