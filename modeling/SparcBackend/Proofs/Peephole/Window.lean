import SparcBackend.Proofs.Lifetime
import SparcBackend.Proofs.Machine.Linearity
import SparcBackend.Proofs.Peephole.Behaviour

/-!
What a change does to the lines that it replaces, run by themselves from any state in any
world. A register that a rule drops is not mentioned behind the lines, so it may hold
what it likes there, and the rules that compute a value in another way leave everything
else as it was.

Two rules put something in place of a register in the line below and look for it among
the values of that line or in its address, but not in both. A store has both. One that
finds the register in the other place, too, goes on reading it, and nobody writes it any
more. These are the only lines that do something else afterwards.
-/
namespace SparcBackend.Peephole
open Machine (Action OffsetSign State block callResultRegister)
variable {supply : RegisterSupply} {code : List Instruction} {line : Nat}

/-- The lifetimes in some code, as a sweep asks for them at one of its lines. -/
def endsFrom (supply : RegisterSupply) (code : List Instruction) (line : Nat) : EndsAfter :=
  fun lines r => endsOn supply code (line + lines) r

/-- Lines that do the same, in every world and from every state: they run to their end, and
    memory, what was compared and the registers that are kept are left the same. -/
def Exchanges (kept : Register → Prop) (before after : List Instruction) : Prop :=
  ∀ (Memory : Type) (w : World Memory) (m : State Memory),
    ∃ m' n', block w before m = some m' ∧ block w after m = some n' ∧ State.Alike kept m' n'

/-- Lines that leave different values in a cell do not do the same. -/
theorem not_exchanges_of_cell {kept : Register → Prop} {before after : List Instruction} (m : State (Word → Word)) (cell : Word)
    (differ : (block World.idle before m).map (fun m => m.memory cell) ≠ (block World.idle after m).map fun m => m.memory cell) :
    ¬ Exchanges kept before after := by
  intro same
  obtain ⟨m',n',ran,ran',alike⟩ := same _ World.idle m
  rw [ran,ran',Option.map_some,Option.map_some,alike.memory_eq] at differ
  exact differ rfl

/-! ### Rewrites -/

section
variable {ends : EndsAfter} {tail before after : List Instruction} {l : Loss}

/-- What a rewrite drops is not mentioned behind it. -/
theorem Rewrite.absent_behind (rewrite : Rewrite (endsFrom supply code line) tail before after (some l))
    (here : code.drop line = before ++ tail) : ∀ i ∈ tail, l.register ∉ i.registers := by
  intro i member mentioned
  obtain ⟨k,inside⟩ := List.mem_iff_getElem?.1 member
  have there : code[line+(before.length+k)]? = some i := by
    rw [← List.getElem?_drop,here,List.getElem?_append_right (Nat.le_add_right _ _),Nat.add_sub_cancel_left,inside]
  have stops := (Bool.and_eq_true _ _ ▸ rewrite.gone).2
  have within := Lifetime.le_of_endsAt stops there mentioned
  have length := rewrite.before_length
  omega

theorem Rewrite.exchanges (rewrite : Rewrite ends tail before after (some l)) (short : before.length ≤ 2) (spared : ¬ l.Strands) :
    Exchanges (· ≠ l.register) before after := by
  intro Memory w m
  have apart : 2 < before.length → Machine.isPhysical l.register = false := fun long => absurd short (Nat.not_le.2 long)
  have alike : State.Alike (fun r => r ≠ l.register ∨ True) m m := .refl _ m
  obtain ⟨m',n',ran,ran',same⟩ := rewrite.exchange w apart spared (fun _ _ _ => trivial) False.elim alike
  exact ⟨m',n',ran,ran',same.mono fun _ => .inl⟩

/-- A rewrite that drops nothing and removes no jump is about one line. -/
theorem Rewrite.exchanges_none (rewrite : Rewrite ends tail before after none)
    (stays : ∀ target, before.head?.bind Instruction.action? ≠ some (.jump target)) :
    before.length = 1 ∧ Exchanges (fun _ => True) before after := by
  have single : before.length = 1 := by
    cases rewrite with
    | neutral | selfMove => rfl
    | jump jumps => exact absurd jumps (stays _)
  refine ⟨single,?_⟩
  intro Memory w m
  rcases rewrite.exchange_none w (.refl _ m) with ⟨_,_,target,rfl,-,jumps,-⟩ | same
  · exact absurd jumps (stays target)
  · exact same

end

/-- Lines of code that has a meaning have a meaning. -/
theorem meaningful_of_drop {rest : List Instruction} (meaningful : Meaningful code) (here : code.drop line = rest) :
    Meaningful rest := by
  subst here
  exact fun i member => meaningful i (List.mem_of_mem_drop member)

variable {head : Instruction} {rest : List Instruction} {c : Change}

/-! ### Addresses -/

/-- An address moves into the next load or store, and does there what it did before, and
    the register that held it is looked at where the sum looked at it and nowhere else,
    unless the register is also what the store stores. -/
theorem foldAddress_exchanges {sign : OffsetSign} (meaningful : Meaningful code) (here : code.drop line = head :: rest)
    (kind : head.kind = (Machine.Operation.arithmetic sign.operator).kind)
    (fires : foldAddress? (endsFrom supply code line) sign head rest = some c) :
    ∃ d next new behind, rest = next :: behind ∧ c.code = new :: behind ∧ head.defs = [.register d] ∧
      (next.kind = .load ∨ next.kind = .store) ∧ new.kind = next.kind ∧ (∀ i ∈ behind, d ∉ i.registers) ∧
      (Exchanges (· ≠ d) [head,next] [new] ∧ new.consumeCount d = head.consumeCount d ↔
        ¬ (next.kind = .store ∧ next.reads d = true)) := by
  have decodes := meaningful_of_drop meaningful here
  obtain ⟨a,means⟩ := Option.ne_none_iff_exists'.1 (decodes head List.mem_cons_self)
  obtain ⟨d,base,offset,next,new,behind,rfl,computes,joins,uses⟩ :=
    joins_of_foldAddress sign (fun i member => decodes i (List.mem_cons_of_mem _ member)) means kind fires
  have absent := joins.rewrite.absent_behind here
  have defs : head.defs = [.register d] := Instruction.defs_eq computes
  have looked : head.consumeCount d = [base,offset].count (.register d) := Instruction.consumeCount_eq computes d
  refine ⟨d,next,new,behind,rfl,joins.code_eq,defs,?_⟩
  rcases uses with ⟨x,loads,folded⟩ | ⟨value,stores,folded⟩
  · have load : next.kind = .load := by cases Instruction.hasAction loads; assumption
    have load' : new.kind = .load := by cases Instruction.hasAction folded; assumption
    have spared : ¬ (next.kind = .store ∧ next.reads d = true) := by simp [load]
    have same := joins.rewrite.exchanges (Nat.le_refl 2) (by simp [Loss.Strands,load])
    have count : new.consumeCount d = head.consumeCount d := (Instruction.consumeCount_eq folded d).trans looked.symm
    exact ⟨.inl load,load'.trans load.symm,absent,fun _ => spared,fun _ => ⟨same,count⟩⟩
  · have store : next.kind = .store := (Instruction.kind_eq_store_iff stores).2 ⟨_,_,rfl⟩
    have store' : new.kind = .store := (Instruction.kind_eq_store_iff folded).2 ⟨_,_,rfl⟩
    have read : next.reads d = true ↔ value = .register d := by
      rw [Instruction.reads_iff,Instruction.uses_eq stores]
      simp [Action.values,eq_comm]
    have count : new.consumeCount d = head.consumeCount d + if value = .register d then 1 else 0 := by
      rw [looked,Instruction.consumeCount_eq folded]
      simp [Action.operands,Machine.Address.operands,List.count_cons]
    refine ⟨.inr store,store'.trans store.symm,absent,?_⟩
    rw [read,count]
    constructor
    · rintro ⟨-,once⟩ ⟨-,rfl⟩
      simp at once
    · intro spared
      have other : value ≠ .register d := fun same => spared ⟨store,same⟩
      refine ⟨joins.rewrite.exchanges (Nat.le_refl 2) ?_,by simp [other]⟩
      rintro ⟨-,reads,-⟩
      exact other (read.1 reads)

/-- A sum that is the address of the load below. -/
def sumAbove : Instruction := .plain "add `s0, `s1, `d0" [.register ⟨"t0000"⟩] [.register ⟨"%i0"⟩,.immediate 8]

def loadAtSum : Instruction := Machine.load (.register ⟨"t0000"⟩) (.register ⟨"%i1"⟩)

theorem foldAddress_exchanges_loadAtSum : Meaningful [sumAbove,loadAtSum] ∧ ∃ c,
    foldAddress? (endsFrom { children := [⟨"t0000"⟩] } [sumAbove,loadAtSum] 0) .plus sumAbove [loadAtSum] = some c ∧
    ∃ d next new behind, [loadAtSum] = next :: behind ∧ c.code = new :: behind ∧ sumAbove.defs = [.register d] ∧
      (next.kind = .load ∨ next.kind = .store) ∧ new.kind = next.kind ∧ (∀ i ∈ behind, d ∉ i.registers) ∧
      (Exchanges (· ≠ d) [sumAbove,next] [new] ∧ new.consumeCount d = sumAbove.consumeCount d ↔
        ¬ (next.kind = .store ∧ next.reads d = true)) := by
  have meaningful : Meaningful [sumAbove,loadAtSum] := by
    unfold Meaningful
    decide +kernel
  obtain ⟨c,fires⟩ : ∃ c, foldAddress? (endsFrom { children := [⟨"t0000"⟩] } [sumAbove,loadAtSum] 0) .plus sumAbove
    [loadAtSum] = some c := ⟨_,rfl⟩
  exact ⟨meaningful,c,fires,foldAddress_exchanges meaningful rfl (by decide +kernel) fires⟩

/-- An address in the frame that is stored at itself. -/
def ownAddressSum : Instruction := .plain "sub `s0, `s1, `d0" [.register ⟨"x"⟩] [.register ⟨"%fp"⟩,.immediate 8]

def ownStore : Instruction := Machine.store (.register ⟨"x"⟩) (.register ⟨"x"⟩)

/-- The store finds its address in the frame, but no longer what to store there. -/
theorem not_foldAddress_exchanges_ownStore : Meaningful [ownAddressSum,ownStore] ∧ ownAddressSum.kind = .sub ∧ ∃ new,
    (foldAddress? (endsFrom { children := [⟨"x"⟩] } [ownAddressSum,ownStore] 0) .minus ownAddressSum [ownStore]).map
      Change.code = some [new] ∧ ¬ Exchanges (· ≠ ⟨"x"⟩) [ownAddressSum,ownStore] [new] := by
  refine ⟨by unfold Meaningful; decide +kernel,by decide +kernel,_,rfl,?_⟩
  apply not_exchanges_of_cell blank (-8)
  decide +kernel

/-! ### Results of calls -/

/-- An instruction that reads a result in place of its copy looks at the copy only where a
    store has it in its address. -/
theorem consumes_forwarded {reader new : Instruction} {a : Action} {d result : Register} (other : result ≠ d)
    (means : reader.action? = some a)
    (forwarded : new.action? = some (a.mapUses fun operand => if operand.isRegister d then .register result else operand)) :
    new.consumes d = true ↔ reader.kind = .store ∧ reader.defines d = true := by
  have gone : .register d ∉ a.values.map fun operand => if operand.isRegister d then Operand.register result else operand := by
    intro member
    obtain ⟨operand,-,is⟩ := List.mem_map.1 member
    by_cases same : operand.isRegister d = true
    · rw [if_pos same] at is
      exact other (Operand.register.inj is)
    · rw [if_neg same] at is
      exact same (decide_eq_true is)
  rw [Instruction.consumes_iff forwarded,Action.operands_eq,Action.values_mapUses,Action.place_mapUses,List.mem_append,
    or_iff_right gone,Instruction.kind_eq_store_iff means,Instruction.defines_iff,Instruction.defs_eq means]
  cases a <;> simp [Action.place,Action.destination?]

section
variable {copied reader new : Instruction} {b : Action} {d result : Register}
  (copies : copied.action? = some (.assign d (.operand (.register result)))) (means : reader.action? = some b)
  (reads : reader.reads d = true)
  (forwarded : new.action? = some (b.mapUses fun operand => if operand.isRegister d then .register result else operand))
include copies means reads forwarded

/-- A copy goes whose register is looked at as a value only. -/
theorem exchanges_copied (other : result ≠ d) (spared : ¬ (reader.kind = .store ∧ reader.defines d = true)) :
    Exchanges (· ≠ d) [copied,reader] [new] := by
  intro Memory w m
  have apart : ¬ (reader.kind = .store ∧ reader.reads d = true ∧ reader.defines d = true) :=
    fun strands => spared ⟨strands.1,strands.2.2⟩
  obtain ⟨m',n',ran,ran',alike⟩ := exchange_copied (w := w) (.refl _ m) other copies means reads forwarded apart
  exact ⟨m',n',ran,ran',alike.mono fun _ => .inl⟩

/-- A register that is copied to itself keeps its value, and nothing is replaced. -/
theorem exchanges_copied_self (same : result = d) (kept : Register → Prop) : Exchanges kept [copied,reader] [new] := by
  subst same
  have replaced : (fun operand : Operand => if operand.isRegister result then .register result else operand) = id := by
    funext operand
    cases operand <;> simp [Operand.isRegister,eq_comm]
  rw [replaced,mapUses_id] at forwarded
  have straight : b.isStraight = true := mapUses_id b ▸ (straight_of_reads means reads id).1
  intro Memory w m
  have idle : (Action.assign result (.operand (.register result))).effect w m = m := by
    simp [Action.effect,Machine.Source.eval,Operand.eval,Store.set]
  refine ⟨_,_,Machine.block_pair w copies rfl means straight m,Machine.block_single w forwarded straight m,?_⟩
  rw [idle]
  exact .refl _ _

end

/-- A line that reads the result of a call does what it did with the copy of it, and the
    register of the copy is not looked at any more, unless it is the register of the
    result itself or the line is a store that has the copy in its address. -/
theorem forwardResult_exchanges (meaningful : Meaningful code) (here : code.drop line = head :: rest) (kind : head.kind = .call)
    (fires : forwardResult? .sparc (endsFrom supply code line) head rest = some c) :
    ∃ d nops copied reader new behind, rest = nops ++ copied :: reader :: behind ∧ c.code = head :: nops ++ new :: behind ∧
      (∀ i ∈ nops, i.action? = some .skip) ∧ copied.action? = some (.assign d (.operand (.register callResultRegister))) ∧
      (∀ i ∈ behind, d ∉ i.registers) ∧
      (Exchanges (· ≠ d) [copied,reader] [new] ∧ (d ≠ callResultRegister → new.consumes d = false) ↔
        (d = callResultRegister ∨ ¬ (reader.kind = .store ∧ reader.defines d = true))) := by
  have decodes := meaningful_of_drop meaningful here
  obtain ⟨a,means⟩ := Option.ne_none_iff_exists'.1 (decodes head List.mem_cons_self)
  obtain ⟨nops,copied,reader,behind,d,b,rfl,idle,copies,means',reads,is,rewrite⟩ :=
    rewrite_of_forwardResult (fun i member => decodes i (List.mem_cons_of_mem _ member)) means kind fires
  have absent := rewrite.absent_behind (by simp [here])
  have forwarded := action?_replaceUse (.register callResultRegister) means' reads
  refine ⟨d,nops,copied,reader,_,behind,rfl,is,idle,copies,absent,?_⟩
  by_cases result : d = callResultRegister
  · have same := exchanges_copied_self copies means' reads forwarded result.symm (· ≠ d)
    exact ⟨fun _ => .inl result,fun _ => ⟨same,absurd result⟩⟩
  · have looks := consumes_forwarded (Ne.symm result) means' forwarded
    rw [or_iff_right result,← looks,Bool.not_eq_true]
    constructor
    · rintro ⟨-,unseen⟩
      exact unseen result
    · intro unseen
      have spared : ¬ (reader.kind = .store ∧ reader.defines d = true) := by
        rw [← looks,unseen]
        exact Bool.false_ne_true
      exact ⟨exchanges_copied copies means' reads forwarded (Ne.symm result) spared,fun _ => unseen⟩

/-- A call whose result is copied and then added to itself. -/
def callAbove : Instruction := Machine.call ⟨"f"⟩

def resultCopy : Instruction := Machine.move (.register callResultRegister) (.register ⟨"x"⟩)

def doubledResult : Instruction := .plain "add `s0, `s1, `d0" [.register ⟨"%i0"⟩] [.register ⟨"x"⟩,.register ⟨"x"⟩]

theorem forwardResult_exchanges_doubledResult : Meaningful [callAbove,Machine.nop,resultCopy,doubledResult] ∧
    callAbove.kind = .call ∧ ∃ c,
    forwardResult? .sparc (endsFrom { children := [⟨"x"⟩] } [callAbove,Machine.nop,resultCopy,doubledResult] 0) callAbove
      [Machine.nop,resultCopy,doubledResult] = some c ∧
    ∃ d nops copied reader new behind, [Machine.nop,resultCopy,doubledResult] = nops ++ copied :: reader :: behind ∧
      c.code = callAbove :: nops ++ new :: behind ∧ (∀ i ∈ nops, i.action? = some .skip) ∧
      copied.action? = some (.assign d (.operand (.register callResultRegister))) ∧ (∀ i ∈ behind, d ∉ i.registers) ∧
      (Exchanges (· ≠ d) [copied,reader] [new] ∧ (d ≠ callResultRegister → new.consumes d = false) ↔
        (d = callResultRegister ∨ ¬ (reader.kind = .store ∧ reader.defines d = true))) := by
  have meaningful : Meaningful [callAbove,Machine.nop,resultCopy,doubledResult] := by
    unfold Meaningful
    decide +kernel
  have kind : callAbove.kind = .call := by decide +kernel
  obtain ⟨c,fires⟩ : ∃ c, forwardResult? .sparc
    (endsFrom { children := [⟨"x"⟩] } [callAbove,Machine.nop,resultCopy,doubledResult] 0) callAbove
      [Machine.nop,resultCopy,doubledResult] = some c := ⟨_,rfl⟩
  exact ⟨meaningful,kind,c,fires,forwardResult_exchanges meaningful rfl kind fires⟩

/-- The store finds what to store in the place of the result, but its address has gone with
    the copy. -/
theorem not_forwardResult_exchanges_ownStore : Meaningful [callAbove,Machine.nop,resultCopy,ownStore] ∧
    callAbove.kind = .call ∧ ∃ new,
    (forwardResult? .sparc (endsFrom { children := [⟨"x"⟩] } [callAbove,Machine.nop,resultCopy,ownStore] 0) callAbove
      [Machine.nop,resultCopy,ownStore]).map Change.code = some [callAbove,Machine.nop,new] ∧
    ¬ Exchanges (· ≠ ⟨"x"⟩) [resultCopy,ownStore] [new] := by
  refine ⟨by unfold Meaningful; decide +kernel,by decide +kernel,_,rfl,?_⟩
  apply not_exchanges_of_cell { blank with toStore := blank.set callResultRegister 5 } 5
  decide +kernel

/-! ### Values -/

/-- A change by one of the rules that compute a value in another way. -/
inductive ValueChange (ends : EndsAfter) (head : Instruction) (rest : List Instruction) (c : Change) : Prop
  | addZero (kind : head.kind = .add) (made : addZero? head rest = some c)
  | subZero (kind : head.kind = .sub) (made : subZero? head rest = some c)
  | foldImmediate (kind : head.kind = .loadImmediate) (made : foldImmediate? .sparc ends head rest = some c)
  | dropSelfMove (kind : head.kind = .move) (made : dropSelfMove? head rest = some c)
  | mergeMove (made : mergeMove? ends head rest = some c)

/-- A change of some lines, of which a register may go that lives until the last of them
    and is not mentioned behind them. All else is left as it was. -/
def Change.IsLocal (c : Change) (supply : RegisterSupply) (code : List Instruction) (line : Nat) : Prop :=
  ∃ window new behind, ∃ spent : Option Register, code.drop line = window ++ behind ∧ c.code = new ++ behind ∧
    (window.length = 1 ∨ window.length = 2) ∧ Exchanges (· ∉ spent) window new ∧
    ∀ d ∈ spent, endsOn supply code (line + (window.length - 1)) d = true ∧ ∀ i ∈ behind, d ∉ i.registers

theorem Change.Rewrites.isLocal (rewrites : c.Rewrites (endsFrom supply code line) (head :: rest) none)
    (here : code.drop line = head :: rest) {a : Action} (means : head.action? = some a) (stays : ∀ target, a ≠ .jump target) :
    c.IsLocal supply code line := by
  obtain ⟨before,after,tail,is,becomes,rewrite⟩ := rewrites
  have first : before.head? = some head := by
    cases before with
    | nil => exact absurd rewrite.before_pos (by simp)
    | cons i rest => exact congrArg some (List.cons.inj is).1.symm
  obtain ⟨single,same⟩ := rewrite.exchanges_none fun target => by simpa [first,means] using stays target
  refine ⟨before,after,tail,none,here.trans is,becomes,.inl single,?_,by simp⟩
  simpa using same

theorem Change.Joins.isLocal {next new : Instruction} {d : Register} (joins : c.Joins (endsFrom supply code line) head next rest new d)
    (here : code.drop line = head :: next :: rest) (spared : next.kind ≠ .store) : c.IsLocal supply code line := by
  have same := joins.rewrite.exchanges (Nat.le_refl 2) fun strands => spared strands.1
  refine ⟨[head,next],[new],rest,some d,here,joins.code_eq,.inr rfl,?_,?_⟩
  · simpa [eq_comm] using same
  · rintro _ ⟨⟩
    exact ⟨joins.rewrite.gone,joins.rewrite.absent_behind here⟩

/-- What computes a value in another way is sound line by line. -/
theorem valueChange_isLocal (meaningful : Meaningful code) (here : code.drop line = head :: rest)
    (change : ValueChange (endsFrom supply code line) head rest c) : c.IsLocal supply code line := by
  have decodes := meaningful_of_drop meaningful here
  have others : ∀ i ∈ rest, i.action? ≠ none := fun i member => decodes i (List.mem_cons_of_mem _ member)
  obtain ⟨a,means⟩ := Option.ne_none_iff_exists'.1 (decodes head List.mem_cons_self)
  have stays (regular : head.kind ≠ .jump) : ∀ target, a ≠ .jump target := by
    rintro target rfl
    cases Instruction.hasAction means
    contradiction
  cases change with
  | addZero kind made => exact (rewrites_of_addZero means kind made).isLocal here means (stays (by simp [kind]))
  | subZero kind made => exact (rewrites_of_subZero means kind made).isLocal here means (stays (by simp [kind]))
  | dropSelfMove kind made => exact (rewrites_of_dropSelfMove means kind made).isLocal here means (stays (by simp [kind]))
  | foldImmediate kind made =>
    obtain ⟨_,_,_,_,rfl,joins,spared⟩ := joins_of_foldImmediate others means kind made
    exact joins.isLocal here spared
  | mergeMove made =>
    obtain ⟨_,_,_,_,rfl,joins,spared⟩ := joins_of_mergeMove others means made
    exact joins.isLocal here spared

/-- A load that uses its register as its address, too, before the value is copied away. -/
def loadThrough : Instruction := Machine.load (.register ⟨"x"⟩) (.register ⟨"x"⟩)

def copyAway : Instruction := Machine.move (.register ⟨"x"⟩) (.register ⟨"%i0"⟩)

theorem valueChange_isLocal_loadThrough : Meaningful [loadThrough,copyAway] ∧ ∃ c,
    mergeMove? (endsFrom { children := [⟨"x"⟩] } [loadThrough,copyAway] 0) loadThrough [copyAway] = some c ∧
    c.IsLocal { children := [⟨"x"⟩] } [loadThrough,copyAway] 0 := by
  have meaningful : Meaningful [loadThrough,copyAway] := by
    unfold Meaningful
    decide +kernel
  obtain ⟨c,made⟩ : ∃ c, mergeMove? (endsFrom { children := [⟨"x"⟩] } [loadThrough,copyAway] 0) loadThrough [copyAway] = some c :=
    ⟨_,rfl⟩
  exact ⟨meaningful,c,made,valueChange_isLocal meaningful rfl (.mergeMove made)⟩

end SparcBackend.Peephole
