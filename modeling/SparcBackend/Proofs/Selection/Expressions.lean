import SparcBackend.Proofs.Ir.Execution
import SparcBackend.Proofs.Ir.Freshness
import SparcBackend.Proofs.Machine.Execution
import SparcBackend.Proofs.Selection.Yielding

/-!
The instructions that cover an expression compute its value. What carries the proof is
that values wait in registers that nothing else writes: minted ones are new, and the
others a tree can name are not outgoing, so that neither the instructions in between
nor a call disturb them. Outgoing registers are written only when all arguments are
known.
-/
namespace SparcBackend
open Machine (Action Source State block isPhysical)

namespace RegisterSupply

/-- A register in which a value may wait: calls leave it alone. -/
def Keeps (supply : RegisterSupply) (r : Register) : Prop := supply.Knows r ∧ ¬ IsOutgoing r

variable {supply left : RegisterSupply} {r : Register}

theorem Keeps.mono (kept : supply.Keeps r) (le : supply ≤ left) : left.Keeps r := ⟨kept.1.mono le,kept.2⟩

theorem keeps_create (supply : RegisterSupply) : supply.create.2.Keeps supply.create.1 := by
  refine ⟨supply.knows_create,?_⟩
  intro out
  have physical := isPhysical_of_isOutgoing out
  simp [supply.isPhysical_create] at physical

theorem knows_outgoing (supply : RegisterSupply) (k : Fin Machine.groupSize) : supply.Knows (outgoing k) :=
  .inr (isPhysical_outgoing k)

end RegisterSupply

namespace Selection
variable {Memory : Type} {w : World Memory} {base supply mid left : RegisterSupply} {code : List Instruction}

/-- The machine executes `code` and comes from `m` to `last`, which agrees with `s` on the
    registers of `base`; registers that `supply` keeps are left alone. -/
structure Follows (w : World Memory) (base supply : RegisterSupply) (code : List Instruction) (m last : State Memory)
    (s : Store Memory) : Prop where
  done : block w code m = some last
  agree : Store.Agree base.Knows s last.toStore
  frame : ∀ x, supply.Keeps x → last.registers x = m.registers x

theorem Follows.nil {m : State Memory} {s : Store Memory} (agree : Store.Agree base.Knows s m.toStore) :
    Follows w base supply [] m m s := ⟨rfl,agree,fun _ _ => rfl⟩

theorem Follows.trans {first second : List Instruction} {m m1 m2 : State Memory} {s1 s2 : Store Memory}
    (one : Follows w base supply first m m1 s1) (two : Follows w base mid second m1 m2 s2) (le : supply ≤ mid) :
    Follows w base supply (first ++ second) m m2 s2 := by
  refine ⟨?_,two.agree,?_⟩
  · rw [Machine.block_append,one.done]
    exact two.done
  · intro x kept
    rw [two.frame x (kept.mono le),one.frame x kept]

/-- An instruction that does what is done to the store anyway. -/
theorem Follows.single {i : Instruction} {a : Action} (means : i.action? = some a) (straight : a.isStraight = true)
    {m : State Memory} {s : Store Memory} (agree : Store.Agree base.Knows s (a.effect w m).toStore)
    (frame : ∀ x, supply.Keeps x → (a.effect w m).registers x = m.registers x) :
    Follows w base supply [i] m (a.effect w m) s :=
  ⟨Machine.block_single w means straight _,agree,frame⟩

/-- The instruction that puts the value of `source` into a register minted for it. -/
def YieldsFresh (source : Source) (supply : RegisterSupply) (value : Operand) (code : List Instruction)
    (left : RegisterSupply) : Prop :=
  ∃ i : Instruction, i.action? = some (.assign supply.create.1 source) ∧ value = .register supply.create.1 ∧
    code = [i] ∧ left = supply.create.2

/-- A minted register takes a value without being noticed. -/
theorem Follows.fresh {source : Source} {value : Operand} (yields : YieldsFresh source supply value code left)
    (le : base ≤ supply) {m : State Memory} {s : Store Memory} (agree : Store.Agree base.Knows s m.toStore) :
    ∃ last, Follows w base supply code m last s ∧
      last.registers supply.create.1 = source.eval w m.toStore := by
  obtain ⟨i,means,-,rfl,-⟩ := yields
  refine ⟨_,Follows.single means rfl ?_ ?_,?_⟩
  · exact agree.set_outside (fun known => supply.not_knows_create (known.mono le)) _
  · intro x kept
    have other : x ≠ supply.create.1 := by
      rintro rfl
      exact supply.not_knows_create kept.1
    exact Function.update_of_ne other _ _
  · exact Function.update_self _ _ _

/-- No line of `code` is a label. -/
def Unlabelled (code : List Instruction) : Prop := ∀ i ∈ code, i.label? = none

theorem Unlabelled.append {first second : List Instruction} (one : Unlabelled first) (two : Unlabelled second) :
    Unlabelled (first ++ second) := by
  intro i member
  rcases List.mem_append.1 member with before | behind
  · exact one i before
  · exact two i behind

theorem Unlabelled.cons {i : Instruction} {a : Action} (means : i.action? = some a) (other : ∀ name, a ≠ .label name)
    (rest : Unlabelled code) : Unlabelled (i :: code) := by
  intro j member
  rcases List.mem_cons.1 member with rfl | behind
  · exact Instruction.label?_eq_none means other
  · exact rest j behind

theorem unlabelled_nil : Unlabelled [] := fun _ member => absurd member List.not_mem_nil

theorem YieldsFresh.unlabelled {source : Source} {value : Operand} (yields : YieldsFresh source supply value code left) :
    Unlabelled code := by
  obtain ⟨i,means,-,rfl,-⟩ := yields
  exact Unlabelled.cons means (fun _ => Machine.Action.noConfusion) unlabelled_nil

/-! ### The parts of a covering -/

section
variable {value : Operand}

/-- An operator is one line, which writes a register minted for it. -/
theorem yields_combine_line {op : BinaryOp} {a b : Operand} (yields : Yields (Munch.combine .sparc op a b) supply value code left) :
    ∃ (i : Instruction) (note : String), Machine.Target.sparc.binary? op a b supply.create.1 = some i ∧
      value = .register supply.create.1 ∧ code = [i.withNote note] ∧ left = supply.create.2 := by
  unfold Munch.combine at yields
  rw [yields_fresh_bind] at yields
  split at yields
  · rename_i i selected
    obtain ⟨more,rest,rfl⟩ := yields_emit_bind.1 yields
    obtain ⟨rfl,rfl,rfl⟩ := yields_pure.1 rest
    exact ⟨i,_,selected,rfl,rfl,rfl⟩
  · exact absurd yields not_yields_fail

theorem yields_combine {op : BinaryOp} {a b : Operand}
    (yields : Yields (Munch.combine .sparc op a b) supply value code left) :
    YieldsFresh (.binary op a b) supply value code left := by
  obtain ⟨i,note,selected,rfl,rfl,rfl⟩ := yields_combine_line yields
  have means : i.action? = _ := Instruction.action?_binary selected
  exact ⟨_,(Instruction.action?_withNote i note).trans means,rfl,rfl,rfl⟩

theorem yields_number {n : Int} (yields : Yields (Munch.constant n) supply value code left) :
    ∃ i : Instruction, i.action? = some (.assign supply.create.1 (.operand (.immediate n))) ∧ i.kind = .loadImmediate ∧
      value = .register supply.create.1 ∧ code = [i] ∧ left = supply.create.2 := by
  obtain ⟨rfl,rfl,rfl⟩ := yields_fresh_emit.1 yields
  exact ⟨_,by simp,by simp; rfl,rfl,rfl,rfl⟩

theorem yields_constant {n : Int} (yields : Yields (Munch.constant n) supply value code left) :
    YieldsFresh (.operand (.immediate n)) supply value code left := by
  obtain ⟨i,means,-,is⟩ := yields_number yields
  exact ⟨i,means,is⟩

theorem yields_addressOf {label : Label} (yields : Yields (Munch.addressOf label) supply value code left) :
    YieldsFresh (.operand (.address label)) supply value code left := by
  obtain ⟨rfl,rfl,rfl⟩ := yields_fresh_emit.1 yields
  exact ⟨_,by simp,rfl,rfl,rfl⟩

theorem yields_readCell {address : Operand} (yields : Yields (Munch.readCell .value address) supply value code left) :
    YieldsFresh (.load (.direct address)) supply value code left := by
  obtain ⟨rfl,rfl,rfl⟩ := yields_fresh_emit.1 yields
  exact ⟨_,by simp,rfl,rfl,rfl⟩

end

/-- A copy into a register. -/
theorem yields_copy {value : Operand} {d : Register} {u : Unit}
    (yields : Yields (Munch.copy value (.register d)) supply u code left) :
    left = supply ∧ ∃ i : Instruction, i.action? = some (.assign d (.operand value)) ∧ code = [i] := by
  obtain ⟨rfl,rfl⟩ := yields_emit.1 yields
  exact ⟨rfl,_,by simp,rfl⟩

/-- The place of an argument is an outgoing register. -/
theorem outgoing_of_place {index : Nat} {access : Expression}
    (place : Machine.Target.sparc.outgoing index = .ok access) :
    ∃ bound : index < Machine.groupSize, access = .register (outgoing ⟨index,bound⟩) := by
  unfold Machine.Target.outgoing at place
  simp only [Machine.Target.sparc,Machine.outgoingArgument,Machine.argumentAccess] at place
  split at place
  · rename_i few
    cases place
    exact ⟨Nat.lt_of_lt_of_le few (by decide),rfl⟩
  · split at place <;> cases place

/-- The first argument is moved to its place, and the others behind it. -/
theorem yields_stage_cons {index : Nat} {x : Operand} {rest : List Operand} {u : Unit}
    (yields : Yields (Munch.stage .sparc index (x :: rest)) supply u code left) :
    ∃ (bound : index < Machine.groupSize) (note : String) (others : List Instruction),
      code = (Machine.move x (.register (outgoing ⟨index,bound⟩))).withNote note :: others ∧
        Yields (Munch.stage .sparc (index+1) rest) supply u others left := by
  rw [Munch.stage] at yields
  split at yields
  · rename_i access place
    obtain ⟨bound,rfl⟩ := outgoing_of_place place
    have source : Munch.accessRegister (.register (outgoing ⟨index,bound⟩)) = pure (outgoing ⟨index,bound⟩) := rfl
    rw [source,yields_pure_bind] at yields
    obtain ⟨others,behind,rfl⟩ := yields_emit_bind.1 yields
    exact ⟨bound,_,others,rfl,behind⟩
  · exact absurd yields not_yields_fail_bind

/-! ### Calls -/

/-- Staging puts values into the outgoing registers from `index` on and touches nothing
    else. The values wait in other registers, so no copy spoils a later one. -/
theorem staged {u : Unit} (w : World Memory) : ∀ {rs : List Register} {index : Nat} {code : List Instruction},
    Yields (Munch.stage .sparc index (rs.map .register)) supply u code left → (∀ r ∈ rs, ¬ IsOutgoing r) →
      left = supply ∧ Unlabelled code ∧ ∀ m : State Memory, ∃ last, block w code m = some last ∧
        last.memory = m.memory ∧ last.trace = m.trace ∧ (∀ x, ¬ IsOutgoing x → last.registers x = m.registers x) ∧
        ∀ k, last.registers (outgoing k) = if k.val < index then m.registers (outgoing k)
          else (((rs.map m.registers)[k.val-index]?).getD (m.registers (outgoing k))) := by
  intro rs
  induction rs with
  | nil =>
    intro index code yields _
    obtain ⟨-,rfl,rfl⟩ := yields_pure.1 yields
    exact ⟨rfl,unlabelled_nil,fun m => ⟨m,rfl,rfl,rfl,fun _ _ => rfl,by simp⟩⟩
  | cons r rest ih =>
    intro index code yields apart
    obtain ⟨bound,note,more,rfl,others⟩ := yields_stage_cons yields
    have means : ((Machine.move (.register r) (.register (outgoing ⟨index,bound⟩))).withNote note).action? =
        some (.assign (outgoing ⟨index,bound⟩) (.operand (.register r))) := by simp
    obtain ⟨rfl,unlabelled,runs⟩ := ih others fun x member => apart x (List.mem_cons_of_mem r member)
    refine ⟨rfl,Unlabelled.cons means (fun _ => Machine.Action.noConfusion) unlabelled,?_⟩
    intro m
    obtain ⟨last,done,memory,trace,frame,placed⟩ := runs ((Action.assign _ (.operand (.register r))).effect w m)
    refine ⟨last,?_,memory,trace,?_,?_⟩
    · rw [Machine.block_cons w means rfl]
      exact done
    · intro x other
      rw [frame x other]
      refine Function.update_of_ne ?_ _ _
      rintro rfl
      exact other ⟨_,rfl⟩
    · intro k
      have same : rest.map ((Action.assign (outgoing ⟨index,bound⟩) (.operand (.register r))).effect w m).registers =
          rest.map m.registers := by
        refine List.map_congr_left fun x member => Function.update_of_ne ?_ _ _
        rintro rfl
        exact apart _ (List.mem_cons_of_mem r member) ⟨_,rfl⟩
      rw [placed k,same]
      by_cases here : k.val = index
      · subst here
        simp only [Nat.lt_succ_self,if_true,Nat.lt_irrefl,if_false,Nat.sub_self,List.map_cons,List.getElem?_cons_zero,
          Option.getD_some]
        exact Function.update_self _ _ _
      · have other : outgoing k ≠ outgoing ⟨index,bound⟩ := by
          intro same
          exact here (congrArg Fin.val (outgoing_injective same))
        have old : ((Action.assign (outgoing ⟨index,bound⟩) (.operand (.register r))).effect w m).registers (outgoing k) =
            m.registers (outgoing k) := Function.update_of_ne other _ _
        rw [old]
        by_cases before : k.val < index
        · rw [if_pos before,if_pos (by omega)]
        · have shift : k.val-index = (k.val-(index+1))+1 := by omega
          rw [if_neg before,if_neg (by omega),shift,List.map_cons,List.getElem?_cons_succ]

/-- A procedure is called with arguments that wait in registers. -/
theorem Follows.call (w : World Memory) {rs : List Register} (target : Label)
    {staging : List Instruction} (kept : ∀ r ∈ rs, supply.Keeps r) {u : Unit}
    (yields : Yields (Munch.stage .sparc 0 (rs.map .register)) supply u staging left)
    {s : Store Memory} {m : State Memory} (agree : Store.Agree base.Knows s m.toStore) :
    ∃ last, Follows w base supply (staging ++ [Machine.call target,Machine.nop]) m last
      ((s.place (rs.map m.registers)).call w target) := by
  obtain ⟨-,-,runs⟩ := staged w yields fun r member => (kept r member).2
  obtain ⟨mid,done,memory,trace,frame,placed⟩ := runs m
  have there : Store.Agree base.Knows (s.place (rs.map m.registers)) mid.toStore := by
    refine ⟨?_,agree.memory_eq.trans memory.symm,agree.trace_eq.trans trace.symm⟩
    intro x known
    by_cases out : IsOutgoing x
    · obtain ⟨k,rfl⟩ := out
      rw [placed k]
      simp [Store.place,agree.registers_eq _ known]
    · rw [frame x out]
      exact (Store.withOutgoing_of_not out).trans (agree.registers_eq x known)
  have called := there.call w target base.knows_outgoing
  refine ⟨(Action.call target).effect w mid,?_,called,?_⟩
  · rw [Machine.block_append,done,Option.bind_some,Machine.block_pair w (Instruction.action?_call target) rfl
      Instruction.action?_nop rfl]
    rfl
  · intro x known
    exact (Store.registers_call_of_not w mid.toStore target known.2).trans (frame x known.2)

/-- The result of a call is copied into a register minted for it. -/
theorem yields_callStaged_line {target : Label} {value : Operand}
    (yields : Yields (Munch.callStaged .sparc target .value) supply value code left) :
    ∃ note, value = .register supply.create.1 ∧ code = [Machine.call target,Machine.nop,
      (Machine.move (.register Machine.callResultRegister) (.register supply.create.1)).withNote note] ∧ left = supply.create.2 := by
  unfold Munch.callStaged at yields
  obtain ⟨_,behind,rfl⟩ := yields_emit_bind.1 yields
  obtain ⟨_,_,_,_,filler,result,rfl⟩ := yields_bind.1 behind
  obtain ⟨rfl,rfl⟩ := yields_filler filler
  have source : Munch.accessRegister Machine.Target.sparc.callResult = pure Machine.callResultRegister := rfl
  rw [source,yields_pure_bind,if_neg (by decide)] at result
  obtain ⟨rfl,rfl,rfl⟩ := yields_fresh_emit.1 result
  exact ⟨_,rfl,rfl,rfl⟩

theorem yields_callStaged {target : Label} {value : Operand}
    (yields : Yields (Munch.callStaged .sparc target .value) supply value code left) :
    ∃ more, code = [Machine.call target,Machine.nop] ++ more ∧
      YieldsFresh (.operand (.register Machine.callResultRegister)) supply value more left := by
  obtain ⟨note,rfl,rfl,rfl⟩ := yields_callStaged_line yields
  exact ⟨_,rfl,_,by simp,rfl,rfl,rfl⟩

theorem yields_callStaged_discarded {target : Label} {value : Operand}
    (yields : Yields (Munch.callStaged .sparc target .discarded) supply value code left) :
    value = .register Machine.callResultRegister ∧ code = [Machine.call target,Machine.nop] ∧ left = supply := by
  unfold Munch.callStaged at yields
  obtain ⟨_,behind,rfl⟩ := yields_emit_bind.1 yields
  obtain ⟨_,_,_,_,filler,result,rfl⟩ := yields_bind.1 behind
  obtain ⟨rfl,rfl⟩ := yields_filler filler
  have source : Munch.accessRegister Machine.Target.sparc.callResult = pure Machine.callResultRegister := rfl
  rw [source,yields_pure_bind,if_pos rfl] at result
  obtain ⟨rfl,rfl,rfl⟩ := yields_pure.1 result
  exact ⟨rfl,rfl,rfl⟩

theorem unlabelled_call (target : Label) : Unlabelled [Machine.call target,Machine.nop] :=
  Unlabelled.cons (Instruction.action?_call target) (fun _ => Machine.Action.noConfusion)
    (Unlabelled.cons Instruction.action?_nop (fun _ => Machine.Action.noConfusion) unlabelled_nil)

/-! ### Expressions -/

/-- What the instructions that cover an expression do: they compute its value into a
    register where it may wait. -/
structure Computes (w : World Memory) (base supply : RegisterSupply) (e : Expression) (r : Register)
    (code : List Instruction) (left : RegisterSupply) : Prop where
  grows : supply ≤ left
  keeps : left.Keeps r
  unlabelled : Unlabelled code
  runs : ∀ {s : Store Memory} {m : State Memory}, Store.Agree base.Knows s m.toStore → ∃ value after last,
    e.eval w s = some (value,after) ∧ Follows w base supply code m last after ∧ last.registers r = value

/-- What the instructions that cover arguments do: they compute all values into registers
    where they may wait for each other. -/
structure ComputesAll (w : World Memory) (base supply : RegisterSupply) (es : List Expression) (rs : List Register)
    (code : List Instruction) (left : RegisterSupply) : Prop where
  grows : supply ≤ left
  keeps : ∀ r ∈ rs, left.Keeps r
  unlabelled : Unlabelled code
  runs : ∀ {s : Store Memory} {m : State Memory}, Store.Agree base.Knows s m.toStore → ∃ values after last,
    Expression.evalAll w es s = some (values,after) ∧ Follows w base supply code m last after ∧
      rs.map last.registers = values

theorem Computes.fresh {e : Expression} {source : Source} {value : Operand}
    (yields : YieldsFresh source supply value code left) (le : base ≤ supply)
    (evals : ∀ {s : Store Memory} {m : State Memory}, Store.Agree base.Knows s m.toStore →
      e.eval w s = some (source.eval w m.toStore,s)) :
    ∃ r, value = .register r ∧ Computes w base supply e r code left := by
  have unlabelled := yields.unlabelled
  obtain ⟨i,means,rfl,rfl,rfl⟩ := id yields
  refine ⟨_,rfl,supply.le_create,supply.keeps_create,unlabelled,?_⟩
  intro s m agree
  obtain ⟨last,follows,holds⟩ := Follows.fresh yields le agree
  exact ⟨_,s,last,evals agree,follows,holds⟩

/-- Arguments are computed, staged and passed to a procedure. -/
theorem ComputesAll.call {es : List Expression} {rs : List Register} {staging : List Instruction} {u : Unit}
    (computes : ComputesAll w base supply es rs code mid) (target : Label)
    (yields : Yields (Munch.stage .sparc 0 (rs.map .register)) mid u staging left)
    {s : Store Memory} {m : State Memory} (agree : Store.Agree base.Knows s m.toStore) :
    ∃ values after last, Expression.evalAll w es s = some (values,after) ∧
      Follows w base supply (code ++ (staging ++ [Machine.call target,Machine.nop])) m last
        ((after.place values).call w target) := by
  obtain ⟨values,after,mid',evals,follows,rfl⟩ := computes.runs agree
  obtain ⟨last,called⟩ := Follows.call w target computes.keeps yields follows.agree
  exact ⟨_,after,last,evals,follows.trans called computes.grows⟩

mutual

/-- The instructions that cover an expression for its value compute it. -/
theorem computes (w : World Memory) : ∀ {e : Expression} {supply left : RegisterSupply} {value : Operand} {code : List Instruction},
    Yields (tileExpression .sparc .value e) supply value code left → e.IsLinear → (∀ r ∈ e.registers, base.Keeps r) →
      base ≤ supply → ∃ r, value = .register r ∧ Computes w base supply e r code left
  | .binary op a b, supply, left, value, code, yields, linear, keeps, le => by
    rw [tileExpression] at yields
    obtain ⟨x,first,s1,_,tiled,behind,rfl⟩ := yields_bind.1 yields
    obtain ⟨y,second,s2,third,tiled',combined,rfl⟩ := yields_bind.1 behind
    obtain ⟨i,means,rfl,rfl,rfl⟩ := yields_combine combined
    obtain ⟨x,rfl,one⟩ := computes w tiled linear.1 (fun r member => keeps r (List.mem_append_left _ member)) le
    obtain ⟨y,rfl,two⟩ := computes w tiled' linear.2 (fun r member => keeps r (List.mem_append_right _ member))
      (RegisterSupply.le_trans le one.grows)
    have fresh : YieldsFresh (.binary op (.register x) (.register y)) s2 _ [i] _ := ⟨i,means,rfl,rfl,rfl⟩
    have grown := RegisterSupply.le_trans one.grows two.grows
    refine ⟨_,rfl,RegisterSupply.le_trans grown s2.le_create,s2.keeps_create,
      one.unlabelled.append (two.unlabelled.append fresh.unlabelled),?_⟩
    intro s m agree
    obtain ⟨u,t1,m1,evals,follows,rfl⟩ := one.runs agree
    obtain ⟨v,t2,m2,evals',follows',rfl⟩ := two.runs follows.agree
    obtain ⟨m3,last,holds⟩ := Follows.fresh (w := w) fresh (RegisterSupply.le_trans le grown) follows'.agree
    refine ⟨_,t2,m3,?_,follows.trans (follows'.trans last two.grows) one.grows,holds⟩
    have waited := follows'.frame x one.keeps
    simp [Expression.eval,evals,evals',Source.eval,Operand.eval,waited]
  | .call function arguments, supply, left, value, code, yields, linear, keeps, le => by
    cases function with
    | name target =>
      obtain ⟨xs,first,s1,staging,s2,_,tiled,staged',called,rfl⟩ := yields_call yields
      obtain ⟨more,rfl,fresh⟩ := yields_callStaged called
      obtain ⟨rs,rfl,args⟩ := computesAll w tiled linear.2 keeps le
      obtain ⟨rfl,plain,-⟩ := staged w staged' fun r member => (args.keeps r member).2
      obtain ⟨i,means,rfl,rfl,rfl⟩ := id fresh
      refine ⟨_,rfl,RegisterSupply.le_trans args.grows (RegisterSupply.le_create _),RegisterSupply.keeps_create _,
        args.unlabelled.append (plain.append ((unlabelled_call target).append fresh.unlabelled)),?_⟩
      intro s m agree
      obtain ⟨values,after,m1,evals,follows⟩ := args.call target staged' agree
      obtain ⟨m2,last,holds⟩ := Follows.fresh (w := w) fresh (RegisterSupply.le_trans le args.grows) follows.agree
      refine ⟨_,(after.place values).call w target,m2,?_,?_,holds⟩
      · have returned := follows.agree.registers_eq Machine.callResultRegister (.inr rfl)
        simp [Expression.eval,evals,Source.eval,Operand.eval,returned]
      · have whole := follows.trans last args.grows
        simpa only [List.append_assoc] using whole
    | binary | call | constant | memory | resultOf | register | relation => exact absurd yields (not_yields_call (by simp))
  | .constant n, supply, left, value, code, yields, linear, keeps, le => by
    rw [tileExpression] at yields
    refine Computes.fresh (yields_constant yields) le ?_
    intro s m agree
    simp [Expression.eval,Source.eval,Operand.eval]
  | .memory address, supply, left, value, code, yields, linear, keeps, le => by
    obtain ⟨x,first,s1,second,tiled,loaded,rfl⟩ := yields_memory yields
    obtain ⟨i,means,rfl,rfl,rfl⟩ := yields_readCell loaded
    obtain ⟨x,rfl,one⟩ := computes w tiled linear keeps le
    have fresh : YieldsFresh (.load (.direct (.register x))) s1 _ [i] _ := ⟨i,means,rfl,rfl,rfl⟩
    refine ⟨_,rfl,RegisterSupply.le_trans one.grows s1.le_create,s1.keeps_create,
      one.unlabelled.append fresh.unlabelled,?_⟩
    intro s m agree
    obtain ⟨u,t1,m1,evals,follows,rfl⟩ := one.runs agree
    obtain ⟨m2,last,holds⟩ := Follows.fresh (w := w) fresh (RegisterSupply.le_trans le one.grows) follows.agree
    refine ⟨_,t1,m2,?_,follows.trans last one.grows,holds⟩
    simp [Expression.eval,evals,Source.eval,Machine.Address.eval,Operand.eval,follows.agree.memory_eq]
  | .name label, supply, left, value, code, yields, linear, keeps, le => by
    rw [tileExpression] at yields
    exact Computes.fresh (yields_addressOf yields) le fun _ => rfl
  | .resultOf _ _, supply, left, value, code, yields, linear, keeps, le => linear.elim
  | .register r, supply, left, value, code, yields, linear, keeps, le => by
    rw [tileExpression] at yields
    obtain ⟨rfl,rfl,rfl⟩ := yields_pure.1 yields
    have kept := keeps r (List.mem_singleton.2 rfl)
    refine ⟨r,rfl,RegisterSupply.le_refl _,kept.mono le,unlabelled_nil,?_⟩
    intro s m agree
    exact ⟨_,s,m,rfl,Follows.nil agree,(agree.registers_eq r kept.1).symm⟩
  | .relation _ _ _, supply, left, value, code, yields, linear, keeps, le => by
    rw [tileExpression] at yields
    exact absurd yields not_yields_fail

theorem computesAll (w : World Memory) : ∀ {es : List Expression} {supply left : RegisterSupply} {values : List Operand}
    {code : List Instruction}, Yields (tileArguments .sparc es) supply values code left → Expression.AreLinear es →
      (∀ r ∈ Expression.allRegisters es, base.Keeps r) → base ≤ supply →
        ∃ rs, values = rs.map .register ∧ ComputesAll w base supply es rs code left
  | [], supply, left, values, code, yields, linear, keeps, le => by
    rw [tileArguments] at yields
    obtain ⟨rfl,rfl,rfl⟩ := yields_pure.1 yields
    refine ⟨[],rfl,RegisterSupply.le_refl _,by simp,unlabelled_nil,?_⟩
    intro s m agree
    exact ⟨[],s,m,rfl,Follows.nil agree,rfl⟩
  | e :: rest, supply, left, values, code, yields, linear, keeps, le => by
    rw [tileArguments] at yields
    obtain ⟨x,first,s1,_,tiled,behind,rfl⟩ := yields_bind.1 yields
    obtain ⟨xs,second,s2,_,tiled',returned,rfl⟩ := yields_bind.1 behind
    obtain ⟨rfl,rfl,rfl⟩ := yields_pure.1 returned
    obtain ⟨x,rfl,one⟩ := computes w tiled linear.1 (fun r member => keeps r (List.mem_append_left _ member)) le
    obtain ⟨rs,rfl,others⟩ := computesAll w tiled' linear.2 (fun r member => keeps r (List.mem_append_right _ member))
      (RegisterSupply.le_trans le one.grows)
    refine ⟨x :: rs,rfl,RegisterSupply.le_trans one.grows others.grows,?_,?_,?_⟩
    · intro r member
      rcases List.mem_cons.1 member with rfl | behind
      · exact one.keeps.mono others.grows
      · exact others.keeps r behind
    · rw [List.append_nil]
      exact one.unlabelled.append others.unlabelled
    · intro s m agree
      obtain ⟨u,t1,m1,evals,follows,rfl⟩ := one.runs agree
      obtain ⟨us,t2,m2,evals',follows',rfl⟩ := others.runs follows.agree
      have waited := follows'.frame x one.keeps
      rw [List.append_nil]
      refine ⟨_,t2,m2,?_,follows.trans follows' one.grows,rfl⟩
      simp [Expression.evalAll,evals,evals',waited]

end

end Selection

end SparcBackend
