import Mathlib.Tactic.Common
import SparcBackend.Selection.Fragment

/-!
What a computation of the selection yields: from a supply a value, the instructions
emitted on the way and the supply that is left. A computation that fails yields nothing.
The lemmas take a computation apart the way it was put together.
-/
namespace SparcBackend.Selection
open Machine (Target)
variable {α β : Type} {supply left : RegisterSupply} {code : List Instruction}

/-- A computation that succeeds from `supply`, with its value, the instructions it emits
    and the supply it leaves. -/
structure Yields (x : Munch α) (supply : RegisterSupply) (value : α) (code : List Instruction)
    (left : RegisterSupply) : Prop where
  outcome : (x supply).outcome = .ok (value,left)
  emitted : (x supply).code = code

theorem yields_pure {a value : α} : Yields (pure a : Munch α) supply value code left ↔ value = a ∧ code = [] ∧ left = supply := by
  constructor
  · rintro ⟨outcome,emitted⟩
    cases outcome
    exact ⟨rfl,emitted.symm,rfl⟩
  · rintro ⟨rfl,rfl,rfl⟩
    exact ⟨rfl,rfl⟩

theorem yields_bind {x : Munch α} {f : α → Munch β} {value : β} : Yields (x >>= f) supply value code left ↔
    ∃ a first mid second, Yields x supply a first mid ∧ Yields (f a) mid value second left ∧ code = first ++ second := by
  show Yields (Munch.andThen x f) supply value code left ↔ _
  constructor
  · rintro ⟨outcome,emitted⟩
    cases came : (x supply).outcome with
    | error e => simp [Munch.andThen,came] at outcome
    | ok pair =>
      obtain ⟨a,mid⟩ := pair
      simp only [Munch.andThen,came] at outcome
      simp only [Munch.andThen,came,Munched.code,List.filterMap_append] at emitted
      exact ⟨a,_,mid,_,⟨came,rfl⟩,⟨outcome,rfl⟩,emitted.symm⟩
  · rintro ⟨a,first,mid,second,⟨came,rfl⟩,⟨outcome,rfl⟩,rfl⟩
    exact ⟨by simp only [Munch.andThen,came,outcome],by simp only [Munch.andThen,came,Munched.code,List.filterMap_append]⟩

theorem not_yields_fail {e : Error} {value : α} : ¬ Yields (Munch.fail e : Munch α) supply value code left := by
  rintro ⟨outcome,_⟩
  cases outcome

theorem yields_enter {s : Statement} {value : Unit} :
    Yields (Munch.enter s) supply value code left ↔ code = [] ∧ left = supply := by
  constructor
  · rintro ⟨outcome,emitted⟩
    cases outcome
    exact ⟨emitted.symm,rfl⟩
  · rintro ⟨rfl,rfl⟩
    exact ⟨rfl,rfl⟩

theorem yields_emit {i : Instruction} {value : Unit} :
    Yields (Munch.emit i) supply value code left ↔ code = [i] ∧ left = supply := by
  constructor
  · rintro ⟨outcome,emitted⟩
    cases outcome
    exact ⟨emitted.symm,rfl⟩
  · rintro ⟨rfl,rfl⟩
    exact ⟨rfl,rfl⟩

theorem yields_fresh {value : Register} :
    Yields Munch.fresh supply value code left ↔ value = supply.create.1 ∧ code = [] ∧ left = supply.create.2 := by
  constructor
  · rintro ⟨outcome,emitted⟩
    cases outcome
    exact ⟨rfl,emitted.symm,rfl⟩
  · rintro ⟨rfl,rfl,rfl⟩
    exact ⟨rfl,rfl⟩

theorem yields_pure_bind {a : α} {f : α → Munch β} {value : β} :
    Yields (pure a >>= f) supply value code left ↔ Yields (f a) supply value code left := by
  simp only [yields_bind,yields_pure]
  constructor
  · rintro ⟨_,_,_,more,⟨rfl,rfl,rfl⟩,rest,rfl⟩
    exact rest
  · intro rest
    exact ⟨a,_,_,code,⟨rfl,rfl,rfl⟩,rest,rfl⟩

theorem not_yields_fail_bind {e : Error} {f : α → Munch β} {value : β} :
    ¬ Yields (Munch.fail e >>= f) supply value code left := by
  intro yields
  obtain ⟨_,_,_,_,failed,_,_⟩ := yields_bind.1 yields
  exact not_yields_fail failed

theorem yields_enter_bind {s : Statement} {x : Munch α} {value : α} :
    Yields (Munch.enter s >>= fun _ => x) supply value code left ↔ Yields x supply value code left := by
  simp only [yields_bind,yields_enter]
  constructor
  · rintro ⟨_,_,_,more,⟨rfl,rfl⟩,rest,rfl⟩
    exact rest
  · intro rest
    exact ⟨(),_,_,code,⟨rfl,rfl⟩,rest,rfl⟩

/-- The instructions of a computation that emits one and goes on. -/
theorem yields_emit_bind {i : Instruction} {x : Munch α} {value : α} :
    Yields (Munch.emit i >>= fun _ => x) supply value code left ↔ ∃ more, Yields x supply value more left ∧ code = i :: more := by
  simp only [yields_bind,yields_emit]
  constructor
  · rintro ⟨_,_,_,more,⟨rfl,rfl⟩,rest,rfl⟩
    exact ⟨more,rest,rfl⟩
  · rintro ⟨more,rest,rfl⟩
    exact ⟨(),_,_,more,⟨rfl,rfl⟩,rest,rfl⟩

/-- The instructions of a computation that mints a register first. -/
theorem yields_fresh_bind {f : Register → Munch α} {value : α} :
    Yields (Munch.fresh >>= f) supply value code left ↔ Yields (f supply.create.1) supply.create.2 value code left := by
  simp only [yields_bind,yields_fresh]
  constructor
  · rintro ⟨_,_,_,more,⟨rfl,rfl,rfl⟩,rest,rfl⟩
    exact rest
  · intro rest
    exact ⟨_,_,_,code,⟨rfl,rfl,rfl⟩,rest,rfl⟩

/-- A line that puts a value into a register minted for it. -/
theorem yields_fresh_emit {line : Register → Instruction} {value : Operand} :
    Yields (Munch.fresh >>= fun r => Munch.emit (line r) >>= fun _ => pure (.register r)) supply value code left ↔
      value = .register supply.create.1 ∧ code = [line supply.create.1] ∧ left = supply.create.2 := by
  rw [yields_fresh_bind,yields_emit_bind]
  constructor
  · rintro ⟨more,rest,rfl⟩
    obtain ⟨rfl,rfl,rfl⟩ := yields_pure.1 rest
    exact ⟨rfl,rfl,rfl⟩
  · rintro ⟨rfl,rfl,rfl⟩
    exact ⟨[],yields_pure.2 ⟨rfl,rfl,rfl⟩,rfl⟩

/-- The filler behind a transfer of control is one line that does nothing. -/
theorem yields_filler {u : Unit} (yields : Yields (Munch.emitFiller .sparc) supply u code left) :
    code = [Machine.nop] ∧ left = supply :=
  yields_emit.1 yields

/-! ### Statements and expressions taken apart -/

section
variable {u : Unit} {value : Operand} {usage : Usage}

/-- Both operands are computed before the lines of a branch, which are always the same five. -/
theorem yields_branch {op : RelOp} {a b : Expression} {ifTrue ifFalse : Label}
    (yields : Yields (tileStatement .sparc (.branch op a b ifTrue ifFalse)) supply u code left) :
    ∃ x first mid y second, Yields (tileExpression .sparc .value a) supply x first mid ∧
      Yields (tileExpression .sparc .value b) mid y second left ∧
      code = first ++ (second ++ [(Machine.compare x y).withNote s!"compare ({x.text}, {y.text})",Machine.branch op ifTrue,Machine.nop,
        Machine.jump ifFalse,Machine.nop]) := by
  rw [tileStatement,yields_enter_bind] at yields
  obtain ⟨x,first,mid,_,one,behind,rfl⟩ := yields_bind.1 yields
  obtain ⟨y,second,_,_,two,tested,rfl⟩ := yields_bind.1 behind
  obtain ⟨_,branched,rfl⟩ := yields_emit_bind.1 tested
  obtain ⟨_,filled,rfl⟩ := yields_emit_bind.1 branched
  obtain ⟨_,_,_,_,filler,jumped,rfl⟩ := yields_bind.1 filled
  obtain ⟨rfl,rfl⟩ := yields_filler filler
  obtain ⟨_,last,rfl⟩ := yields_emit_bind.1 jumped
  obtain ⟨rfl,rfl⟩ := yields_filler last
  exact ⟨x,first,mid,y,second,one,two,rfl⟩

theorem yields_discard {e : Expression} (yields : Yields (tileStatement .sparc (.discard e)) supply u code left) :
    ∃ x, Yields (tileExpression .sparc .discarded e) supply x code left := by
  rw [tileStatement,yields_enter_bind] at yields
  obtain ⟨x,_,_,_,tiled,returned,rfl⟩ := yields_bind.1 yields
  obtain ⟨-,rfl,rfl⟩ := yields_pure.1 returned
  rw [List.append_nil]
  exact ⟨x,tiled⟩

theorem yields_jump {target : Label} (yields : Yields (tileStatement .sparc (.jump target)) supply u code left) :
    code = [Machine.jump target,Machine.nop] ∧ left = supply := by
  rw [tileStatement,yields_enter_bind] at yields
  obtain ⟨_,filled,rfl⟩ := yields_emit_bind.1 yields
  obtain ⟨rfl,rfl⟩ := yields_filler filled
  exact ⟨rfl,rfl⟩

theorem yields_label {name : Label} (yields : Yields (tileStatement .sparc (.label name)) supply u code left) :
    code = [.label name] ∧ left = supply := by
  rw [tileStatement,yields_enter_bind] at yields
  exact yields_emit.1 yields

theorem yields_registerMove {r : Register} {source : Expression}
    (yields : Yields (tileStatement .sparc (.move (.register r) source)) supply u code left) :
    ∃ x first note, Yields (tileExpression .sparc .value source) supply x first left ∧
      code = first ++ [(Machine.move x (.register r)).withNote note] := by
  rw [tileStatement,yields_enter_bind] at yields
  obtain ⟨x,first,_,_,tiled,stored,rfl⟩ := yields_bind.1 yields
  obtain ⟨rfl,rfl⟩ := yields_emit.1 stored
  exact ⟨x,first,_,tiled,rfl⟩

/-- A value is computed before the address of the cell that takes it. -/
theorem yields_memoryMove {address source : Expression}
    (yields : Yields (tileStatement .sparc (.move (.memory address) source)) supply u code left) :
    ∃ x first mid y second note, Yields (tileExpression .sparc .value source) supply x first mid ∧
      Yields (tileExpression .sparc .value address) mid y second left ∧
      code = first ++ (second ++ [(Machine.store x y).withNote note]) := by
  simp only [tileStatement,yields_enter_bind] at yields
  obtain ⟨x,first,mid,_,one,stored,rfl⟩ := yields_bind.1 yields
  split at stored
  · obtain ⟨y,second,_,_,two,emitted,rfl⟩ := yields_bind.1 stored
    obtain ⟨rfl,rfl⟩ := yields_emit.1 emitted
    exact ⟨x,first,mid,y,second,_,one,two,rfl⟩
  · exact absurd stored not_yields_fail

theorem not_yields_move {destination source : Expression} (registers : ∀ r, destination ≠ .register r)
    (cells : ∀ address, destination ≠ .memory address) :
    ¬ Yields (tileStatement .sparc (.move destination source)) supply u code left := by
  intro yields
  cases destination with
  | register r => exact registers r rfl
  | memory address => exact cells address rfl
  | binary | call | constant | name | resultOf | relation =>
    simp only [tileStatement,yields_enter_bind] at yields
    obtain ⟨_,_,_,_,_,failed,-⟩ := yields_bind.1 yields
    exact not_yields_fail failed

/-- All arguments are computed before the first one is put in its place. -/
theorem yields_call {target : Label} {arguments : List Expression}
    (yields : Yields (tileExpression .sparc usage (.call (.name target) arguments)) supply value code left) :
    ∃ xs first mid staging ready called, Yields (tileArguments .sparc arguments) supply xs first mid ∧
      Yields (Munch.stage .sparc 0 xs) mid () staging ready ∧ Yields (Munch.callStaged .sparc target usage) ready value called left ∧
      code = first ++ (staging ++ called) := by
  rw [tileExpression] at yields
  split at yields
  · exact absurd yields not_yields_fail
  · obtain ⟨xs,first,mid,_,tiled,behind,rfl⟩ := yields_bind.1 yields
    obtain ⟨⟨⟩,staging,ready,called,staged,calls,rfl⟩ := yields_bind.1 behind
    exact ⟨xs,first,mid,staging,ready,called,tiled,staged,calls,rfl⟩

theorem not_yields_call {function : Expression} {arguments : List Expression} (unnamed : ∀ target, function ≠ .name target) :
    ¬ Yields (tileExpression .sparc usage (.call function arguments)) supply value code left := by
  intro yields
  cases function with
  | name target => exact unnamed target rfl
  | binary | call | constant | memory | resultOf | register | relation =>
    simp only [tileExpression] at yields
    exact not_yields_fail yields

theorem yields_memory {address : Expression} (yields : Yields (tileExpression .sparc usage (.memory address)) supply value code left) :
    ∃ x first mid more, Yields (tileExpression .sparc .value address) supply x first mid ∧
      Yields (Munch.readCell usage x) mid value more left ∧ code = first ++ more := by
  rw [tileExpression] at yields
  split at yields
  · exact yields_bind.1 yields
  · exact absurd yields not_yields_fail

end

/-- A fragment is the covering of its body, framed or not, with the supply that is left. -/
theorem yields_of_select {t : Target} {p : Procedure} {frames : Bool} {f : CodeFragment}
    (accepted : (select t supply p frames).outcome = .ok f) : ∃ code,
      Yields (tileBody t p.body) (supply.adoptAll (virtualRegisters p.body)) () code f.supply ∧
        if frames then frame? p.toMethod code = some f.code else f.code = code := by
  cases came : (tileBody t p.body (supply.adoptAll (virtualRegisters p.body))).outcome with
  | error e =>
    simp only [select,came] at accepted
    cases accepted
  | ok pair =>
    obtain ⟨⟨⟩,left⟩ := pair
    cases frames with
    | true =>
      simp only [select,came,if_true] at accepted
      cases framed : frame? p.toMethod (tileBody t p.body (supply.adoptAll (virtualRegisters p.body))).code with
      | none =>
        simp only [framed] at accepted
        cases accepted
      | some code =>
        simp only [framed] at accepted
        cases accepted
        exact ⟨_,⟨came,rfl⟩,framed⟩
    | false =>
      simp only [select,came] at accepted
      cases accepted
      exact ⟨_,⟨came,rfl⟩,rfl⟩

end SparcBackend.Selection
