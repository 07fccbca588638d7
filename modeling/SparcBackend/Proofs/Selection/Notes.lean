import SparcBackend.Proofs.Asm.Note
import SparcBackend.Proofs.Machine.Action
import SparcBackend.Proofs.Selection.Yielding

/-!
The notes that selected lines carry. A line that reads an operand spells out what it
does, in words and mentions of its operands (`isAnnotated_of_select`).
-/
namespace SparcBackend
open Machine (Action Source)

/-- How a note spells out what a selected line does. -/
inductive Machine.Action.Spells : Action → Note → Prop
  | operand {d : Register} {value : Operand} :
      Spells (.assign d (.operand value)) [.mention value,.word " -> ",.mention (.register d)]
  | address {d : Register} {label : Label} :
      Spells (.assign d (.operand (.address label))) [.word "&",.mention (.address label),.word " -> ",.mention (.register d)]
  | binary {d : Register} {op : BinaryOp} {left right : Operand} : Spells (.assign d (.binary op left right))
      [.word "(",.mention left,.word s!" {op.symbol} ",.mention right,.word ") -> ",.mention (.register d)]
  | load {d : Register} {address : Operand} : Spells (.assign d (.load (.direct address)))
      [.word "*(",.mention address,.word ") -> ",.mention (.register d)]
  | store {value address : Operand} : Spells (.store (.direct address) value)
      [.mention value,.word " -> *(",.mention address,.word ")"]
  | compare {left right : Operand} : Spells (.compare left right)
      [.word "compare (",.mention left,.word ", ",.mention right,.word ")"]

namespace Instruction

/-- If the line reads an operand, its note spells out what it does. -/
def IsAnnotated (i : Instruction) : Prop :=
  i.uses ≠ [] → ∃ a note, i.action? = some a ∧ a.Spells note ∧ i.note? = some note.text

theorem isAnnotated_of_uses {i : Instruction} (bare : i.uses = []) : i.IsAnnotated := fun reads => absurd bare reads

theorem isAnnotated_withNote {i : Instruction} {a : Action} {note : Note} {text : String} (means : i.action? = some a)
    (isOperation : i.isMarker = false) (spells : a.Spells note) (is : text = note.text) : (i.withNote text).IsAnnotated :=
  fun _ => ⟨a,note,(action?_withNote i text).trans means,spells,is ▸ note?_withNote isOperation text⟩

end Instruction

/-- What spells out an action mentions its operands only. -/
theorem Machine.Action.Spells.isSpelt {a : Action} {note : Note} (spells : a.Spells note) :
    note.IsSpelt (a.destination?.toList.map .register ++ a.place ++ a.values) := by
  cases spells with
  | @binary d op left right =>
    have word : s!" {op.symbol} " ∈ Note.words := by cases op <;> decide
    have blank : (s!" {op.symbol} ").toList.head? = some ' ' := by cases op <;> rfl
    exact ⟨by decide,by simp [values,Source.operands],⟨' ',blank,rfl⟩,word,by simp [values,Source.operands],⟨')',rfl,rfl⟩,
      by decide,by simp [destination?],trivial,trivial⟩
  | operand | address | load | store | compare =>
    simp [Note.IsSpelt,Note.IsApart,Note.isDelimiter,Note.words,destination?,place,values,Source.operands,
      Machine.Address.operands]

namespace Selection
variable {α β : Type} {P : Instruction → Prop}

/-- All lines that a computation emits are of a kind, whether it fails in the end or not. -/
def OnlyEmits (P : Instruction → Prop) (x : Munch α) : Prop := ∀ supply, ∀ i ∈ (x supply).code, P i

namespace OnlyEmits

theorem pure (a : α) : OnlyEmits P (pure a : Munch α) := fun _ _ member => absurd member List.not_mem_nil

theorem fail (e : Error) : OnlyEmits P (Munch.fail e : Munch α) := fun _ _ member => absurd member List.not_mem_nil

theorem enter (s : Statement) : OnlyEmits P (Munch.enter s) := fun _ _ member => absurd member List.not_mem_nil

theorem fresh : OnlyEmits P Munch.fresh := fun _ _ member => absurd member List.not_mem_nil

theorem emit {i : Instruction} (is : P i) : OnlyEmits P (Munch.emit i) := fun _ _ member => List.mem_singleton.1 member ▸ is

theorem accessRegister (access : Expression) : OnlyEmits P (Munch.accessRegister access) := by
  unfold Munch.accessRegister
  split
  · exact pure _
  · exact fail _

theorem bind {x : Munch α} {f : α → Munch β} (first : OnlyEmits P x) (next : ∀ a, OnlyEmits P (f a)) : OnlyEmits P (x >>= f) := by
  intro supply i member
  change i ∈ (Munch.andThen x f supply).code at member
  unfold Munch.andThen at member
  have front := first supply
  cases came : (x supply).outcome with
  | error e =>
    simp only [came] at member
    exact front i member
  | ok pair =>
    simp only [came,Munched.code,List.filterMap_append] at member
    rcases List.mem_append.1 member with early | late
    · exact front i early
    · exact next pair.1 pair.2 i late

end OnlyEmits

open OnlyEmits

/-! ### The parts of a covering -/

theorem annotated_filler : OnlyEmits Instruction.IsAnnotated (Munch.emitFiller .sparc) :=
  emit (Instruction.isAnnotated_of_uses rfl)

theorem annotated_copy (value : Operand) (d : Register) : OnlyEmits Instruction.IsAnnotated (Munch.copy value (.register d)) := by
  refine emit (Instruction.isAnnotated_withNote (Instruction.action?_move value d) rfl .operand ?_)
  simp [Operand.text,toString,String.append_assoc]

theorem annotated_constant (n : Int) : OnlyEmits Instruction.IsAnnotated (Munch.constant n) := by
  refine fresh.bind fun d => (emit ?_).bind fun _ => pure _
  refine Instruction.isAnnotated_withNote (Instruction.action?_loadImmediate n d) rfl .operand ?_
  simp [Operand.text,toString,String.append_assoc]

theorem annotated_addressOf (label : Label) : OnlyEmits Instruction.IsAnnotated (Munch.addressOf label) := by
  refine fresh.bind fun d => (emit ?_).bind fun _ => pure _
  refine Instruction.isAnnotated_withNote (Instruction.action?_loadAddress label d) rfl .address ?_
  simp [Operand.text,toString,String.append_assoc]

theorem annotated_readCell (usage : Usage) (address : Operand) :
    OnlyEmits Instruction.IsAnnotated (Munch.readCell usage address) := by
  cases usage with
  | value =>
    refine fresh.bind fun d => (emit ?_).bind fun _ => pure _
    refine Instruction.isAnnotated_withNote (Instruction.action?_load address d) rfl .load ?_
    simp [Operand.text,toString,String.append_assoc]
  | discarded => exact pure _

theorem annotated_combine (op : BinaryOp) (left right : Operand) :
    OnlyEmits Instruction.IsAnnotated (Munch.combine .sparc op left right) := by
  refine fresh.bind fun d => ?_
  split
  · rename_i i selected
    refine (emit ?_).bind fun _ => pure _
    have means : i.action? = _ := Instruction.action?_binary selected
    have isOperation : i.isMarker = false := by
      obtain ⟨_,-,rfl⟩ := Option.map_eq_some_iff.1 (show Machine.binary? op left right d = some i from selected)
      rfl
    refine Instruction.isAnnotated_withNote means isOperation .binary ?_
    simp [Operand.text,toString,String.append_assoc]
  · exact fail _

theorem annotated_stage (values : List Operand) (index : Nat) :
    OnlyEmits Instruction.IsAnnotated (Munch.stage .sparc index values) := by
  induction values generalizing index with
  | nil => exact pure _
  | cons value rest ih =>
    rw [Munch.stage]
    split
    · exact (accessRegister _).bind fun d => (annotated_copy value d).bind fun _ => ih _
    · exact (fail _).bind fun _ => ih _

theorem annotated_callStaged (target : Label) (usage : Usage) :
    OnlyEmits Instruction.IsAnnotated (Munch.callStaged .sparc target usage) := by
  refine (emit (Instruction.isAnnotated_of_uses rfl)).bind fun _ => annotated_filler.bind fun _ => (accessRegister _).bind fun source => ?_
  split
  · exact pure _
  · exact fresh.bind fun d => (annotated_copy _ d).bind fun _ => pure _

/-! ### Statements and expressions -/

mutual

theorem annotated_statement : ∀ s : Statement, OnlyEmits Instruction.IsAnnotated (tileStatement .sparc s)
  | .branch op left right ifTrue ifFalse => by
    rw [tileStatement]
    refine (enter _).bind fun _ => (annotated_expression .value left).bind fun x => (annotated_expression .value right).bind fun y => ?_
    refine (emit ?_).bind fun _ => (emit ?_).bind fun _ => annotated_filler.bind fun _ => (emit ?_).bind fun _ => annotated_filler
    · refine Instruction.isAnnotated_withNote (Instruction.action?_compare x y) rfl .compare ?_
      simp [Operand.text,toString,String.append_assoc]
    · exact Instruction.isAnnotated_of_uses rfl
    · exact Instruction.isAnnotated_of_uses rfl
  | .discard value => by
    rw [tileStatement]
    exact (enter _).bind fun _ => (annotated_expression .discarded value).bind fun _ => pure _
  | .jump target => by
    rw [tileStatement]
    exact (enter _).bind fun _ => (emit (Instruction.isAnnotated_of_uses rfl)).bind fun _ => annotated_filler
  | .label name => by
    rw [tileStatement]
    exact (enter _).bind fun _ => emit (Instruction.isAnnotated_of_uses rfl)
  | .move destination source => by
    rw [tileStatement]
    refine (enter _).bind fun _ => (annotated_expression .value source).bind fun value => ?_
    cases destination with
    | register r => exact annotated_copy value r
    | memory address =>
      simp only
      split
      · refine (annotated_expression .value address).bind fun place => emit ?_
        refine Instruction.isAnnotated_withNote (Instruction.action?_store value place) rfl .store ?_
        simp [Operand.text,toString,String.append_assoc]
      · exact fail _
    | binary | call | constant | name | resultOf | relation => exact fail _
  | .seq first second => by
    rw [tileStatement]
    exact (enter _).bind fun _ => (annotated_statement first).bind fun _ => annotated_statement second

theorem annotated_expression : ∀ (usage : Usage) (e : Expression),
    OnlyEmits Instruction.IsAnnotated (tileExpression .sparc usage e)
  | usage, .binary op left right => by
    rw [tileExpression]
    exact (annotated_expression .value left).bind fun x => (annotated_expression .value right).bind fun y => annotated_combine op x y
  | usage, .call function arguments => by
    cases function with
    | name target =>
      rw [tileExpression]
      split
      · exact fail _
      · exact (annotated_arguments arguments).bind fun values => (annotated_stage values 0).bind fun _ => annotated_callStaged target usage
    | binary | call | constant | memory | resultOf | register | relation =>
      simp only [tileExpression]
      exact fail _
  | usage, .constant value => by
    rw [tileExpression]
    exact annotated_constant _
  | usage, .memory address => by
    rw [tileExpression]
    split
    · exact (annotated_expression .value address).bind fun place => annotated_readCell usage place
    · exact fail _
  | usage, .name label => by
    rw [tileExpression]
    exact annotated_addressOf label
  | usage, .resultOf statement value => by
    rw [tileExpression]
    exact (annotated_statement statement).bind fun _ => annotated_expression usage value
  | usage, .register r => by
    rw [tileExpression]
    exact pure _
  | usage, .relation _ _ _ => by
    rw [tileExpression]
    exact fail _

theorem annotated_arguments : ∀ es : List Expression, OnlyEmits Instruction.IsAnnotated (tileArguments .sparc es)
  | [] => by
    rw [tileArguments]
    exact pure _
  | e :: rest => by
    rw [tileArguments]
    exact (annotated_expression .value e).bind fun _ => (annotated_arguments rest).bind fun _ => pure _

end

theorem annotated_body (body : List Statement) : OnlyEmits Instruction.IsAnnotated (tileBody .sparc body) := by
  induction body with
  | nil => exact pure _
  | cons s rest ih => exact (annotated_statement s).bind fun _ => ih

/-- The lines that open and leave a frame read nothing. -/
theorem uses_frame {m : Method} {code framed : List Instruction} (is : frame? m code = some framed) :
    ∀ i ∈ framed, i ∈ code ∨ i.uses = [] := by
  obtain ⟨prologue,opened,rfl⟩ := Option.map_eq_some_iff.1 is
  have before : ∀ i ∈ prologue, i.uses = [] := by
    unfold Machine.prologue? at opened
    split at opened
    · cases opened
      simp only [List.forall_mem_cons]
      exact ⟨rfl,rfl,rfl,fun _ member => absurd member List.not_mem_nil⟩
    · obtain ⟨size,-,rfl⟩ := Option.map_eq_some_iff.1 opened
      simp only [List.forall_mem_cons]
      exact ⟨rfl,rfl,fun _ member => absurd member List.not_mem_nil⟩
  have behind : ∀ i ∈ Machine.epilogue m, i.uses = [] := by
    unfold Machine.epilogue
    split <;> simp only [List.forall_mem_cons]
    · exact ⟨rfl,rfl,rfl,rfl,fun _ member => absurd member List.not_mem_nil⟩
    · exact ⟨rfl,rfl,rfl,fun _ member => absurd member List.not_mem_nil⟩
  intro i member
  rcases List.mem_append.1 member with front | last
  · rcases List.mem_append.1 front with first | inside
    · exact .inr (before i first)
    · exact .inl inside
  · exact .inr (behind i last)

/-- Every selected line that reads an operand spells out what it does. -/
theorem isAnnotated_of_select {supply : RegisterSupply} {p : Procedure} {frames : Bool} {f : CodeFragment}
    (accepted : (select .sparc supply p frames).outcome = .ok f) : ∀ i ∈ f.code, i.IsAnnotated := by
  obtain ⟨code,⟨-,rfl⟩,framed⟩ := yields_of_select accepted
  have body := annotated_body p.body (supply.adoptAll (virtualRegisters p.body))
  cases frames with
  | true =>
    intro i member
    rcases uses_frame framed i member with inside | bare
    · exact body i inside
    · exact Instruction.isAnnotated_of_uses bare
  | false =>
    simp only [Bool.false_eq_true,if_false] at framed
    exact framed ▸ body

end Selection

end SparcBackend
