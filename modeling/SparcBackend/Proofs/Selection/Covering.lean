import SparcBackend.Proofs.Machine.DelaySlots
import SparcBackend.Proofs.Selection.Expressions
import SparcBackend.Proofs.Selection.Grammar

/-!
How coverings put code together, said once for all properties of code that do not depend
on the trees. Code is emitted from one supply to another, and behind it values wait for
the line that reads them. A property that every way of going on keeps
(`IsCompositional`) holds of all code that is selected.
-/
namespace SparcBackend.Selection
open Machine (Action Source isPhysical)

/-- A property of code between two supplies and of the values that wait behind it, which is
    kept however the code goes on. `named` are the registers of the trees, `loaded` their
    constants. -/
structure IsCompositional (named : Register → Prop) (loaded : Int → Prop)
    (Holds : RegisterSupply → List Operand → List Instruction → RegisterSupply → Prop) : Prop where
  nil {supply : RegisterSupply} : Holds supply [] [] supply
  append {supply mid left : RegisterSupply} {xs ys : List Operand} {code more : List Instruction} :
    Holds supply xs code mid → Holds mid ys more left → Holds supply (xs ++ ys) (code ++ more) left
  /-- A register that is there, or the address of a label, waits without a line. -/
  operand {supply : RegisterSupply} {x : Operand} : (∀ r, x = .register r → named r ∨ isPhysical r = true) →
    x.asImmediate? = none → Holds supply [x] [] supply
  number {supply : RegisterSupply} {i : Instruction} {n : Int} :
    i.action? = some (.assign supply.create.1 (.operand (.immediate n))) → i.kind = .loadImmediate → loaded n →
      Holds supply [.register supply.create.1] [i] supply.create.2
  /-- A line reads all values that wait and leaves its own in a new register. -/
  fresh {supply mid : RegisterSupply} {source : Source} {code : List Instruction} {i : Instruction} :
    Holds supply source.operands code mid → i.action? = some (.assign mid.create.1 source) →
      Holds supply [.register mid.create.1] (code ++ [i]) mid.create.2
  /-- A line reads the values that have waited longest. -/
  read {supply left : RegisterSupply} {xs : List Operand} {code : List Instruction} {i : Instruction} {a : Action} :
    i.action? = some a → i.IsOrdinary → (∀ d, a.destination? = some d → named d ∨ isPhysical d = true) →
      Holds supply (a.operands ++ xs) code left → Holds supply xs (code ++ [i]) left
  /-- Nobody reads a value. -/
  drop {supply left : RegisterSupply} {xs : List Operand} {code : List Instruction} : Holds supply xs code left →
    Holds supply [] code left
  /-- Control is transferred, and the slot behind it filled. -/
  transfer {supply : RegisterSupply} {i : Instruction} {a : Action} : i.action? = some a → a.operands = [] →
    a.destination? = none → i.isTransfer = true → Holds supply [] [i,Machine.nop] supply

/-- The constants on some nodes are all among those in question. -/
def Numbers (loaded : Int → Prop) (nodes : List Node) : Prop := ∀ n : Int32, .expression (.constant n) ∈ nodes → loaded n.toInt

section
variable {named : Register → Prop} {loaded : Int → Prop}
  {Holds : RegisterSupply → List Operand → List Instruction → RegisterSupply → Prop}
  {supply mid left : RegisterSupply} {xs : List Operand} {code more : List Instruction}

theorem Numbers.mono {nodes part : List Node} (numbers : Numbers loaded nodes) (sub : part ⊆ nodes) : Numbers loaded part :=
  fun n member => numbers n (sub member)

namespace IsCompositional
variable (property : IsCompositional named loaded Holds)
include property

theorem read_all {i : Instruction} {a : Action} (means : i.action? = some a) (ordinary : i.IsOrdinary)
    (writes : ∀ d, a.destination? = some d → named d ∨ isPhysical d = true) (holds : Holds supply a.operands code left) :
    Holds supply [] (code ++ [i]) left := by
  rw [← List.append_nil a.operands] at holds
  exact property.read means ordinary writes holds

/-- A line that reads nothing and writes no register. -/
theorem bare {i : Instruction} {a : Action} (means : i.action? = some a) (looks : a.operands = []) (writes : a.destination? = none)
    (ordinary : i.IsOrdinary) : Holds supply [] [i] supply := by
  have holds : Holds supply a.operands [] supply := by
    rw [looks]
    exact property.nil
  exact property.read_all means ordinary (by simp [writes]) holds

theorem then_transfer {i : Instruction} {a : Action} (holds : Holds supply xs code left) (means : i.action? = some a)
    (looks : a.operands = []) (writes : a.destination? = none) (transfers : i.isTransfer = true) :
    Holds supply xs (code ++ [i,Machine.nop]) left := by
  have more := property.append holds (property.transfer means looks writes transfers)
  rw [List.append_nil] at more
  exact more

theorem fresh_single {source : Source} {value : Operand} (yields : YieldsFresh source mid value more left)
    (holds : Holds supply source.operands code mid) : Holds supply [value] (code ++ more) left := by
  obtain ⟨i,means,rfl,rfl,rfl⟩ := yields
  exact property.fresh holds means

end IsCompositional

/-! ### Coverings -/

section
variable (property : IsCompositional named loaded Holds)
include property

/-- Arguments are moved to their places, the first one first. -/
theorem covered_stage {u : Unit} : ∀ {values : List Operand} {index : Nat} {code more : List Instruction},
    Holds supply values code mid → Yields (Munch.stage .sparc index values) mid u more left → Holds supply [] (code ++ more) left := by
  intro values
  induction values with
  | nil =>
    intro index code more holds yields
    obtain ⟨-,rfl,rfl⟩ := yields_pure.1 yields
    rw [List.append_nil]
    exact holds
  | cons value rest ih =>
    intro index code more holds yields
    obtain ⟨bound,note,later,rfl,others⟩ := yields_stage_cons yields
    have means : ((Machine.move value (.register (outgoing ⟨index,bound⟩))).withNote note).action? =
        some (.assign (outgoing ⟨index,bound⟩) (.operand value)) := by simp
    rw [List.append_cons]
    refine ih (property.read means (Instruction.isOrdinary_of_action means rfl) ?_ holds) others
    intro d is
    cases is
    exact .inr (isPhysical_outgoing _)

theorem covered_callStaged {target : Label} {usage : Usage} {value : Operand} (holds : Holds supply [] code mid)
    (yields : Yields (Munch.callStaged .sparc target usage) mid value more left) : Holds supply [value] (code ++ more) left := by
  have called := property.then_transfer holds (Instruction.action?_call target) rfl rfl rfl
  have waits : Holds mid [.register Machine.callResultRegister] [] mid := by
    refine property.operand ?_ rfl
    intro r is
    cases is
    exact .inr rfl
  have result := property.append called waits
  rw [List.append_nil] at result
  cases usage with
  | value =>
    obtain ⟨copied,rfl,fresh⟩ := yields_callStaged yields
    rw [← List.append_assoc]
    exact property.fresh_single fresh result
  | discarded =>
    obtain ⟨rfl,rfl,rfl⟩ := yields_callStaged_discarded yields
    exact result

theorem covered_readCell {usage : Usage} {address value : Operand} (holds : Holds supply [address] code mid)
    (yields : Yields (Munch.readCell usage address) mid value more left) : Holds supply [value] (code ++ more) left := by
  cases usage with
  | value => exact property.fresh_single (yields_readCell yields) holds
  | discarded =>
    obtain ⟨rfl,rfl,rfl⟩ := yields_pure.1 yields
    rw [List.append_nil]
    exact holds

mutual

theorem covered_statement : ∀ {s : Statement} {supply left : RegisterSupply} {u : Unit} {code : List Instruction},
    Yields (tileStatement .sparc s) supply u code left → (∀ r ∈ s.registers, named r) → Numbers loaded s.nodes →
      Holds supply [] code left
  | .branch op a b ifTrue ifFalse, supply, left, u, code, yields, names, numbers => by
    obtain ⟨x,first,s1,y,second,tiled,tiled',rfl⟩ := yields_branch yields
    have one := covered_expression tiled (fun r member => names r (List.mem_append_left _ member))
      (numbers.mono fun n member => by simp [Statement.nodes,member])
    have two := covered_expression tiled' (fun r member => names r (List.mem_append_right _ member))
      (numbers.mono fun n member => by simp [Statement.nodes,member])
    have means : ((Machine.compare x y).withNote s!"compare ({x.text}, {y.text})").action? = some (.compare x y) := by simp
    have compared := property.read_all means (Instruction.isOrdinary_of_action means rfl) nofun (property.append one two)
    have branches : (Machine.branch op ifTrue).isTransfer = true :=
      Instruction.isTransfer_of_action (Instruction.action?_branch op ifTrue) rfl nofun
    have jumps := property.then_transfer (property.then_transfer compared (Instruction.action?_branch op ifTrue) rfl rfl branches)
      (Instruction.action?_jump ifFalse) rfl rfl rfl
    simpa only [List.append_assoc,List.cons_append,List.nil_append] using jumps
  | .discard value, supply, left, u, code, yields, names, numbers => by
    obtain ⟨_,tiled⟩ := yields_discard yields
    exact property.drop (covered_expression tiled names (numbers.mono fun n member => by simp [Statement.nodes,member]))
  | .jump target, supply, left, u, code, yields, names, numbers => by
    obtain ⟨rfl,rfl⟩ := yields_jump yields
    exact property.transfer (Instruction.action?_jump target) rfl rfl rfl
  | .label name, supply, left, u, code, yields, names, numbers => by
    obtain ⟨rfl,rfl⟩ := yields_label yields
    exact property.bare (a := .label name) rfl rfl rfl (Instruction.isOrdinary_of_action (a := .label name) rfl rfl)
  | .move destination source, supply, left, u, code, yields, names, numbers => by
    have below : Numbers loaded source.nodes := numbers.mono fun n member => by simp [Statement.nodes,member]
    cases destination with
    | register r =>
      obtain ⟨x,first,note,tiled,rfl⟩ := yields_registerMove yields
      have means : ((Machine.move x (.register r)).withNote note).action? = some (.assign r (.operand x)) := by simp
      have one := covered_expression tiled (fun r member => names r (List.mem_append_right _ member)) below
      refine property.read_all means (Instruction.isOrdinary_of_action means rfl) ?_ one
      intro d is
      cases is
      exact .inl (names r (List.mem_append_left _ (List.mem_singleton.2 rfl)))
    | memory address =>
      obtain ⟨x,first,s1,y,second,note,tiled,tiled',rfl⟩ := yields_memoryMove yields
      have one := covered_expression tiled (fun r member => names r (List.mem_append_right _ member)) below
      have two := covered_expression tiled' (fun r member => names r (List.mem_append_left _ member))
        (numbers.mono fun n member => by simp [Statement.nodes,Expression.nodes,member])
      have means : ((Machine.store x y).withNote note).action? = some (.store (.direct y) x) := by simp
      rw [← List.append_assoc]
      exact property.read_all means (Instruction.isOrdinary_of_action means rfl) nofun (property.append one two)
    | binary | call | constant | name | resultOf | relation => exact absurd yields (not_yields_move (by simp) (by simp))
  | .seq first second, supply, left, u, code, yields, names, numbers => by
    rw [tileStatement,yields_enter_bind] at yields
    obtain ⟨_,one,mid,two,tiled,tiled',rfl⟩ := yields_bind.1 yields
    exact property.append
      (covered_statement tiled (fun r member => names r (List.mem_append_left _ member))
        (numbers.mono fun n member => by simp [Statement.nodes,member]))
      (covered_statement tiled' (fun r member => names r (List.mem_append_right _ member))
        (numbers.mono fun n member => by simp [Statement.nodes,member]))

/-- The value of an expression waits behind its instructions. -/
theorem covered_expression : ∀ {e : Expression} {usage : Usage} {supply left : RegisterSupply} {value : Operand}
    {code : List Instruction}, Yields (tileExpression .sparc usage e) supply value code left → (∀ r ∈ e.registers, named r) →
      Numbers loaded e.nodes → Holds supply [value] code left
  | .binary op a b, usage, supply, left, value, code, yields, names, numbers => by
    rw [tileExpression] at yields
    obtain ⟨x,first,s1,_,tiled,behind,rfl⟩ := yields_bind.1 yields
    obtain ⟨y,second,s2,third,tiled',combined,rfl⟩ := yields_bind.1 behind
    have one := covered_expression tiled (fun r member => names r (List.mem_append_left _ member))
      (numbers.mono fun n member => by simp [Expression.nodes,member])
    have two := covered_expression tiled' (fun r member => names r (List.mem_append_right _ member))
      (numbers.mono fun n member => by simp [Expression.nodes,member])
    rw [← List.append_assoc]
    exact property.fresh_single (yields_combine combined) (property.append one two)
  | .call function arguments, usage, supply, left, value, code, yields, names, numbers => by
    cases function with
    | name target =>
      obtain ⟨xs,first,s1,staging,s2,_,tiled,placed,called,rfl⟩ := yields_call yields
      have values := covered_arguments tiled names (numbers.mono fun n member => by simp [Expression.nodes,member])
      rw [← List.append_assoc]
      exact covered_callStaged property (covered_stage property values placed) called
    | binary | call | constant | memory | resultOf | register | relation => exact absurd yields (not_yields_call (by simp))
  | .constant n, usage, supply, left, value, code, yields, names, numbers => by
    rw [tileExpression] at yields
    obtain ⟨i,means,kind,rfl,rfl,rfl⟩ := yields_number yields
    exact property.number means kind (numbers n (List.mem_singleton.2 rfl))
  | .memory address, usage, supply, left, value, code, yields, names, numbers => by
    obtain ⟨x,first,s1,second,tiled,loaded,rfl⟩ := yields_memory yields
    have address := covered_expression tiled names (numbers.mono fun n member => by simp [Expression.nodes,member])
    exact covered_readCell property address loaded
  | .name label, usage, supply, left, value, code, yields, names, numbers => by
    rw [tileExpression] at yields
    have waits : Holds supply [.address label] [] supply := property.operand nofun rfl
    exact property.fresh_single (yields_addressOf yields) waits
  | .resultOf statement e, usage, supply, left, value, code, yields, names, numbers => by
    rw [tileExpression] at yields
    obtain ⟨_,first,s1,second,tiled,tiled',rfl⟩ := yields_bind.1 yields
    exact property.append
      (covered_statement tiled (fun r member => names r (List.mem_append_left _ member))
        (numbers.mono fun n member => by simp [Expression.nodes,member]))
      (covered_expression tiled' (fun r member => names r (List.mem_append_right _ member))
        (numbers.mono fun n member => by simp [Expression.nodes,member]))
  | .register r, usage, supply, left, value, code, yields, names, numbers => by
    rw [tileExpression] at yields
    obtain ⟨rfl,rfl,rfl⟩ := yields_pure.1 yields
    refine property.operand ?_ rfl
    intro x is
    cases is
    exact .inl (names r (List.mem_singleton.2 rfl))
  | .relation _ _ _, usage, supply, left, value, code, yields, names, numbers => by
    rw [tileExpression] at yields
    exact absurd yields not_yields_fail

theorem covered_arguments : ∀ {es : List Expression} {supply left : RegisterSupply} {values : List Operand}
    {code : List Instruction}, Yields (tileArguments .sparc es) supply values code left →
      (∀ r ∈ Expression.allRegisters es, named r) → Numbers loaded (Expression.allNodes es) → Holds supply values code left
  | [], supply, left, values, code, yields, names, numbers => by
    rw [tileArguments] at yields
    obtain ⟨rfl,rfl,rfl⟩ := yields_pure.1 yields
    exact property.nil
  | e :: rest, supply, left, values, code, yields, names, numbers => by
    rw [tileArguments] at yields
    obtain ⟨x,first,s1,_,tiled,behind,rfl⟩ := yields_bind.1 yields
    obtain ⟨xs,second,s2,_,tiled',returned,rfl⟩ := yields_bind.1 behind
    obtain ⟨rfl,rfl,rfl⟩ := yields_pure.1 returned
    rw [List.append_nil]
    exact property.append
      (covered_expression tiled (fun r member => names r (List.mem_append_left _ member))
        (numbers.mono fun n member => by simp [Expression.allNodes,member]))
      (covered_arguments tiled' (fun r member => names r (List.mem_append_right _ member))
        (numbers.mono fun n member => by simp [Expression.allNodes,member]))

end

theorem covered_body : ∀ {body : List Statement} {supply left : RegisterSupply} {u : Unit} {code : List Instruction},
    Yields (tileBody .sparc body) supply u code left → (∀ r ∈ body.flatMap Statement.registers, named r) →
      Numbers loaded (body.flatMap Statement.nodes) → Holds supply [] code left := by
  intro body
  induction body with
  | nil =>
    intro supply left u code yields _ _
    obtain ⟨-,rfl,rfl⟩ := yields_pure.1 yields
    exact property.nil
  | cons s rest ih =>
    intro supply left u code yields names numbers
    rw [tileBody] at yields
    rw [List.flatMap_cons] at names numbers
    obtain ⟨_,one,mid,two,tiled,others,rfl⟩ := yields_bind.1 yields
    exact property.append
      (covered_statement property tiled (fun r member => names r (List.mem_append_left _ member))
        (numbers.mono (List.subset_append_left _ _)))
      (ih others (fun r member => names r (List.mem_append_right _ member)) (numbers.mono (List.subset_append_right _ _)))

theorem covered_frame {m : Method} {framed : List Instruction} (is : frame? m code = some framed)
    (holds : Holds supply [] code left) : Holds supply [] framed left := by
  have line {s : RegisterSupply} {i : Instruction} {a : Action} (means : i.action? = some a) (ordinary : i.IsOrdinary)
      (looks : a.operands = []) (writes : a.destination? = none) : Holds s [] [i] s := property.bare means looks writes ordinary
  have label (s : RegisterSupply) (name : Label) : Holds s [] [.label name] s :=
    line (a := .label name) rfl (Instruction.isOrdinary_of_action (a := .label name) rfl rfl) rfl rfl
  have special {s : RegisterSupply} {i : Instruction} (text : String) (means : i.action? = some (.special text)) :
      Holds s [] [i] s := line means (Instruction.isOrdinary_of_action means rfl) rfl rfl
  have remark (s : RegisterSupply) (text : String) : Holds s [] [.comment text] s :=
    line (a := .skip) rfl (by constructor <;> simp [Instruction.isTransfer]) rfl rfl
  obtain ⟨prologue,opened,rfl⟩ := Option.map_eq_some_iff.1 is
  have before : Holds supply [] prologue supply := by
    unfold Machine.prologue? at opened
    split at opened
    · cases opened
      exact property.append (label supply _) (property.append (remark supply _) (remark supply _))
    · obtain ⟨size,-,rfl⟩ := Option.map_eq_some_iff.1 opened
      exact property.append (label supply _) (special _ ((Instruction.action?_withNote _ _).trans (Instruction.action?_save size)))
  have behind : Holds left [] (Machine.epilogue m) left := by
    unfold Machine.epilogue
    split
    · exact property.append (label left _)
        (property.append (special "clr %o0" rfl) (property.transfer (Instruction.action?_call _) rfl rfl rfl))
    · exact property.append (label left _) (property.append (special "ret" rfl) (special "restore" rfl))
  exact property.append (property.append before holds) behind

/-- A property of this kind holds of every method that is selected. -/
theorem IsCompositional.select {supply : RegisterSupply} {p : Procedure} {frames : Bool} {f : CodeFragment}
    (accepted : (Selection.select .sparc supply p frames).outcome = .ok f)
    (names : ∀ r ∈ p.body.flatMap Statement.registers, named r) (numbers : Numbers loaded (p.body.flatMap Statement.nodes)) :
    Holds (supply.adoptAll (virtualRegisters p.body)) [] f.code f.supply := by
  obtain ⟨code,yields,framed⟩ := yields_of_select accepted
  have body := covered_body property yields names numbers
  cases frames with
  | true => exact covered_frame property framed body
  | false => exact framed ▸ body

end
end

end SparcBackend.Selection
