import Mathlib.Tactic.Common
import SparcBackend.Selection.Fragment

/-!
The bodies that have instructions, and the error of those that have none. Whether a body
is covered is decided node by node: a node is legal or not by what it is and by the kind
of its children, and the nodes are looked at in the order in which they are covered. The
first that is not legal ends the selection.
-/
namespace SparcBackend

/-- A statement or an expression somewhere in a body. -/
inductive Node where
  | statement (s : Statement)
  | expression (e : Expression)

/-! ### Nodes in the order in which they are covered -/

mutual

/-- A statement with everything below it. Of a move the source comes before the statement
    itself, and the destination behind it. -/
def Statement.nodes : Statement → List Node
  | .branch op left right ifTrue ifFalse =>
    left.nodes ++ right.nodes ++ [.statement (.branch op left right ifTrue ifFalse)]
  | .discard value => value.nodes ++ [.statement (.discard value)]
  | .jump target => [.statement (.jump target)]
  | .label name => [.statement (.label name)]
  | .move destination source => source.nodes ++ .statement (.move destination source) :: destination.nodes
  | .seq first second => first.nodes ++ second.nodes ++ [.statement (.seq first second)]

/-- An expression with everything below it. An operator comes behind its operands; calls,
    memory cells and comparisons come before what they contain. -/
def Expression.nodes : Expression → List Node
  | .binary op left right => left.nodes ++ right.nodes ++ [.expression (.binary op left right)]
  | .call function arguments =>
    .expression (.call function arguments) :: (function.nodes ++ Expression.allNodes arguments)
  | .constant value => [.expression (.constant value)]
  | .memory address => .expression (.memory address) :: address.nodes
  | .name label => [.expression (.name label)]
  | .resultOf statement value => statement.nodes ++ value.nodes ++ [.expression (.resultOf statement value)]
  | .register r => [.expression (.register r)]
  | .relation op left right => .expression (.relation op left right) :: (left.nodes ++ right.nodes)

def Expression.allNodes : List Expression → List Node
  | [] => []
  | e :: rest => e.nodes ++ Expression.allNodes rest

end

namespace Node
open Selection (Error)

/-! ### Legal nodes -/

/-- What the grammar asks of a node. A value goes to a register or into memory, an address
    is a register, an operator's result or the contents of memory, a call names its target
    and passes six arguments at most, no comparison is a value, and nothing is divided. -/
def IsLegal : Node → Prop
  | .statement (.move destination _) => (∃ r, destination = .register r) ∨ ∃ address, destination = .memory address
  | .expression (.memory address) =>
    (∃ r, address = .register r) ∨ (∃ op left right, address = .binary op left right) ∨ ∃ inner, address = .memory inner
  | .expression (.call function arguments) => (∃ target, function = .name target) ∧ arguments.length ≤ 6
  | .expression (.relation ..) => False
  | .expression (.binary op _ _) => op ≠ .div
  | _ => True

/-- The error of a node that is not legal; of a call the target is looked at first. -/
def error? : Node → Option Error
  | .statement (.move (.register _) _) | .statement (.move (.memory _) _) => none
  | .statement (.move destination source) => some (.badDestination (.move destination source))
  | .expression (.memory (.register _)) | .expression (.memory (.binary ..)) | .expression (.memory (.memory _)) => none
  | .expression (.memory address) => some (.badMemoryChild (.memory address))
  | .expression (.call (.name _) arguments) =>
    if 6 < arguments.length then some (.access (.tooManyArguments arguments.length 6)) else none
  | .expression (.call function _) => some (.badCallTarget function)
  | .expression (.relation op left right) => some (.relationAsValue (.relation op left right))
  | .expression (.binary .div _ _) => some (.unsupportedOperator .div "sparc")
  | _ => none

theorem error?_eq_none_iff {n : Node} : n.error? = none ↔ n.IsLegal := by
  cases n with
  | statement s =>
    cases s with
    | move destination source => cases destination <;> simp [error?,IsLegal]
    | branch | discard | jump | label | seq => simp [error?,IsLegal]
  | expression e =>
    cases e with
    | binary op left right => cases op <;> simp [error?,IsLegal]
    | call function arguments => cases function <;> simp [error?,IsLegal]
    | memory address => cases address <;> simp [error?,IsLegal]
    | constant | name | resultOf | register | relation => simp [error?,IsLegal]

end Node

namespace Selection
variable {α β : Type} {nodes more : List Node}

/-! ### Coverings that are judged by their nodes -/

/-- A covering fails with the error of the first node that is not legal; it has a value,
    of which something holds, if all are. -/
def Judged (nodes : List Node) (x : Munch α) (holds : α → Prop) : Prop :=
  ∀ supply, match nodes.findSome? Node.error? with
    | none => ∃ a left, (x supply).outcome = .ok (a,left) ∧ holds a
    | some e => (x supply).outcome = .error e

theorem Judged.pure {a : α} {holds : α → Prop} (is : holds a) : Judged [] (pure a) holds :=
  fun supply => ⟨a,supply,rfl,is⟩

theorem Judged.bind {x : Munch α} {f : α → Munch β} {holds : α → Prop} {later : β → Prop} (first : Judged nodes x holds)
    (next : ∀ a, holds a → Judged more (f a) later) : Judged (nodes ++ more) (x >>= f) later := by
  intro supply
  have judged := first supply
  show match (nodes ++ more).findSome? Node.error? with
    | none => ∃ b left, (Munch.andThen x f supply).outcome = .ok (b,left) ∧ later b
    | some e => (Munch.andThen x f supply).outcome = .error e
  rw [List.findSome?_append]
  cases found : nodes.findSome? Node.error? with
  | some e =>
    rw [found] at judged
    simp only [Option.some_or,Munch.andThen,judged]
  | none =>
    rw [found] at judged
    obtain ⟨a,left,came,is⟩ := judged
    simp only [Option.none_or,Munch.andThen,came]
    exact next a is left

theorem Judged.legal {n : Node} {x : Munch α} {holds : α → Prop} (is : n.IsLegal) (judged : Judged nodes x holds) :
    Judged (n :: nodes) x holds := by
  intro supply
  rw [List.findSome?_cons,Node.error?_eq_none_iff.2 is]
  exact judged supply

theorem Judged.legal_last {n : Node} {x : Munch α} {holds : α → Prop} (is : n.IsLegal) (judged : Judged nodes x holds) :
    Judged (nodes ++ [n]) x holds := by
  intro supply
  rw [List.findSome?_append,List.findSome?_singleton,Node.error?_eq_none_iff.2 is,Option.or_none]
  exact judged supply

theorem Judged.fail {n : Node} {e : Error} {holds : α → Prop} (is : n.error? = some e) :
    Judged (n :: nodes) (Munch.fail e) holds := by
  intro supply
  rw [List.findSome?_cons,is]
  rfl

theorem judged_enter (s : Statement) : Judged [] (Munch.enter s) fun _ => True := fun supply => ⟨(),supply,rfl,trivial⟩

theorem judged_emit (i : Instruction) : Judged [] (Munch.emit i) fun _ => True := fun supply => ⟨(),supply,rfl,trivial⟩

theorem judged_fresh : Judged [] Munch.fresh fun _ => True := fun _ => ⟨_,_,rfl,trivial⟩

theorem judged_accessRegister (r : Register) : Judged [] (Munch.accessRegister (.register r)) fun _ => True :=
  .pure trivial

theorem judged_filler : Judged [] (Munch.emitFiller .sparc) fun _ => True := judged_emit Machine.nop

theorem judged_copy (value destination : Operand) : Judged [] (Munch.copy value destination) fun _ => True := judged_emit _

theorem judged_constant (n : Int) : Judged [] (Munch.constant n) fun _ => True :=
  judged_fresh.bind fun _ _ => (judged_emit _).bind fun _ _ => .pure trivial

theorem judged_addressOf (label : Label) : Judged [] (Munch.addressOf label) fun _ => True :=
  judged_fresh.bind fun _ _ => (judged_emit _).bind fun _ _ => .pure trivial

theorem judged_readCell (usage : Usage) (address : Operand) : Judged [] (Munch.readCell usage address) fun _ => True := by
  cases usage with
  | value => exact judged_fresh.bind fun _ _ => (judged_emit _).bind fun _ _ => .pure trivial
  | discarded => exact .pure trivial

/-- Every operator but division has an instruction. -/
theorem judged_combine (op : BinaryOp) (left right : Expression) (x y : Operand) :
    Judged [.expression (.binary op left right)] (Munch.combine .sparc op x y) fun _ => True := by
  by_cases division : op = .div
  · subst division
    exact judged_fresh.bind fun _ _ => .fail rfl
  · refine Judged.legal division (judged_fresh.bind fun r _ => ?_)
    have selected : ∃ i, Machine.Target.sparc.binary? op x y r = some i := by
      cases op with
      | div => exact absurd rfl division
      | _ => exact ⟨_,rfl⟩
    obtain ⟨i,selected⟩ := selected
    rw [selected]
    exact (judged_emit _).bind fun _ _ => .pure trivial

/-- There is a place for each of six arguments. -/
theorem judged_stage : ∀ {values : List Operand} {index : Nat}, index + values.length ≤ 6 →
    Judged [] (Munch.stage .sparc index values) fun _ => True := by
  intro values
  induction values with
  | nil => exact fun _ => .pure trivial
  | cons value rest ih =>
    intro index bound
    rw [List.length_cons] at bound
    have place : Machine.Target.sparc.outgoing index = .ok (.register (Machine.groupRegister 'o' index)) := by
      have inside : index < Machine.argumentRegisters := by
        unfold Machine.argumentRegisters
        omega
      exact if_pos inside
    rw [Munch.stage,place]
    exact (judged_accessRegister _).bind fun _ _ => (judged_copy _ _).bind fun _ _ => ih (by omega)

theorem judged_callStaged (target : Label) (usage : Usage) : Judged [] (Munch.callStaged .sparc target usage) fun _ => True := by
  refine (judged_emit _).bind fun _ _ => judged_filler.bind fun _ _ => (judged_accessRegister _).bind fun _ _ => ?_
  cases usage with
  | value => exact judged_fresh.bind fun _ _ => (judged_copy _ _).bind fun _ _ => .pure trivial
  | discarded => exact .pure trivial

/-! ### Statements and expressions -/

theorem isAddress_iff {address : Expression} : isAddress address = true ↔ (Node.expression (.memory address)).IsLegal := by
  cases address <;> simp [isAddress,Node.IsLegal]

theorem error?_of_not_isAddress {address : Expression} (refused : ¬ isAddress address = true) :
    (Node.expression (.memory address)).error? = some (.badMemoryChild (.memory address)) := by
  cases address with
  | register | binary | memory => exact absurd rfl refused
  | call | constant | name | resultOf | relation => rfl

mutual

theorem judged_statement : ∀ s : Statement, Judged s.nodes (tileStatement .sparc s) fun _ => True
  | .branch op left right ifTrue ifFalse => by
    rw [tileStatement,Statement.nodes,List.append_assoc]
    refine (judged_enter _).bind fun _ _ => (judged_expression .value left).bind fun x _ =>
      (judged_expression .value right).bind fun y _ => Judged.legal trivial ?_
    exact (judged_emit _).bind fun _ _ => (judged_emit _).bind fun _ _ => judged_filler.bind fun _ _ =>
      (judged_emit _).bind fun _ _ => judged_filler
  | .discard value => by
    rw [tileStatement,Statement.nodes]
    exact (judged_enter _).bind fun _ _ => (judged_expression .discarded value).bind fun _ _ =>
      Judged.legal trivial (.pure trivial)
  | .jump target => by
    rw [tileStatement,Statement.nodes]
    exact (judged_enter _).bind fun _ _ => (judged_emit _).bind fun _ _ => Judged.legal trivial judged_filler
  | .label name => by
    rw [tileStatement,Statement.nodes]
    exact (judged_enter _).bind fun _ _ => Judged.legal trivial (judged_emit _)
  | .move destination source => by
    rw [tileStatement,Statement.nodes]
    refine (judged_enter _).bind fun _ _ => (judged_expression .value source).bind fun value _ => ?_
    cases destination with
    | register r => exact Judged.legal (.inl ⟨r,rfl⟩) (Judged.legal trivial (judged_copy _ _))
    | memory address =>
      refine Judged.legal (.inr ⟨address,rfl⟩) ?_
      rw [Expression.nodes]
      simp only
      split
      · rename_i accepted
        refine Judged.legal (isAddress_iff.1 accepted) ?_
        rw [← List.append_nil address.nodes]
        exact (judged_expression .value address).bind fun _ _ => judged_emit _
      · rename_i refused
        exact .fail (error?_of_not_isAddress refused)
    | binary | call | constant | name | resultOf | relation => exact .fail rfl
  | .seq first second => by
    rw [tileStatement,Statement.nodes]
    exact Judged.legal_last trivial <| (judged_enter _).bind fun _ _ => (judged_statement first).bind fun _ _ =>
      judged_statement second

theorem judged_expression : ∀ (usage : Usage) (e : Expression), Judged e.nodes (tileExpression .sparc usage e) fun _ => True
  | usage, .binary op left right => by
    rw [tileExpression,Expression.nodes,List.append_assoc]
    exact (judged_expression .value left).bind fun _ _ => (judged_expression .value right).bind fun _ _ =>
      judged_combine op left right _ _
  | usage, .call function arguments => by
    cases function with
    | name target =>
      rw [tileExpression,Expression.nodes]
      split
      · rename_i many
        exact .fail (if_pos many)
      · rename_i few
        have bound : arguments.length ≤ 6 := Nat.le_of_not_lt few
        refine Judged.legal ⟨⟨target,rfl⟩,bound⟩ ?_
        rw [Expression.nodes,← List.append_nil (Expression.allNodes arguments)]
        refine Judged.legal trivial ((judged_arguments arguments).bind fun values length => ?_)
        exact (judged_stage (by omega)).bind fun _ _ => judged_callStaged target usage
    | binary | call | constant | memory | resultOf | register | relation =>
      simp only [tileExpression]
      exact .fail rfl
  | usage, .constant n => by
    rw [tileExpression,Expression.nodes]
    exact Judged.legal trivial (judged_constant _)
  | usage, .memory address => by
    rw [tileExpression,Expression.nodes]
    split
    · rename_i accepted
      refine Judged.legal (isAddress_iff.1 accepted) ?_
      rw [← List.append_nil address.nodes]
      exact (judged_expression .value address).bind fun _ _ => judged_readCell usage _
    · rename_i refused
      exact .fail (error?_of_not_isAddress refused)
  | usage, .name label => by
    rw [tileExpression,Expression.nodes]
    exact Judged.legal trivial (judged_addressOf label)
  | usage, .resultOf statement value => by
    rw [tileExpression,Expression.nodes]
    exact Judged.legal_last trivial <| (judged_statement statement).bind fun _ _ => judged_expression usage value
  | usage, .register r => by
    rw [tileExpression,Expression.nodes]
    exact Judged.legal trivial (.pure trivial)
  | usage, .relation op left right => by
    rw [tileExpression,Expression.nodes]
    exact .fail rfl

theorem judged_arguments : ∀ es : List Expression,
    Judged (Expression.allNodes es) (tileArguments .sparc es) fun values => values.length = es.length
  | [] => by
    rw [tileArguments,Expression.allNodes]
    exact .pure rfl
  | e :: rest => by
    rw [tileArguments,Expression.allNodes,← List.append_nil (Expression.allNodes rest)]
    refine (judged_expression .value e).bind fun _ _ => (judged_arguments rest).bind fun values length => .pure ?_
    rw [List.length_cons,length,List.length_cons]

end

theorem judged_body (body : List Statement) : Judged (body.flatMap Statement.nodes) (tileBody .sparc body) fun _ => True := by
  induction body with
  | nil => exact .pure trivial
  | cons s rest ih =>
    rw [tileBody,List.flatMap_cons]
    exact (judged_statement s).bind fun _ _ => ih

theorem findSome?_error? {nodes : List Node} {e : Error} : nodes.findSome? Node.error? = some e ↔
    ∃ before n behind, nodes = before ++ n :: behind ∧ (∀ m ∈ before, m.IsLegal) ∧ n.error? = some e := by
  simp only [List.findSome?_eq_some_iff,Node.error?_eq_none_iff]
  constructor
  · rintro ⟨before,n,behind,rfl,is,legal⟩
    exact ⟨before,n,behind,rfl,legal,is⟩
  · rintro ⟨before,n,behind,rfl,legal,is⟩
    exact ⟨before,n,behind,rfl,is,legal⟩

/-- The outcome is that of the body, but for a frame that does not fit. -/
theorem select_outcome (supply : RegisterSupply) (p : Procedure) (frames : Bool) :
    match (p.body.flatMap Statement.nodes).findSome? Node.error? with
    | none => (∃ f, (select .sparc supply p frames).outcome = .ok f) ∨
        frames = true ∧ (select .sparc supply p frames).outcome = .error (.access .overflow)
    | some e => (select .sparc supply p frames).outcome = .error e := by
  have judged := judged_body p.body (supply.adoptAll (virtualRegisters p.body))
  cases found : (p.body.flatMap Statement.nodes).findSome? Node.error? with
  | none =>
    rw [found] at judged
    obtain ⟨u,left,came,-⟩ := judged
    simp only [select,came]
    cases frames with
    | false => exact .inl ⟨_,rfl⟩
    | true =>
      cases frame? p.toMethod (tileBody .sparc p.body (supply.adoptAll (virtualRegisters p.body))).code with
      | none => exact .inr ⟨rfl,rfl⟩
      | some code => exact .inl ⟨_,rfl⟩
  | some e =>
    rw [found] at judged
    simp only [select,judged]
    rfl

end Selection

open Selection

/-- A body has instructions exactly if all of its nodes are legal. Otherwise the error is
    that of the first node that is not, in the order in which they are covered. -/
theorem select_iff_legal (supply : RegisterSupply) (p : Procedure) :
    ((∃ f, (select .sparc supply p false).outcome = .ok f) ↔ ∀ n ∈ p.body.flatMap Statement.nodes, n.IsLegal) ∧
    ∀ e, (select .sparc supply p false).outcome = .error e ↔ ∃ before n behind,
      p.body.flatMap Statement.nodes = before ++ n :: behind ∧ (∀ m ∈ before, m.IsLegal) ∧ n.error? = some e := by
  have outcome := select_outcome supply p false
  have legal : (p.body.flatMap Statement.nodes).findSome? Node.error? = none ↔ ∀ n ∈ p.body.flatMap Statement.nodes, n.IsLegal := by
    simp only [List.findSome?_eq_none_iff,Node.error?_eq_none_iff]
  simp only [← findSome?_error?,← legal]
  cases found : (p.body.flatMap Statement.nodes).findSome? Node.error? with
  | none =>
    rw [found] at outcome
    obtain ⟨f,accepted⟩ | ⟨absurdity,-⟩ := outcome
    · refine ⟨⟨fun _ => rfl,fun _ => ⟨f,accepted⟩⟩,?_⟩
      intro e
      rw [accepted]
      simp
    · cases absurdity
  | some e =>
    rw [found] at outcome
    simp only at outcome
    rw [outcome]
    refine ⟨by simp,?_⟩
    intro e'
    rw [Except.error.injEq,Option.some.injEq]

end SparcBackend
