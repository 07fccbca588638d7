import SparcBackend.Proofs.Selection.Grammar
import SparcBackend.Proofs.Selection.Grouping

/-!
All groupings of a body are refused in the same place. The nodes that are no sequences are
one by one those of every other grouping, so the number of a node among them is its place,
and the first that is not legal has the same place in all groupings. An error shows the
tree that stands there: two of them are the same unless a sequence in this tree is grouped
in another way.
-/
namespace SparcBackend

namespace Node

/-- The node with its sequences nested to the right. -/
def regrouped : Node → Node
  | statement s => statement s.regrouped
  | expression e => expression e.regrouped

/-- The node with everything below it. -/
def nodes : Node → List Node
  | statement s => s.nodes
  | expression e => e.nodes

def isSequence : Node → Bool
  | statement (.seq ..) => true
  | _ => false

/-- The tree that an error of the node shows if it shows one: of a call the target. -/
def shown : Node → Node
  | expression (.call function _) => expression function
  | n => n

end Node

namespace Selection

/-! ### Trees without a sequence -/

/-- None of the nodes is a sequence. -/
def Sequenceless (nodes : List Node) : Prop := ∀ first second, Node.statement (.seq first second) ∉ nodes

theorem sequenceless_append {nodes more : List Node} : Sequenceless (nodes ++ more) ↔ Sequenceless nodes ∧ Sequenceless more := by
  simp only [Sequenceless,List.mem_append,not_or,forall_and]

theorem sequenceless_cons {n : Node} {nodes : List Node} :
    Sequenceless (n :: nodes) ↔ (∀ first second, n ≠ .statement (.seq first second)) ∧ Sequenceless nodes := by
  simp only [Sequenceless,List.mem_cons,not_or,forall_and,ne_comm,Ne]

theorem not_sequenceless_seq (first second : Statement) : ¬ Sequenceless (Statement.seq first second).nodes :=
  fun none => none first second (by rw [Statement.nodes]; exact List.mem_append_right _ (List.mem_singleton_self _))

/-- Nesting to the right leaves a sequence a sequence. -/
theorem not_sequenceless_regrouped_seq (first second : Statement) : ¬ Sequenceless (Statement.seq first second).regrouped.nodes := by
  have nested := (Statement.seq first second).sequence?_leaves
  obtain ⟨head,rest,is⟩ := List.exists_cons_of_ne_nil first.leaves_ne_nil
  have some : rest ++ second.leaves ≠ [] := List.append_ne_nil_of_right_ne_nil _ second.leaves_ne_nil
  obtain ⟨tail,behind⟩ := Statement.exists_sequence? some
  rw [Statement.leaves,is,List.cons_append,Statement.sequence?,behind] at nested
  rw [← Option.some.inj nested]
  exact not_sequenceless_seq head tail

mutual

theorem leaves_of_sequenceless : ∀ s : Statement, Sequenceless s.nodes ∨ Sequenceless s.regrouped.nodes → s.leaves = [s]
  | .branch op left right ifTrue ifFalse, flat => by
    rw [Statement.regrouped_of_leaves (by rw [Statement.leaves])] at flat
    simp only [Statement.nodes,sequenceless_append] at flat
    rw [Statement.leaves,regrouped_of_sequenceless left (flat.imp (·.1.1) (·.1.1)),
      regrouped_of_sequenceless right (flat.imp (·.1.2) (·.1.2))]
  | .discard value, flat => by
    rw [Statement.regrouped_of_leaves (by rw [Statement.leaves])] at flat
    simp only [Statement.nodes,sequenceless_append] at flat
    rw [Statement.leaves,regrouped_of_sequenceless value (flat.imp (·.1) (·.1))]
  | .jump _, _ => rfl
  | .label _, _ => rfl
  | .move destination source, flat => by
    rw [Statement.regrouped_of_leaves (by rw [Statement.leaves])] at flat
    simp only [Statement.nodes,sequenceless_append,sequenceless_cons] at flat
    rw [Statement.leaves,regrouped_of_sequenceless destination (flat.imp (·.2.2) (·.2.2)),
      regrouped_of_sequenceless source (flat.imp (·.1) (·.1))]
  | .seq first second, flat => (flat.elim (not_sequenceless_seq first second) (not_sequenceless_regrouped_seq first second)).elim

/-- An expression stays as it is if it shows no sequence, before or behind the nesting. -/
theorem regrouped_of_sequenceless : ∀ e : Expression, Sequenceless e.nodes ∨ Sequenceless e.regrouped.nodes → e.regrouped = e
  | .binary op left right, flat => by
    simp only [Expression.regrouped,Expression.nodes,sequenceless_append] at flat ⊢
    rw [regrouped_of_sequenceless left (flat.imp (·.1.1) (·.1.1)),regrouped_of_sequenceless right (flat.imp (·.1.2) (·.1.2))]
  | .call function arguments, flat => by
    simp only [Expression.regrouped,Expression.nodes,sequenceless_append,sequenceless_cons] at flat ⊢
    rw [regrouped_of_sequenceless function (flat.imp (·.2.1) (·.2.1)),allRegrouped_of_sequenceless arguments (flat.imp (·.2.2) (·.2.2))]
  | .constant _, _ => rfl
  | .memory address, flat => by
    simp only [Expression.regrouped,Expression.nodes,sequenceless_cons] at flat ⊢
    rw [regrouped_of_sequenceless address (flat.imp (·.2) (·.2))]
  | .name _, _ => rfl
  | .resultOf statement value, flat => by
    have nested : (Expression.resultOf statement value).regrouped = .resultOf statement.regrouped value.regrouped := rfl
    rw [nested] at flat ⊢
    simp only [Expression.nodes,sequenceless_append] at flat
    rw [Statement.regrouped_of_leaves (leaves_of_sequenceless statement (flat.imp (·.1.1) (·.1.1))),
      regrouped_of_sequenceless value (flat.imp (·.1.2) (·.1.2))]
  | .register _, _ => rfl
  | .relation op left right, flat => by
    simp only [Expression.regrouped,Expression.nodes,sequenceless_append,sequenceless_cons] at flat ⊢
    rw [regrouped_of_sequenceless left (flat.imp (·.2.1) (·.2.1)),regrouped_of_sequenceless right (flat.imp (·.2.2) (·.2.2))]

theorem allRegrouped_of_sequenceless : ∀ es : List Expression,
    Sequenceless (Expression.allNodes es) ∨ Sequenceless (Expression.allNodes (Expression.allRegrouped es)) → Expression.allRegrouped es = es
  | [], _ => rfl
  | e :: rest, flat => by
    simp only [Expression.allRegrouped,Expression.allNodes,sequenceless_append] at flat ⊢
    rw [regrouped_of_sequenceless e (flat.imp (·.1) (·.1)),allRegrouped_of_sequenceless rest (flat.imp (·.2) (·.2))]

end

theorem regrouped_of_sequenceless_statement {s : Statement} (flat : Sequenceless s.nodes ∨ Sequenceless s.regrouped.nodes) : s.regrouped = s :=
  Statement.regrouped_of_leaves (leaves_of_sequenceless s flat)

/-- The tree in the text of an error, if it shows one. -/
def Error.shown : Error → Option Node
  | .badDestination move => some (.statement move)
  | .badMemoryChild tree | .badCallTarget tree | .relationAsValue tree | .badAccess tree => some (.expression tree)
  | .unsupportedOperator .. | .access _ => none

/-- The tree in the text of an error, if it shows one, holds no sequence. -/
def Error.IsSequenceless (e : Error) : Prop := ∀ n, e.shown = some n → Sequenceless n.nodes

theorem Error.regrouped_of_isSequenceless {e : Error} (flat : e.IsSequenceless ∨ e.regrouped.IsSequenceless) : e.regrouped = e := by
  cases e with
  | badDestination move => exact congrArg _ (regrouped_of_sequenceless_statement (flat.imp (· _ rfl) (· _ rfl)))
  | badMemoryChild tree | badCallTarget tree | relationAsValue tree | badAccess tree =>
    exact congrArg _ (Selection.regrouped_of_sequenceless tree (flat.imp (· _ rfl) (· _ rfl)))
  | unsupportedOperator | access => rfl

/-- Two errors that are the same but for the grouping are the same if one of them shows no sequence. -/
theorem Error.eq_of_isSequenceless {e e' : Error} (same : e'.regrouped = e.regrouped) (flat : e.IsSequenceless) : e' = e := by
  have one : e.regrouped = e := Error.regrouped_of_isSequenceless (.inl flat)
  rw [one] at same
  rw [← same] at flat
  exact (Error.regrouped_of_isSequenceless (.inr flat)).symm.trans same

/-- They are the same if they show the same tree, too, whatever it holds. -/
theorem Error.eq_of_shown {e e' : Error} (same : e'.regrouped = e.regrouped) (tree : e'.shown = e.shown) : e' = e := by
  cases e <;> cases e' <;> simp_all [Error.regrouped,Error.shown]

/-! ### Places -/

/-- The nodes that are no sequences, in the same order. The number of a node in this list
    is its place in all groupings of a body. -/
def operations (nodes : List Node) : List Node := nodes.filter fun n => !n.isSequence

theorem isSequence_of_mem {n : Node} {nodes : List Node} (among : n ∈ operations nodes) : n.isSequence = false := by
  simpa using (List.mem_filter.1 among).2

theorem operations_append (nodes more : List Node) : operations (nodes ++ more) = operations nodes ++ operations more :=
  List.filter_append ..

theorem operations_cons {n : Node} (is : n.isSequence = false) (nodes : List Node) : operations (n :: nodes) = n :: operations nodes :=
  List.filter_cons_of_pos (by rw [is]; rfl)

theorem operations_flatMap (ss : List Statement) : operations (ss.flatMap Statement.nodes) = ss.flatMap fun s => operations s.nodes :=
  List.filter_flatMap ..

theorem operations_seq (first second : Statement) : operations (Statement.seq first second).nodes =
    operations first.nodes ++ operations second.nodes := by
  rw [Statement.nodes,operations_append,operations_append]
  exact List.append_nil _

mutual

theorem operations_leaves : ∀ s : Statement, operations (s.leaves.flatMap Statement.nodes) = (operations s.nodes).map Node.regrouped
  | .branch op left right ifTrue ifFalse => by
    rw [Statement.leaves,List.flatMap_singleton,Statement.nodes,Statement.nodes]
    simp only [operations_append,List.map_append,operations_regrouped left,operations_regrouped right]
    rfl
  | .discard value => by
    rw [Statement.leaves,List.flatMap_singleton,Statement.nodes,Statement.nodes]
    simp only [operations_append,List.map_append,operations_regrouped value]
    rfl
  | .jump _ => rfl
  | .label _ => rfl
  | .move destination source => by
    rw [Statement.leaves,List.flatMap_singleton,Statement.nodes,Statement.nodes]
    simp only [operations_append,operations_cons (n := .statement (.move _ _)) rfl,List.map_append,List.map_cons,
      operations_regrouped destination,operations_regrouped source]
    rfl
  | .seq first second => by
    rw [Statement.leaves,List.flatMap_append,operations_append,operations_seq,List.map_append,operations_leaves first,
      operations_leaves second]

/-- What stands in the places of a tree is regrouped with the tree. -/
theorem operations_regrouped : ∀ e : Expression, operations e.regrouped.nodes = (operations e.nodes).map Node.regrouped
  | .binary op left right => by
    rw [Expression.regrouped,Expression.nodes,Expression.nodes]
    simp only [operations_append,List.map_append,operations_regrouped left,operations_regrouped right]
    rfl
  | .call function arguments => by
    rw [Expression.regrouped,Expression.nodes,Expression.nodes]
    simp only [operations_append,operations_cons (n := .expression (.call _ _)) rfl,List.map_append,List.map_cons,
      operations_regrouped function,operations_allRegrouped arguments]
    rfl
  | .constant _ => rfl
  | .memory address => by
    rw [Expression.regrouped,Expression.nodes,Expression.nodes]
    simp only [operations_cons (n := .expression (.memory _)) rfl,List.map_cons,operations_regrouped address]
    rfl
  | .name _ => rfl
  | .resultOf statement value => by
    have nested : operations statement.regrouped.nodes = (operations statement.nodes).map Node.regrouped := by
      rw [← operations_leaves statement,operations_flatMap,
        Statement.flatMap_leaves (F := fun s => operations s.nodes) operations_seq statement]
    have is : (Expression.resultOf statement value).regrouped = .resultOf statement.regrouped value.regrouped := rfl
    rw [is,Expression.nodes,Expression.nodes]
    simp only [operations_append,List.map_append,nested,operations_regrouped value]
    rfl
  | .register _ => rfl
  | .relation op left right => by
    rw [Expression.regrouped,Expression.nodes,Expression.nodes]
    simp only [operations_append,operations_cons (n := .expression (.relation _ _ _)) rfl,List.map_append,List.map_cons,
      operations_regrouped left,operations_regrouped right]
    rfl

theorem operations_allRegrouped : ∀ es : List Expression,
    operations (Expression.allNodes (Expression.allRegrouped es)) = (operations (Expression.allNodes es)).map Node.regrouped
  | [] => rfl
  | e :: rest => by
    simp only [Expression.allRegrouped,Expression.allNodes,operations_append,List.map_append,operations_regrouped e,
      operations_allRegrouped rest]

end

/-- Two groupings have the same places, and in each place nodes that are the same but for
    the grouping. -/
theorem operations_of_regroups {body grouped : List Statement} (same : Regroups body grouped) :
    (operations (grouped.flatMap Statement.nodes)).map Node.regrouped = (operations (body.flatMap Statement.nodes)).map Node.regrouped := by
  have leaves (ss : List Statement) : (operations (ss.flatMap Statement.nodes)).map Node.regrouped =
      operations ((ss.flatMap Statement.leaves).flatMap Statement.nodes) := by
    simp only [operations_flatMap,List.map_flatMap,← operations_leaves,← List.flatMap_assoc]
  rw [leaves grouped,leaves body,same]

theorem findSome?_operations (nodes : List Node) : (operations nodes).findSome? Node.error? = nodes.findSome? Node.error? := by
  induction nodes with
  | nil => rfl
  | cons n rest ih =>
    cases is : n.isSequence with
    | false => rw [operations_cons is,List.findSome?_cons,List.findSome?_cons,ih]
    | true =>
      have legal : n.error? = none := by
        unfold Node.isSequence at is
        split at is
        · rfl
        · cases is
      rw [List.findSome?_cons,legal,← ih,operations,operations,List.filter_cons_of_neg (by simp [is])]

/-- Nesting the sequences to the right makes nothing legal or illegal. -/
theorem isLegal_regrouped {n : Node} (is : n.isSequence = false) : n.regrouped.IsLegal ↔ n.IsLegal := by
  cases n with
  | statement s =>
    cases s with
    | move destination source =>
      have is : (Statement.move destination source).regrouped = .move destination.regrouped source.regrouped := rfl
      cases destination <;> simp [Node.regrouped,is,Expression.regrouped,Node.IsLegal]
    | seq => cases is
    | branch | discard | jump | label => rfl
  | expression e =>
    cases e with
    | call function arguments => cases function <;> simp [Node.regrouped,Expression.regrouped,Node.IsLegal,length_allRegrouped]
    | memory address => cases address <;> simp [Node.regrouped,Expression.regrouped,Node.IsLegal]
    | binary | constant | name | resultOf | register | relation => rfl

theorem isLegal_of_regrouped {n m : Node} {nodes more : List Node} (among : n ∈ operations nodes) (among' : m ∈ operations more)
    (same : m.regrouped = n.regrouped) (legal : n.IsLegal) : m.IsLegal := by
  rw [← isLegal_regrouped (isSequence_of_mem among'),same,isLegal_regrouped (isSequence_of_mem among)]
  exact legal

/-- The node in this place is the first of the body that is not legal. -/
structure IsRefused (body : List Statement) (place : Nat) (n : Node) : Prop where
  stands : (operations (body.flatMap Statement.nodes))[place]? = some n
  illegal : ¬ n.IsLegal
  before : ∀ m ∈ (operations (body.flatMap Statement.nodes)).take place, m.IsLegal

variable {body grouped : List Statement} {place : Nat} {n : Node} {e : Error}

theorem IsRefused.findSome? (refused : IsRefused body place n) : (body.flatMap Statement.nodes).findSome? Node.error? = n.error? := by
  obtain ⟨e,is⟩ := Option.ne_none_iff_exists'.1 (mt Node.error?_eq_none_iff.1 refused.illegal)
  obtain ⟨bound,rfl⟩ := List.getElem?_eq_some_iff.1 refused.stands
  rw [← findSome?_operations,is,findSome?_error?]
  refine ⟨_,_,(operations (body.flatMap Statement.nodes)).drop (place + 1),?_,refused.before,is⟩
  rw [← List.drop_eq_getElem_cons bound,List.take_append_drop]

theorem exists_isRefused (found : (body.flatMap Statement.nodes).findSome? Node.error? = some e) :
    ∃ place n, IsRefused body place n ∧ n.error? = some e := by
  rw [← findSome?_operations,findSome?_error?] at found
  obtain ⟨before,n,behind,are,legal,is⟩ := found
  refine ⟨before.length,n,⟨by simp [are],?_,?_⟩,is⟩
  · intro passes
    cases is.symm.trans (Node.error?_eq_none_iff.2 passes)
  · rw [are,List.take_left]
    exact legal

/-- Every other grouping is refused in the same place. -/
theorem IsRefused.regroups (same : Regroups body grouped) (refused : IsRefused body place n) : ∃ m, IsRefused grouped place m := by
  have places := operations_of_regroups same
  have facing : (operations (grouped.flatMap Statement.nodes))[place]?.map Node.regrouped = some n.regrouped := by
    rw [← List.getElem?_map,places,List.getElem?_map,refused.stands]
    rfl
  obtain ⟨m,stands,is⟩ := Option.map_eq_some_iff.1 facing
  refine ⟨m,stands,?_,?_⟩
  · intro legal
    exact refused.illegal (isLegal_of_regrouped (List.mem_of_getElem? stands) (List.mem_of_getElem? refused.stands) is.symm legal)
  · -- Both lists have one image, so what is in front of the place here is in front of it there.
    intro k among
    have image : k.regrouped ∈ ((operations (body.flatMap Statement.nodes)).take place).map Node.regrouped := by
      rw [List.map_take,← places,← List.map_take]
      exact List.mem_map_of_mem among
    obtain ⟨l,before,is⟩ := List.mem_map.1 image
    exact isLegal_of_regrouped (List.mem_of_mem_take before) (List.mem_of_mem_take among) is.symm (refused.before l before)

theorem IsRefused.not_lt {m : Node} {other : Nat} (one : IsRefused body place n) (two : IsRefused body other m) : ¬ place < other := by
  intro earlier
  exact one.illegal (two.before n (List.mem_of_getElem? ((List.getElem?_take_of_lt earlier).trans one.stands)))

/-- The place is no choice, and neither is the node. -/
theorem IsRefused.unique {m : Node} {other : Nat} (one : IsRefused body place n) (two : IsRefused body other m) :
    place = other ∧ n = m := by
  obtain rfl : place = other := Nat.le_antisymm (Nat.le_of_not_lt (two.not_lt one)) (Nat.le_of_not_lt (one.not_lt two))
  exact ⟨rfl,Option.some.inj (one.stands.symm.trans two.stands)⟩

theorem shown_of_error? (is : n.error? = some e) : e.shown = none ∨ e.shown = some n.shown := by
  cases n with
  | statement s =>
    cases s with
    | move destination source => cases destination <;> cases is <;> exact .inr rfl
    | branch | discard | jump | label | seq => cases is
  | expression tree =>
    cases tree with
    | binary op => cases op <;> cases is; exact .inl rfl
    | call function arguments =>
      cases function with
      | name target =>
        obtain ⟨-,rfl⟩ : 6 < arguments.length ∧ .access (.tooManyArguments arguments.length 6) = e := by simpa [Node.error?] using is
        exact .inl rfl
      | binary | call | constant | memory | resultOf | register | relation => cases is; exact .inr rfl
    | memory address => cases address <;> cases is <;> exact .inr rfl
    | relation => cases is; exact .inr rfl
    | constant | name | resultOf | register => cases is

/-- The errors of two nodes that are the same but for the grouping are the same if the trees
    that they show are. -/
theorem eq_of_shown {n' : Node} {e' : Error} (is : n.error? = some e) (is' : n'.error? = some e') (same : e'.regrouped = e.regrouped)
    (tree : n'.shown = n.shown) : e' = e := by
  rcases shown_of_error? is with none | some
  · exact Error.eq_of_isSequenceless same fun m shows => by cases none.symm.trans shows
  · rcases shown_of_error? is' with none' | some'
    · exact (Error.eq_of_isSequenceless same.symm fun m shows => by cases none'.symm.trans shows).symm
    · exact Error.eq_of_shown same (by rw [some,some',tree])

end Selection

open Selection

/-- A body is refused for what stands in one place of it, unless the frame does not fit. -/
theorem isRefused_of_select {supply : RegisterSupply} {p : Procedure} {frames : Bool} {e : Error}
    (refused : (select .sparc supply p frames).outcome = .error e) :
    e = .access .overflow ∨ ∃ place n, IsRefused p.body place n ∧ n.error? = some e := by
  have outcome := select_outcome supply p frames
  cases found : (p.body.flatMap Statement.nodes).findSome? Node.error? with
  | none =>
    rw [found,refused] at outcome
    obtain ⟨f,absurdity⟩ | ⟨-,is⟩ := outcome
    · cases absurdity
    · exact .inl (Except.error.inj is)
  | some e' =>
    rw [found,refused] at outcome
    cases outcome
    exact .inr (exists_isRefused found)

theorem error?_of_select {supply : RegisterSupply} {p : Procedure} {frames : Bool} {place : Nat} {n : Node} {e : Error}
    (refused : IsRefused p.body place n) (came : (select .sparc supply p frames).outcome = .error e) : n.error? = some e := by
  have outcome := select_outcome supply p frames
  obtain ⟨e',is⟩ := Option.ne_none_iff_exists'.1 (mt Node.error?_eq_none_iff.1 refused.illegal)
  rw [refused.findSome?,is,came] at outcome
  cases outcome
  exact is

/-- Statements may be grouped into sequences in any way, also in front of the values inside
    them. The code with its notes and the supply that is left are those of every other
    grouping. A body that is refused is refused in every grouping, in the same place: what
    stands in the places is the same but for the grouping, and either error is that of the
    node in this place. The errors are the same if the tree that they show stands in both
    groupings as it is, and so if it holds no sequence. -/
theorem select_regrouped {p : Procedure} {grouped : List Statement} (same : Regroups p.body grouped) (supply : RegisterSupply)
    (frames : Bool) :
    (∀ f, (select .sparc supply { p with body := grouped } frames).outcome = .ok f ↔ (select .sparc supply p frames).outcome = .ok f) ∧
    (operations (grouped.flatMap Statement.nodes)).map Node.regrouped = (operations (p.body.flatMap Statement.nodes)).map Node.regrouped ∧
    ∀ e, (select .sparc supply p frames).outcome = .error e →
      ∃ e', (select .sparc supply { p with body := grouped } frames).outcome = .error e' ∧
      (e' = .access .overflow ∧ e = .access .overflow ∨ ∃ place n n', IsRefused p.body place n ∧ IsRefused grouped place n' ∧
        n.error? = some e ∧ n'.error? = some e' ∧ (n'.shown = n.shown → e' = e)) ∧
      e'.regrouped = e.regrouped ∧ (e.IsSequenceless → e' = e) := by
  obtain ⟨f,one,two⟩ | ⟨e,e',one,two,reason⟩ := mapError_eq_mapError (select_mapError same .sparc supply frames)
  · rw [one,two]
    exact ⟨fun _ => Iff.rfl,operations_of_regroups same,by simp⟩
  · refine ⟨by simp [one,two],operations_of_regroups same,?_⟩
    intro e₁ refused
    cases one.symm.trans refused
    refine ⟨e',two,?_,reason.symm,Error.eq_of_isSequenceless reason.symm⟩
    obtain rfl | ⟨place,n,here,is⟩ := isRefused_of_select one
    · exact .inl ⟨Error.eq_of_isSequenceless reason.symm (by simp [Error.IsSequenceless,Error.shown]),rfl⟩
    · obtain ⟨n',there⟩ := here.regroups same
      have is' : n'.error? = some e' := error?_of_select (p := { p with body := grouped }) there two
      exact .inr ⟨place,n,n',here,there,is,is',eq_of_shown is is' reason.symm⟩

/-- A label, a value with three statements in front of it, and an expression that is thrown
    away, one after the other. -/
def oneByOne : Procedure where
  className := "Test"
  methodName := "sequences"
  body := [.label ⟨"start"⟩,
    .move (.named "x") (.resultOf (.seq (.move (.named "y") (.constant 1)) (.seq (.jump ⟨"end"⟩) (.label ⟨"end"⟩))) (.named "y")),
    .discard (.constant 0)]

/-- The same statements, nested to the left. -/
def inOne : Statement :=
  .seq (.seq (.label ⟨"start"⟩)
    (.move (.named "x") (.resultOf (.seq (.seq (.move (.named "y") (.constant 1)) (.jump ⟨"end"⟩)) (.label ⟨"end"⟩)) (.named "y"))))
    (.discard (.constant 0))

/-- A memory cell with a sequence in its address, which has no instructions. -/
def skipping : Expression := .memory (.resultOf (.seq (.jump ⟨"on"⟩) (.label ⟨"on"⟩)) (.constant 0))

/-- Statements of which the last one is refused for the cell in it. -/
def skippingLast : Procedure where
  className := "Test"
  methodName := "skipping"
  body := [.label ⟨"start"⟩,.jump ⟨"end"⟩,.discard skipping]

theorem select_regrouped_inOne : (∃ f, (select .sparc {} { oneByOne with body := [inOne] } false).outcome = .ok f ∧
      (select .sparc {} oneByOne false).outcome = .ok f) ∧
    ∃ nested, Statement.sequence? skippingLast.body = some nested ∧
      (select .sparc {} { skippingLast with body := [nested] } false).outcome = .error (.badMemoryChild skipping) := by
  constructor
  · obtain ⟨f,accepted⟩ : ∃ f, (select .sparc {} oneByOne false).outcome = .ok f := ⟨_,rfl⟩
    have same : Regroups oneByOne.body [inOne] := rfl
    exact ⟨f,((select_regrouped same {} false).1 f).2 accepted,accepted⟩
  · obtain ⟨nested,is⟩ : ∃ nested, Statement.sequence? skippingLast.body = some nested := ⟨_,rfl⟩
    have same : Regroups skippingLast.body [nested] := (Statement.regroups_of_sequence? is).symm
    have third : IsRefused skippingLast.body 2 (.expression skipping) := by
      refine ⟨rfl,by simp [skipping,Node.IsLegal],?_⟩
      have front : (operations (skippingLast.body.flatMap Statement.nodes)).take 2 =
        [.statement (.label ⟨"start"⟩),.statement (.jump ⟨"end"⟩)] := rfl
      simp [front,Node.IsLegal]
    obtain ⟨e,refused,⟨-,overflow⟩ | ⟨place,n,n',here,there,-,-,unchanged⟩,-⟩ := (select_regrouped same {} false).2.2 _ rfl
    · cases overflow
    · obtain ⟨rfl,rfl⟩ := here.unique third
      have stays : n' = .expression skipping := by
        cases is
        exact Option.some.inj (there.stands.symm.trans rfl)
      exact ⟨nested,is,refused.trans (congrArg Except.error (unchanged (congrArg Node.shown stays)))⟩

end SparcBackend
