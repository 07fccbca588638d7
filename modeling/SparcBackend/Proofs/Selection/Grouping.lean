import SparcBackend.Proofs.Ir.Grouping
import SparcBackend.Selection.Fragment

/-!
Selection does not see how statements are grouped into sequences. Two groupings of the same
statements mint the same registers in the same order and emit the same lines, those of a
failure too. Where one of them is refused the other one is, for the same reason, and the
errors differ at most in how the sequences are grouped in the trees they show.
-/
namespace SparcBackend

namespace Selection
open Machine (Target)
variable {α β : Type} {t : Target}

/-- The error with the sequences in the tree it shows nested to the right. -/
def Error.regrouped : Error → Error
  | .badDestination move => .badDestination move.regrouped
  | .badMemoryChild memory => .badMemoryChild memory.regrouped
  | .badCallTarget target => .badCallTarget target.regrouped
  | .relationAsValue relation => .relationAsValue relation.regrouped
  | .unsupportedOperator op target => .unsupportedOperator op target
  | .badAccess place => .badAccess place.regrouped
  | .access cause => .access cause

theorem mapError_eq_mapError {x y : Except Error α} (same : x.mapError Error.regrouped = y.mapError Error.regrouped) :
    (∃ a, x = .ok a ∧ y = .ok a) ∨ ∃ e e', x = .error e ∧ y = .error e' ∧ e.regrouped = e'.regrouped := by
  cases x with
  | ok a =>
    cases y with
    | ok b =>
      cases same
      exact .inl ⟨a,rfl,rfl⟩
    | error e => cases same
  | error e =>
    cases y with
    | ok b => cases same
    | error e' => exact .inr ⟨e,e',rfl,rfl,Except.error.inj same⟩

/-! ### Computations that come to the same -/

/-- From every supply two computations emit the same instructions, and they have the same
    value and leave the same supply, or both fail for the same reason. -/
def Alike (x y : Munch α) : Prop := ∀ supply, (x supply).code = (y supply).code ∧
  (x supply).outcome.mapError Error.regrouped = (y supply).outcome.mapError Error.regrouped

namespace Alike
variable {x y z : Munch α}

theorem refl (x : Munch α) : Alike x x := fun _ => ⟨rfl,rfl⟩

theorem symm (alike : Alike x y) : Alike y x := fun supply => ⟨(alike supply).1.symm,(alike supply).2.symm⟩

theorem trans (one : Alike x y) (two : Alike y z) : Alike x z :=
  fun supply => ⟨(one supply).1.trans (two supply).1,(one supply).2.trans (two supply).2⟩

theorem bind {f g : α → Munch β} (first : Alike x y) (next : ∀ a, Alike (f a) (g a)) : Alike (x >>= f) (y >>= g) := by
  intro supply
  obtain ⟨emitted,outcome⟩ := first supply
  show (Munch.andThen x f supply).code = (Munch.andThen y g supply).code ∧
    (Munch.andThen x f supply).outcome.mapError Error.regrouped = (Munch.andThen y g supply).outcome.mapError Error.regrouped
  obtain ⟨pair,one,two⟩ | ⟨e,e',one,two,same⟩ := mapError_eq_mapError outcome
  · obtain ⟨more,later⟩ := next pair.1 pair.2
    simp only [Munch.andThen,one,two,Munched.code,List.filterMap_append]
    exact ⟨congrArg₂ (· ++ ·) emitted more,later⟩
  · simp only [Munch.andThen,one,two]
    exact ⟨emitted,congrArg Except.error same⟩

theorem fail {e e' : Error} (same : e.regrouped = e'.regrouped) : Alike (Munch.fail e : Munch α) (Munch.fail e') :=
  fun _ => ⟨rfl,congrArg Except.error same⟩

/-- Which statement is turned to is seen in the log only. -/
theorem enter (s s' : Statement) : Alike (Munch.enter s) (Munch.enter s') := fun _ => ⟨rfl,rfl⟩

theorem enter_bind (s : Statement) (x : Munch α) : Alike (Munch.enter s >>= fun _ => x) x := fun _ => ⟨rfl,rfl⟩

theorem pure_bind (a : α) (f : α → Munch β) : Alike (pure a >>= f) (f a) := fun _ => ⟨rfl,rfl⟩

theorem bind_assoc {γ : Type} (x : Munch α) (f : α → Munch β) (g : β → Munch γ) : Alike (x >>= f >>= g) (x >>= fun a => f a >>= g) := by
  intro supply
  show (Munch.andThen (Munch.andThen x f) g supply).code = (Munch.andThen x (fun a => Munch.andThen (f a) g) supply).code ∧
    (Munch.andThen (Munch.andThen x f) g supply).outcome.mapError Error.regrouped =
      (Munch.andThen x (fun a => Munch.andThen (f a) g) supply).outcome.mapError Error.regrouped
  cases one : (x supply).outcome with
  | error e => simp only [Munch.andThen,one,and_self]
  | ok pair =>
    cases two : (f pair.1 pair.2).outcome <;> simp only [Munch.andThen,one,two,Munched.code,List.append_assoc,and_self]

theorem bind_pure (x : Munch Unit) : Alike x (x >>= fun _ => pure ()) := by
  intro supply
  show (x supply).code = (Munch.andThen x (fun _ => pure ()) supply).code ∧
    (x supply).outcome.mapError Error.regrouped = (Munch.andThen x (fun _ => pure ()) supply).outcome.mapError Error.regrouped
  cases one : (x supply).outcome with
  | error e =>
    simp only [Munch.andThen,one]
    exact ⟨rfl,trivial⟩
  | ok pair =>
    simp only [Munch.andThen,one,Munched.code]
    exact ⟨congrArg _ (List.append_nil _).symm,rfl⟩

end Alike

/-! ### Sequences -/

theorem alike_append (first second : List Statement) :
    Alike (tileBody t (first ++ second)) (tileBody t first >>= fun _ => tileBody t second) := by
  induction first with
  | nil => exact (Alike.pure_bind () fun _ => tileBody t second).symm
  | cons s rest ih => exact ((Alike.refl _).bind fun _ => ih).trans (Alike.bind_assoc _ _ _).symm

theorem alike_seq (first second : Statement) :
    Alike (tileStatement t (.seq first second)) (tileStatement t first >>= fun _ => tileStatement t second) := by
  rw [tileStatement]
  exact Alike.enter_bind _ _

theorem alike_singleton (s : Statement) : Alike (tileStatement t s) (tileBody t [s]) := Alike.bind_pure _

theorem alike_sequence {ss : List Statement} {s : Statement} (is : Statement.sequence? ss = some s) :
    Alike (tileStatement t s) (tileBody t ss) := by
  induction ss generalizing s with
  | nil => cases is
  | cons first rest ih =>
    obtain ⟨rfl,rfl⟩ | ⟨tail,behind,rfl⟩ := Statement.sequence?_cons is
    · exact alike_singleton s
    · exact (alike_seq first tail).trans ((Alike.refl _).bind fun _ => ih behind)

/-! ### Statements and expressions -/

theorem isAddress_regrouped (e : Expression) : isAddress e.regrouped = isAddress e := by
  cases e <;> simp only [Expression.regrouped,isAddress]

theorem length_allRegrouped (es : List Expression) : (Expression.allRegrouped es).length = es.length := by
  induction es with
  | nil => rfl
  | cons e rest ih => rw [Expression.allRegrouped,List.length_cons,ih,List.length_cons]

/-- A move that is refused is refused with its sequences nested to the right, too. -/
theorem alike_badDestination (destination source : Expression) : Alike (Munch.fail (.badDestination (.move destination source)) : Munch α)
    (Munch.fail (.badDestination (.move destination.regrouped source.regrouped))) := by
  refine .fail (congrArg Error.badDestination ?_)
  simp only [Statement.regrouped,Statement.leaves,Statement.sequence?,Option.getD_some,Expression.regrouped_regrouped]

/-- What is refused as a value is refused with its sequences nested to the right, too. -/
theorem alike_refused (refuse : Expression → Error) (shown : ∀ e, (refuse e).regrouped = refuse e.regrouped) (e : Expression) :
    Alike (Munch.fail (refuse e) : Munch α) (Munch.fail (refuse e.regrouped)) :=
  .fail (by rw [shown,shown,e.regrouped_regrouped])

mutual

theorem alike_leaves : ∀ s : Statement, Alike (tileStatement t s) (tileBody t s.leaves)
  | .branch op left right ifTrue ifFalse => by
    refine Alike.trans ?_ (alike_singleton _)
    rw [tileStatement,tileStatement]
    exact (Alike.enter _ _).bind fun _ => (alike_regrouped left .value).bind fun x =>
      (alike_regrouped right .value).bind fun y => Alike.refl _
  | .discard value => by
    refine Alike.trans ?_ (alike_singleton _)
    rw [tileStatement,tileStatement]
    exact (Alike.enter _ _).bind fun _ => (alike_regrouped value .discarded).bind fun _ => Alike.refl _
  | .jump target => alike_singleton _
  | .label name => alike_singleton _
  | .move destination source => by
    refine Alike.trans ?_ (alike_singleton _)
    rw [tileStatement,tileStatement]
    refine (Alike.enter _ _).bind fun _ => (alike_regrouped source .value).bind fun value => ?_
    cases destination with
    | register r => exact Alike.refl _
    | memory address =>
      simp only [Expression.regrouped,isAddress_regrouped]
      split
      · exact (alike_regrouped address .value).bind fun _ => Alike.refl _
      · exact alike_refused .badMemoryChild (fun _ => rfl) (.memory address)
    | binary | call | constant | name | resultOf | relation => exact alike_badDestination _ source
  | .seq first second => by
    refine (alike_seq first second).trans ?_
    exact ((alike_leaves first).bind fun _ => alike_leaves second).trans (alike_append _ _).symm

theorem alike_regrouped : ∀ (e : Expression) (usage : Usage), Alike (tileExpression t usage e) (tileExpression t usage e.regrouped)
  | .binary op left right, usage => by
    rw [tileExpression,Expression.regrouped,tileExpression]
    exact (alike_regrouped left .value).bind fun _ => (alike_regrouped right .value).bind fun _ => Alike.refl _
  | .call function arguments, usage => by
    cases function with
    | name target =>
      simp only [tileExpression,Expression.regrouped,length_allRegrouped]
      split
      · exact Alike.refl _
      · exact (alike_arguments arguments).bind fun _ => Alike.refl _
    | binary | call | constant | memory | resultOf | register | relation =>
      simp only [tileExpression,Expression.regrouped]
      exact alike_refused .badCallTarget (fun _ => rfl) _
  | .constant n, usage => Alike.refl _
  | .memory address, usage => by
    simp only [tileExpression,Expression.regrouped,isAddress_regrouped]
    split
    · exact (alike_regrouped address .value).bind fun _ => Alike.refl _
    · exact alike_refused .badMemoryChild (fun _ => rfl) (.memory address)
  | .name label, usage => Alike.refl _
  | .resultOf statement value, usage => by
    rw [tileExpression,Expression.regrouped,tileExpression]
    have nested : Alike (tileStatement t statement) (tileStatement t statement.regrouped) :=
      (alike_leaves statement).trans (alike_sequence statement.sequence?_leaves).symm
    exact nested.bind fun _ => alike_regrouped value usage
  | .register r, usage => Alike.refl _
  | .relation op left right, usage => by
    rw [tileExpression,Expression.regrouped,tileExpression]
    exact alike_refused .relationAsValue (fun _ => rfl) (.relation op left right)

theorem alike_arguments : ∀ es : List Expression, Alike (tileArguments t es) (tileArguments t (Expression.allRegrouped es))
  | [] => Alike.refl _
  | e :: rest => by
    rw [tileArguments,Expression.allRegrouped,tileArguments]
    exact (alike_regrouped e .value).bind fun _ => (alike_arguments rest).bind fun _ => Alike.refl _

end

theorem alike_flatMap_leaves (body : List Statement) : Alike (tileBody t body) (tileBody t (body.flatMap Statement.leaves)) := by
  induction body with
  | nil => exact Alike.refl _
  | cons s rest ih =>
    rw [List.flatMap_cons]
    exact ((alike_leaves s).bind fun _ => ih).trans (alike_append _ _).symm

theorem alike_of_regroups {body grouped : List Statement} (same : Regroups body grouped) : Alike (tileBody t body) (tileBody t grouped) := by
  refine (alike_flatMap_leaves body).trans ?_
  rw [same]
  exact (alike_flatMap_leaves grouped).symm

end Selection

open Selection

theorem virtualRegisters_of_regroups {body grouped : List Statement} (same : Regroups body grouped) :
    virtualRegisters body = virtualRegisters grouped := by
  rw [virtualRegisters,virtualRegisters,same.registers]

theorem select_mapError {p : Procedure} {grouped : List Statement} (same : Regroups p.body grouped) (t : Machine.Target)
    (supply : RegisterSupply) (frames : Bool) : (select t supply p frames).outcome.mapError Error.regrouped =
      (select t supply { p with body := grouped } frames).outcome.mapError Error.regrouped := by
  obtain ⟨emitted,outcome⟩ := alike_of_regroups (t := t) same (supply.adoptAll (virtualRegisters p.body))
  simp only [select,← virtualRegisters_of_regroups same,← emitted]
  obtain ⟨pair,one,two⟩ | ⟨e,e',one,two,reason⟩ := mapError_eq_mapError outcome
  · rw [one,two]
  · rw [one,two]
    exact congrArg Except.error reason

end SparcBackend
