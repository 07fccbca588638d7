import SparcBackend.Proofs.Transition
import SparcBackend.Proofs.World

/-!
How the trees of a body are executed. Operands and arguments are evaluated from left to
right, a move evaluates its source before its destination, and a memory cell that is
written or thrown away is not read. A call finds its arguments in the first outgoing
registers and leaves its value in the first of them.

Statements in sequence are strung out into one list, and a jump goes to the first label
of that name in it. Trees without a meaning, such as a comparison outside a branch, get
stuck.
-/
namespace SparcBackend
variable {Memory : Type}

/-! ### Trees without statements inside expressions -/

mutual

/-- A statement whose expressions contain no statements. -/
def Statement.IsLinear : Statement → Prop
  | .branch _ left right _ _ => left.IsLinear ∧ right.IsLinear
  | .discard value => value.IsLinear
  | .jump _ => True
  | .label _ => True
  | .move destination source => destination.IsLinear ∧ source.IsLinear
  | .seq first second => first.IsLinear ∧ second.IsLinear

/-- An expression that contains no statements. -/
def Expression.IsLinear : Expression → Prop
  | .binary _ left right => left.IsLinear ∧ right.IsLinear
  | .call function arguments => function.IsLinear ∧ Expression.AreLinear arguments
  | .constant _ => True
  | .memory address => address.IsLinear
  | .name _ => True
  | .resultOf _ _ => False
  | .register _ => True
  | .relation _ left right => left.IsLinear ∧ right.IsLinear

def Expression.AreLinear : List Expression → Prop
  | [] => True
  | e :: rest => e.IsLinear ∧ Expression.AreLinear rest

end

/-! ### Expressions -/

/-- Arguments in the first outgoing registers. -/
def Store.place (s : Store Memory) (values : List Word) : Store Memory :=
  { s with
    registers := Store.withOutgoing (fun k => (values[k.val]?).getD (s.registers (outgoing k))) s.registers }

mutual

def Expression.eval (w : World Memory) : Expression → Store Memory → Option (Word × Store Memory)
  | .binary op left right, s => do
    let (a,s) ← left.eval w s
    let (b,s) ← right.eval w s
    return (op.apply a b,s)
  | .call function arguments, s =>
    match function with
    | .name target => do
      let (values,s) ← Expression.evalAll w arguments s
      let after := (s.place values).call w target
      return (after.registers Machine.callResultRegister,after)
    | _ => none
  | .constant value, s => some (value.toBitVec,s)
  | .memory address, s => do
    let (a,s) ← address.eval w s
    return (w.load s.memory a,s)
  | .name label, s => some (w.addressOf label,s)
  | .resultOf _ _, _ => none
  | .register r, s => some (s.registers r,s)
  | .relation _ _ _, _ => none

def Expression.evalAll (w : World Memory) : List Expression → Store Memory → Option (List Word × Store Memory)
  | [], s => some ([],s)
  | e :: rest, s => do
    let (value,s) ← e.eval w s
    let (values,s) ← Expression.evalAll w rest s
    return (value :: values,s)

end

/-- The store after an expression has been evaluated for its effect. -/
def Expression.perform (w : World Memory) (e : Expression) (s : Store Memory) : Option (Store Memory) :=
  match e with
  | .memory address => (address.eval w s).map Prod.snd
  | e => (e.eval w s).map Prod.snd

mutual

/-- What has happened grows in the course of an evaluation. -/
theorem Expression.trace_eval {w : World Memory} : ∀ {e : Expression} {s after : Store Memory} {value : Word},
    e.eval w s = some (value,after) → s.trace <+: after.trace
  | .binary op left right, s, after, value, evaluated => by
    simp only [Expression.eval,Option.bind_eq_bind,Option.bind_eq_some_iff,Prod.exists,Option.pure_def,
      Option.some.injEq,Prod.mk.injEq] at evaluated
    obtain ⟨a,mid,first,b,last,second,-,rfl⟩ := evaluated
    exact (Expression.trace_eval first).trans (Expression.trace_eval second)
  | .call function arguments, s, after, value, evaluated => by
    cases function with
    | name target =>
      simp only [Expression.eval,Option.bind_eq_bind,Option.bind_eq_some_iff,Prod.exists,Option.pure_def,
        Option.some.injEq,Prod.mk.injEq] at evaluated
      obtain ⟨values,mid,first,-,rfl⟩ := evaluated
      exact (Expression.trace_evalAll first).trans (List.prefix_append _ _)
    | binary | call | constant | memory | resultOf | register | relation => cases evaluated
  | .constant _, s, after, value, evaluated => by cases evaluated; exact List.prefix_rfl
  | .memory address, s, after, value, evaluated => by
    simp only [Expression.eval,Option.bind_eq_bind,Option.bind_eq_some_iff,Prod.exists,Option.pure_def,
      Option.some.injEq,Prod.mk.injEq] at evaluated
    obtain ⟨a,mid,first,-,rfl⟩ := evaluated
    exact Expression.trace_eval first
  | .name _, s, after, value, evaluated => by cases evaluated; exact List.prefix_rfl
  | .resultOf _ _, s, after, value, evaluated => by cases evaluated
  | .register _, s, after, value, evaluated => by cases evaluated; exact List.prefix_rfl
  | .relation _ _ _, s, after, value, evaluated => by cases evaluated

theorem Expression.trace_evalAll {w : World Memory} : ∀ {es : List Expression} {s after : Store Memory} {values : List Word},
    Expression.evalAll w es s = some (values,after) → s.trace <+: after.trace
  | [], s, after, values, evaluated => by cases evaluated; exact List.prefix_rfl
  | e :: rest, s, after, values, evaluated => by
    simp only [Expression.evalAll,Option.bind_eq_bind,Option.bind_eq_some_iff,Prod.exists,Option.pure_def,
      Option.some.injEq,Prod.mk.injEq] at evaluated
    obtain ⟨a,mid,first,b,last,second,-,rfl⟩ := evaluated
    exact (Expression.trace_eval first).trans (Expression.trace_evalAll second)

end

theorem Expression.trace_perform {w : World Memory} {e : Expression} {s after : Store Memory}
    (performed : e.perform w s = some after) : s.trace <+: after.trace := by
  unfold Expression.perform at performed
  split at performed <;>
  · obtain ⟨⟨value,last⟩,evaluated,rfl⟩ := Option.map_eq_some_iff.1 performed
    exact Expression.trace_eval evaluated

/-! ### Statements -/

/-- The statements that are executed one after the other. -/
def Statement.flatten : Statement → List Statement
  | .seq first second => first.flatten ++ second.flatten
  | s => [s]

def Statement.label? : Statement → Option Label
  | .label name => some name
  | _ => none

/-- The store after a statement, and the label it goes to unless it goes on; `none`
    where the statement has no meaning. -/
def Statement.execute (w : World Memory) : Statement → Store Memory → Option (Store Memory × Option Label)
  | .branch op left right ifTrue ifFalse, s => do
    let (a,s) ← left.eval w s
    let (b,s) ← right.eval w s
    return (s,some (if op.holds a b then ifTrue else ifFalse))
  | .discard value, s => do
    let s ← value.perform w s
    return (s,none)
  | .jump target, s => some (s,some target)
  | .label name, s => some (s.pass name,none)
  | .move (.register r) source, s => do
    let (value,s) ← source.eval w s
    return (s.set r value,none)
  | .move (.memory address) source, s => do
    let (value,s) ← source.eval w s
    let (a,s) ← address.eval w s
    return (s.write w a value,none)
  | .move _ _, _ => none
  | .seq _ _, _ => none

theorem Statement.trace_execute {w : World Memory} {s : Statement} {store after : Store Memory} {target : Option Label}
    (executed : s.execute w store = some (after,target)) : store.trace <+: after.trace := by
  unfold Statement.execute at executed
  split at executed
  · simp only [Option.bind_eq_bind,Option.bind_eq_some_iff,Prod.exists,Option.pure_def,Option.some.injEq,
      Prod.mk.injEq] at executed
    obtain ⟨a,mid,first,b,last,second,rfl,-⟩ := executed
    exact (Expression.trace_eval first).trans (Expression.trace_eval second)
  · simp only [Option.bind_eq_bind,Option.bind_eq_some_iff,Option.pure_def,Option.some.injEq,Prod.mk.injEq] at executed
    obtain ⟨last,performed,rfl,-⟩ := executed
    exact Expression.trace_perform performed
  · cases executed; exact List.prefix_rfl
  · cases executed; exact List.prefix_append _ _
  · simp only [Option.bind_eq_bind,Option.bind_eq_some_iff,Prod.exists,Option.pure_def,Option.some.injEq,
      Prod.mk.injEq] at executed
    obtain ⟨a,last,first,rfl,-⟩ := executed
    have grows := Expression.trace_eval first
    exact grows
  · simp only [Option.bind_eq_bind,Option.bind_eq_some_iff,Prod.exists,Option.pure_def,Option.some.injEq,
      Prod.mk.injEq] at executed
    obtain ⟨a,mid,first,b,last,second,rfl,-⟩ := executed
    exact ((Expression.trace_eval first).trans (Expression.trace_eval second)).trans (List.prefix_append _ _)
  · cases executed
  · cases executed

namespace Ir

/-- Where control stands: before the statements that are left, or outside the body. -/
inductive Position where
  | inside (rest : List Statement)
  | outside (exit : Exit)

structure Configuration (Memory : Type) where
  position : Position
  store : Store Memory

/-- The statements from the first label of a name on. -/
def seek? (name : Label) : List Statement → Option (List Statement)
  | [] => none
  | s :: rest => if s.label? = some name then some (s :: rest) else seek? name rest

def after (body rest : List Statement) : Option Label → Position
  | none => .inside rest
  | some target => (seek? target body).elim (.outside (.jump target)) .inside

/-- One step: a statement, or leaving at the bottom or at a statement without meaning. -/
def step (w : World Memory) (body : List Statement) (c : Configuration Memory) : Option (Configuration Memory) :=
  match c.position with
  | .outside _ => none
  | .inside [] => some { c with position := .outside .bottom }
  | .inside (s :: rest) =>
    match s.execute w c.store with
    | none => some { c with position := .outside .stuck }
    | some (store,target) => some ⟨after body rest target,store⟩

def system (w : World Memory) (body : List Statement) : System (Configuration Memory) Event where
  step := step w body
  trace c := c.store.trace
  grows := by
    intro c next stepped
    unfold step at stepped
    split at stepped
    · cases stepped
    · cases stepped; exact List.prefix_rfl
    · split at stepped
      · cases stepped; exact List.prefix_rfl
      · rename_i executed
        cases stepped
        exact Statement.trace_execute executed

end Ir

end SparcBackend
