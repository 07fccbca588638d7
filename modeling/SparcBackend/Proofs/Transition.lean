import Mathlib.Data.List.Infix
import Mathlib.Tactic.Common

/-!
Deterministic systems whose states carry the events so far, and when two of them
behave alike. A simulation matches some steps of the first system with some steps of
the second, possibly none; a measure that falls while the second stands still keeps
the first from running on alone. Then both emit the same events, in the same order
and as long as either runs, and both end or neither (`Simulation.behaves`).
-/
namespace SparcBackend

/-- A state has one successor, or the system has stopped there. -/
structure System (State Event : Type) where
  step : State → Option State
  /-- What has happened up to a state. -/
  trace : State → List Event
  grows : ∀ {s next}, step s = some next → trace s <+: trace next

namespace System
variable {State Event : Type}

/-- The state after exactly `n` steps; `none` where the system stops before. -/
def steps (S : System State Event) : Nat → State → Option State
  | 0, s => some s
  | n+1, s => (S.step s).bind (S.steps n)

/-- Some number of steps leads from one state to another. -/
def Reaches (S : System State Event) (s last : State) : Prop := ∃ n, S.steps n s = some last

/-- A run from `s` at some time has `events` behind it. -/
def Emits (S : System State Event) (s : State) (events : List Event) : Prop :=
  ∃ last, S.Reaches s last ∧ events <+: S.trace last

/-- The run from `s` stops, in the state `last`. -/
def Ends (S : System State Event) (s last : State) : Prop := S.Reaches s last ∧ S.step last = none

@[simp] theorem steps_zero (S : System State Event) (s : State) : S.steps 0 s = some s := rfl

theorem steps_succ (S : System State Event) (n : Nat) (s : State) :
    S.steps (n+1) s = (S.step s).bind (S.steps n) := rfl

theorem steps_one {S : System State Event} {s next : State} (step : S.step s = some next) :
    S.steps 1 s = some next := by
  simp [steps_succ,step]

theorem steps_add (S : System State Event) (m n : Nat) (s : State) :
    S.steps (m+n) s = (S.steps m s).bind (S.steps n) := by
  induction m generalizing s with
  | zero => simp
  | succ m ih =>
    rw [Nat.succ_add,steps_succ,steps_succ,Option.bind_assoc]
    congr 1
    funext next
    exact ih next

theorem steps_trans {S : System State Event} {m n : Nat} {s mid last : State} (first : S.steps m s = some mid)
    (second : S.steps n mid = some last) : S.steps (m+n) s = some last := by
  rw [steps_add,first]
  exact second

/-- A run that has come further passed every state on the way. -/
theorem steps_split {S : System State Event} {m n : Nat} (le : m ≤ n) {s mid last : State}
    (first : S.steps m s = some mid) (whole : S.steps n s = some last) : S.steps (n-m) mid = some last := by
  have split := steps_add S m (n-m) s
  rw [Nat.add_sub_cancel' le,whole,first] at split
  exact split.symm

theorem reaches_refl (S : System State Event) (s : State) : S.Reaches s s := ⟨0,rfl⟩

theorem reaches_trans {S : System State Event} {s mid last : State} (first : S.Reaches s mid)
    (second : S.Reaches mid last) : S.Reaches s last := by
  obtain ⟨m,first⟩ := first
  obtain ⟨n,second⟩ := second
  exact ⟨m+n,steps_trans first second⟩

theorem trace_steps {S : System State Event} {n : Nat} {s last : State} (run : S.steps n s = some last) :
    S.trace s <+: S.trace last := by
  induction n generalizing s with
  | zero => cases run; exact List.prefix_rfl
  | succ n ih =>
    obtain ⟨next,step,rest⟩ := Option.bind_eq_some_iff.1 run
    exact (S.grows step).trans (ih rest)

/-- A stopped system reaches only the state it stands in. -/
theorem eq_of_stopped {S : System State Event} {s last : State} (stopped : S.step s = none)
    (reached : S.Reaches s last) : last = s := by
  obtain ⟨n,run⟩ := reached
  cases n with
  | zero => cases run; rfl
  | succ n => simp [steps_succ,stopped] at run

/-- A run stops in one state at most. -/
theorem ends_unique {S : System State Event} {s last other : State} (ends : S.Ends s last)
    (also : S.Ends s other) : last = other := by
  obtain ⟨⟨m,first⟩,stopped⟩ := ends
  obtain ⟨⟨n,second⟩,halted⟩ := also
  rcases Nat.le_total m n with le | le
  · exact (eq_of_stopped stopped ⟨n-m,steps_split le first second⟩).symm
  · exact eq_of_stopped halted ⟨m-n,steps_split le second first⟩

variable {α β γ : Type}

/-- Two runs emit the same events, and one ends where the other does, in states that
    are related. -/
structure Behaves (A : System α Event) (B : System β Event) (Final : α → β → Prop) (a : α) (b : β) : Prop where
  events : ∀ es, A.Emits a es ↔ B.Emits b es
  ends : ∀ last, A.Ends a last → ∃ final, B.Ends b final ∧ Final last final
  ends_back : ∀ final, B.Ends b final → ∃ last, A.Ends a last ∧ Final last final

theorem Behaves.trans {A : System α Event} {B : System β Event} {C : System γ Event} {P : α → β → Prop} {Q : β → γ → Prop}
    {R : α → γ → Prop} {a : α} {b : β} {c : γ}
    (first : Behaves A B P a b) (second : Behaves B C Q b c)
    (compose : ∀ x y z, P x y → Q y z → R x z) : Behaves A C R a c := by
  refine ⟨fun es => (first.events es).trans (second.events es),?_,?_⟩
  · intro last ends
    obtain ⟨mid,endsMid,left⟩ := first.ends last ends
    obtain ⟨final,endsFinal,right⟩ := second.ends mid endsMid
    exact ⟨final,endsFinal,compose last mid final left right⟩
  · intro final ends
    obtain ⟨mid,endsMid,right⟩ := second.ends_back final ends
    obtain ⟨last,endsLast,left⟩ := first.ends_back mid endsMid
    exact ⟨last,endsLast,compose last mid final left right⟩

/-- What is known of the last states may be put in other words. -/
theorem Behaves.mono {A : System α Event} {B : System β Event} {P Q : α → β → Prop} {a : α} {b : β}
    (behaves : Behaves A B P a b) (weaken : ∀ x y, A.step x = none → P x y → Q x y) : Behaves A B Q a b := by
  refine ⟨behaves.events,?_,?_⟩
  · intro last ends
    obtain ⟨final,endsFinal,related⟩ := behaves.ends last ends
    exact ⟨final,endsFinal,weaken last final ends.2 related⟩
  · intro final ends
    obtain ⟨last,endsLast,related⟩ := behaves.ends_back final ends
    exact ⟨last,endsLast,weaken last final endsLast.2 related⟩

/-- Related states have seen the same events, and at least one step of the first
    system corresponds to some steps of the second. -/
structure Simulation (A : System α Event) (B : System β Event) (Related : α → β → Prop) (measure : α → Nat) : Prop where
  trace_eq : ∀ {a b}, Related a b → A.trace a = B.trace b
  stops : ∀ {a b}, Related a b → A.step a = none → B.step b = none
  advances : ∀ {a b next}, Related a b → A.step a = some next →
    ∃ j k a' b', A.steps (j+1) a = some a' ∧ B.steps k b = some b' ∧ Related a' b' ∧
      (k = 0 → measure a' < measure a)

namespace Simulation
variable {A : System α Event} {B : System β Event} {Related : α → β → Prop} {measure : α → Nat}

/-- Every state of the first run lies before a related one. -/
theorem forth (sim : Simulation A B Related measure) : ∀ (n : Nat) {a : α} {b : β} {a' : α},
    Related a b → A.steps n a = some a' →
      ∃ last final, A.Reaches a' last ∧ B.Reaches b final ∧ Related last final := by
  intro n
  induction n using Nat.strong_induction_on with
  | _ n ih =>
    intro a b a' related run
    cases n with
    | zero =>
      cases run
      exact ⟨a,b,reaches_refl A a,reaches_refl B b,related⟩
    | succ n =>
      obtain ⟨next,step,_⟩ := Option.bind_eq_some_iff.1 run
      obtain ⟨j,k,mid,other,left,right,again,_⟩ := sim.advances related step
      rcases Nat.lt_or_ge n j with short | long
      · exact ⟨mid,other,⟨j+1-(n+1),steps_split (by omega) run left⟩,⟨k,right⟩,again⟩
      · obtain ⟨last,final,onward,reached,last_related⟩ :=
          ih (n+1-(j+1)) (by omega) again (steps_split (by omega) left run)
        exact ⟨last,final,onward,reaches_trans ⟨k,right⟩ reached,last_related⟩

/-- Every state of the second run lies before a related one. -/
theorem back (sim : Simulation A B Related measure) : ∀ (m size : Nat) {a : α} {b b' : β},
    measure a = size → Related a b → B.steps m b = some b' →
      ∃ last final, A.Reaches a last ∧ B.Reaches b' final ∧ Related last final := by
  intro m
  induction m using Nat.strong_induction_on with
  | _ m ihSteps =>
    intro size
    induction size using Nat.strong_induction_on with
    | _ size ihMeasure =>
      intro a b b' sized related run
      cases m with
      | zero =>
        cases run
        exact ⟨a,b,reaches_refl A a,reaches_refl B b,related⟩
      | succ m =>
        obtain ⟨ahead,stepB,_⟩ := Option.bind_eq_some_iff.1 run
        cases stepA : A.step a with
        | none => simp [sim.stops related stepA] at stepB
        | some next =>
          obtain ⟨j,k,mid,other,left,right,again,falls⟩ := sim.advances related stepA
          cases k with
          | zero =>
            cases right
            obtain ⟨last,final,reached,onward,last_related⟩ :=
              ihMeasure (measure mid) (sized ▸ falls rfl) rfl again run
            exact ⟨last,final,reaches_trans ⟨j+1,left⟩ reached,onward,last_related⟩
          | succ k =>
            rcases Nat.lt_or_ge m k with short | long
            · exact ⟨mid,other,⟨j+1,left⟩,⟨k+1-(m+1),steps_split (by omega) run right⟩,again⟩
            · obtain ⟨last,final,reached,onward,last_related⟩ :=
                ihSteps (m+1-(k+1)) (by omega) _ rfl again (steps_split (by omega) right run)
              exact ⟨last,final,reaches_trans ⟨j+1,left⟩ reached,onward,last_related⟩

/-- Where the second system has stopped the first one stops, too. -/
theorem stops_back (sim : Simulation A B Related measure) : ∀ (size : Nat) {a : α} {b : β},
    measure a = size → Related a b → B.step b = none → ∃ last, A.Ends a last ∧ Related last b := by
  intro size
  induction size using Nat.strong_induction_on with
  | _ size ih =>
    intro a b sized related stopped
    cases step : A.step a with
    | none => exact ⟨a,⟨reaches_refl A a,step⟩,related⟩
    | some next =>
      obtain ⟨j,k,mid,other,left,right,again,falls⟩ := sim.advances related step
      have same : other = b := eq_of_stopped stopped ⟨k,right⟩
      have still : k = 0 := by
        cases k with
        | zero => rfl
        | succ k => simp [steps_succ,stopped] at right
      subst same
      obtain ⟨last,ends,last_related⟩ := ih (measure mid) (sized ▸ falls still) rfl again stopped
      exact ⟨last,⟨reaches_trans ⟨j+1,left⟩ ends.1,ends.2⟩,last_related⟩

/-- Runs from related states behave alike. -/
theorem behaves (sim : Simulation A B Related measure) {a : α} {b : β} (related : Related a b) :
    Behaves A B Related a b := by
  refine ⟨fun es => ⟨?_,?_⟩,?_,?_⟩
  · rintro ⟨last,⟨n,run⟩,seen⟩
    obtain ⟨ahead,final,⟨_,onward⟩,reached,same⟩ := sim.forth n related run
    exact ⟨final,reached,sim.trace_eq same ▸ seen.trans (trace_steps onward)⟩
  · rintro ⟨last,⟨m,run⟩,seen⟩
    obtain ⟨ahead,final,reached,⟨_,onward⟩,same⟩ := sim.back m _ rfl related run
    exact ⟨ahead,reached,(sim.trace_eq same).symm ▸ seen.trans (trace_steps onward)⟩
  · rintro last ⟨⟨n,run⟩,stopped⟩
    obtain ⟨ahead,final,onward,reached,same⟩ := sim.forth n related run
    obtain rfl := eq_of_stopped stopped onward
    exact ⟨final,⟨reached,sim.stops same stopped⟩,same⟩
  · rintro final ⟨⟨m,run⟩,stopped⟩
    obtain ⟨mid,other,reached,onward,same⟩ := sim.back m _ rfl related run
    obtain rfl := eq_of_stopped stopped onward
    obtain ⟨last,ends,last_related⟩ := sim.stops_back _ rfl same stopped
    exact ⟨last,⟨reaches_trans reached ends.1,ends.2⟩,last_related⟩

end Simulation

end System

end SparcBackend
