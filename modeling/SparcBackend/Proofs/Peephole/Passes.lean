import SparcBackend.Proofs.Lifetime
import SparcBackend.Proofs.Peephole.InPlace
import SparcBackend.Proofs.Peephole.Run
import SparcBackend.Proofs.Peephole.Trimming

/-!
The loops of the optimizer come to their end. A turn of a pass that changes nothing goes
on by a line, and a turn that changes something takes away at least as many lines as it
goes back, so a pass makes no more turns than there are lines; a pass that changes
something makes the code lighter, so there are no more passes than the code weighs. What
they end with is what the sweeps say.
-/
namespace SparcBackend.Peephole
open Machine (Target)

section
variable {t : Target} {supply : RegisterSupply} {code : List Instruction} {line : Nat}

theorem trims_of_changeAt {c : Change} (made : changeAt? t supply code line = some c) :
    Trims (code.drop line) c.code c.deleted := by
  unfold changeAt? at made
  split at made
  · cases made
  · rename_i split
    rw [split]
    exact trims_of_change made

theorem length_applyAt {c : Change} (made : changeAt? t supply code line = some c) :
    (applyAt code line c).length+c.deleted = code.length := (trims_of_changeAt made).within.1

theorem operations_applyAt {c : Change} (made : changeAt? t supply code line = some c) :
    operations (applyAt code line c) ≤ operations code := (trims_of_changeAt made).within.2

theorem length_sweep_le : (sweep t supply code).code.length ≤ code.length := by
  apply sweepFrom_induction (P := fun later => later.length ≤ code.length) (fun _ => True)
  · intro s made _ le
    have := length_applyAt made
    rw [Site.after]
    omega
  · exact fun _ _ => trivial
  · exact Nat.le_refl _

/-- Optimized code is no longer than it was, and has no more operations. -/
theorem optimize_le : (optimize t supply code).code.length ≤ code.length ∧
    operations (optimize t supply code).code ≤ operations code := by
  apply optimize_induction (P := fun later => later.length ≤ code.length ∧ operations later ≤ operations code) (fun _ => True)
  · rintro s made - ⟨length,count⟩
    have := length_applyAt made
    have := operations_applyAt made
    rw [Site.after]
    omega
  · exact fun _ _ => trivial
  · exact ⟨Nat.le_refl _,Nat.le_refl _⟩

/-- A sweep reports each of its changes, and every change makes the code lighter. -/
theorem length_messages_le : ((sweeps t supply code).flatMap Sweep.messages).length ≤ weight code := by
  have once := weight_sweepFrom t supply code 0
  fun_induction sweeps t supply code with
  | case1 code changed ih =>
    have later := ih (weight_sweepFrom t supply _ 0)
    rw [List.flatMap_cons,List.length_append]
    rw [← sweep] at once
    omega
  | case2 code unchanged =>
    rw [List.flatMap_singleton,sweep]
    omega

end

namespace InPlace

/-- A pass over a fragment that stands at a line of some code and knows its lifetimes. -/
def Pass.standing (f : CodeFragment) (code : List Instruction) (line : Nat) (changed : Bool) (messages : List String) : Pass :=
  ⟨{ f with code }.withLifetimes,line,changed,messages⟩

section
variable {t : Target} {f : CodeFragment} {code : List Instruction} {line : Nat} {changed : Bool} {messages : List String}

theorem drop_at_line {head : Instruction} (here : code[line]? = some head) : code.drop line = head :: code.drop (line+1) := by
  obtain ⟨inside,is⟩ := List.getElem?_eq_some_iff.1 here
  rw [← is,List.drop_eq_getElem_cons inside]

theorem endsByTable_ofCode (code : List Instruction) (supply : RegisterSupply) (line : Nat) :
    endsByTable (.ofCode code supply) line = fun lines r => endsOn supply code (line+lines) r := by
  funext lines r
  rw [endsByTable,LifetimeTable.endsAt,LifetimeTable.get?_ofCode,endsOn,RegisterSupply.owns]
  by_cases owned : r ∈ supply.children
  · rw [if_pos owned,List.contains_iff_mem.2 owned]
    rfl
  · rw [if_neg owned,Bool.eq_false_iff.2 (mt List.contains_iff_mem.1 owned)]
    rfl

/-- The change on a line, in place and by the rules for what stands from there on. -/
theorem change_at (t : Target) (lifetimes : LifetimeTable) {head : Instruction} (here : code[line]? = some head) :
    change t lifetimes code line = carry (code.take line) ((kindRule? t (endsByTable lifetimes line) head (code.drop (line+1))).or
      (mergeMove? (endsByTable lifetimes line) head (code.drop (line+1)))) := by
  obtain ⟨whole,length⟩ := split_at_line here
  have split : change t lifetimes (code.take line ++ head :: code.drop (line+1)) (code.take line).length = _ :=
    change_eq _ head _ t
  rw [← whole,length] at split
  exact split

/-- With the lifetimes of the code, the rules in place say what a sweep does on a line. -/
theorem change_ofCode {head : Instruction} (here : code[line]? = some head) (isOperation : head.isMarker = false)
    (supply : RegisterSupply) :
    change t (.ofCode code supply) code line = carry (code.take line) (changeAt? t supply code line) := by
  rw [change_at t _ here,endsByTable_ofCode,changeAt?,drop_at_line here]
  dsimp only
  rw [change?,if_neg (by rw [isOperation]; nofun)]

theorem changeAt?_of_isMarker {head : Instruction} (here : code[line]? = some head) (marker : head.isMarker = true)
    (supply : RegisterSupply) : changeAt? t supply code line = none := by
  rw [changeAt?,drop_at_line here]
  dsimp only
  rw [change?,if_pos marker]

theorem turn?_of_some {c : Change} (made : changeAt? t f.supply code line = some c) :
    (Pass.standing f code line changed messages).turn? t =
      some (Pass.standing f (applyAt code line c) (line + 1 - c.deleted) true (messages ++ [c.message])) := by
  cases here : code[line]? with
  | none =>
    rw [changeAt?,List.drop_eq_nil_of_le (List.getElem?_eq_none_iff.1 here)] at made
    cases made
  | some head =>
    cases kind : head.isMarker with
    | true => cases (changeAt?_of_isMarker here kind f.supply).symm.trans made
    | false =>
      have edit := change_ofCode (t := t) here kind f.supply
      rw [made] at edit
      simp only [Pass.turn?,Pass.standing,CodeFragment.withLifetimes,fetch,here,Option.elim_some,kind,edit,carry]
      rfl

theorem turn?_of_none (inside : line < code.length) (none : changeAt? t f.supply code line = none) :
    (Pass.standing f code line changed messages).turn? t = some (Pass.standing f code (line + 1) changed messages) := by
  have here := List.getElem?_eq_getElem inside
  cases kind : code[line].isMarker with
  | true =>
    simp only [Pass.turn?,Pass.standing,CodeFragment.withLifetimes,fetch,here,Option.elim_some,kind]
    rfl
  | false =>
    have stays := change_ofCode (t := t) here kind f.supply
    rw [none] at stays
    simp only [Pass.turn?,Pass.standing,CodeFragment.withLifetimes,fetch,here,Option.elim_some,kind,stays,carry]
    rfl

theorem Pass.run_turn {turns : Nat} {q : Pass} (inside : line < code.length)
    (turn : (Pass.standing f code line changed messages).turn? t = some q) :
    (Pass.standing f code line changed messages).run t (turns+1) = q.run t turns := by
  have going : (Pass.standing f code line changed messages).line <
      (Pass.standing f code line changed messages).fragment.code.length := inside
  rw [Pass.run,if_pos going,turn]

/-- A pass from a line on does what a sweep does, in no more turns than lines are left. -/
theorem Pass.run_eq (t : Target) (f : CodeFragment) (code : List Instruction) (line turns : Nat) (changed : Bool)
    (messages : List String) (within : line ≤ code.length) (enough : code.length-line ≤ turns) :
    (Pass.standing f code line changed messages).run t turns =
      .done (Pass.standing f (sweepFrom t f.supply code line).code (sweepFrom t f.supply code line).code.length
        (changed || (sweepFrom t f.supply code line).changed) (messages ++ (sweepFrom t f.supply code line).messages)) := by
  fun_induction sweepFrom t f.supply code line generalizing turns changed messages with
  | case1 code line inside c made ih =>
    -- The pass goes back by as many lines as have gone, but one, so its end comes closer.
    have shorter := length_applyAt made
    obtain ⟨turns,rfl⟩ := Nat.exists_eq_add_one.2 (show 0 < turns by omega)
    rw [Pass.run_turn inside (turn?_of_some made),ih turns true (messages ++ [c.message]) (by omega) (by omega)]
    simp [Sweep.after,Sweep.changed]
  | case2 code line inside none ih =>
    obtain ⟨turns,rfl⟩ := Nat.exists_eq_add_one.2 (show 0 < turns by omega)
    rw [Pass.run_turn inside (turn?_of_none inside none)]
    exact ih turns changed messages inside (by omega)
  | case3 code line outside =>
    have ended : ¬ (Pass.standing f code line changed messages).line <
        (Pass.standing f code line changed messages).fragment.code.length := outside
    obtain rfl : line = code.length := by omega
    cases turns <;> simp [Pass.run,if_neg ended,Sweep.changed]

end

/-- How a pass over a fragment ends. -/
def swept (t : Target) (f : CodeFragment) : Pass :=
  Pass.standing f (sweep t f.supply f.code).code (sweep t f.supply f.code).code.length (sweep t f.supply f.code).changed
    (sweep t f.supply f.code).messages

theorem pass_eq (t : Target) (f : CodeFragment) {turns : Nat} (enough : f.code.length ≤ turns) :
    pass t turns f = .done (swept t f) := by
  rw [pass]
  exact Pass.run_eq t f f.code 0 turns false [] (Nat.zero_le _) enough

/-- What optimizing a fragment ends with. -/
def optimized (t : Target) (f : CodeFragment) : Passed where
  fragment := { f with code := (Peephole.optimize t f.supply f.code).code }.withLifetimes
  passes := (Peephole.optimize t f.supply f.code).passes
  messages := (sweeps t f.supply f.code).flatMap Sweep.messages

/-- A pass that changes something is followed by what optimizing its fragment does. -/
theorem optimized_of_changed {t : Target} {f : CodeFragment} (changed : (sweep t f.supply f.code).changed = true) :
    optimized t f = ⟨(optimized t (swept t f).fragment).fragment,(optimized t (swept t f).fragment).passes+1,
      (swept t f).messages ++ (optimized t (swept t f).fragment).messages⟩ := by
  have code := optimize_code t f.supply f.code
  have passes := optimize_passes t f.supply f.code
  have messages := sweeps.eq_def t f.supply f.code
  rw [if_pos changed] at code passes
  rw [dif_pos changed] at messages
  rw [optimized,code,passes,messages,List.flatMap_cons]
  rfl

/-- A pass that changes nothing is the last one. -/
theorem optimized_of_quiet {t : Target} {f : CodeFragment} (quiet : (sweep t f.supply f.code).changed ≠ true) :
    optimized t f = { fragment := (swept t f).fragment } := by
  have code := optimize_code t f.supply f.code
  have passes := optimize_passes t f.supply f.code
  have messages := sweeps.eq_def t f.supply f.code
  have none : (sweep t f.supply f.code).messages = [] := by simpa [Sweep.changed] using quiet
  rw [if_neg quiet] at code passes
  rw [dif_neg quiet] at messages
  rw [optimized,code,passes,messages,List.flatMap_singleton,none]
  rfl

theorem Passed.run_eq (t : Target) (f : CodeFragment) {limit turns : Nat} (passes : Nat) (messages : List String)
    (long : f.code.length ≤ limit) (enough : weight f.code < turns) : Passed.run t limit turns ⟨f,passes,messages⟩ =
      .done ⟨(optimized t f).fragment,passes+(optimized t f).passes,messages ++ (optimized t f).messages⟩ := by
  induction turns generalizing f passes messages with
  | zero => exact absurd enough (Nat.not_lt_zero _)
  | succ turns ih =>
    rw [Passed.run,pass_eq t f long]
    dsimp only
    by_cases changed : (swept t f).changed = true
    · have shorter : (swept t f).fragment.code.length ≤ f.code.length := length_sweep_le
      have lighter : weight (swept t f).fragment.code < weight f.code := weight_sweep_lt changed
      rw [if_pos changed,Passed.after,ih (swept t f).fragment _ _ (Nat.le_trans shorter long) (by omega),
        optimized_of_changed changed]
      simp only [Nat.add_assoc,Nat.add_comm 1,List.append_assoc]
    · rw [if_neg changed,optimized_of_quiet changed]
      simp

/-- The optimizer comes to its end within one pass more than the code weighs. -/
theorem optimize_eq (t : Target) (f : CodeFragment) {limit : Nat} (enough : weight f.code < limit) :
    optimize t limit f = .done (optimized t f) := by
  have long : f.code.length ≤ limit := Nat.le_trans (Nat.le_add_right _ _) (Nat.le_of_lt enough)
  rw [optimize,Passed.run_eq t f 0 [] long enough,Nat.zero_add]
  rfl

/-- Optimizing a fragment ends with `o` whatever the limit is, if it is above the weight of the code;
    and the code, the number of passes and the reports are those of the sweeps. -/
structure Optimizes (f : CodeFragment) (o : Passed) : Prop where
  ends : ∀ slack, optimize .sparc (f.code.length+f.code.countP isArithmetic+1+slack) f = .done o
  code : o.fragment.code = (Peephole.optimize .sparc f.supply f.code).code
  passes : o.passes = (Peephole.optimize .sparc f.supply f.code).passes
  log : o.messages.map Log.debug = (Peephole.optimize .sparc f.supply f.code).log

theorem optimizes (f : CodeFragment) : Optimizes f (optimized .sparc f) where
  ends := by
    intro slack
    apply optimize_eq
    rw [weight]
    omega
  code := rfl
  passes := rfl
  log := List.map_flatMap

/-! ### Single turns -/

/-- Whatever the lifetimes say, a rule applies or does not: all it does to the lines from
    its line on is to trim them. -/
theorem change_trims (t : Target) (lifetimes : LifetimeTable) {code : List Instruction} {line : Nat} {head : Instruction}
    (here : code[line]? = some head) : change t lifetimes code line = .error .inapplicable ∨ ∃ e window,
      change t lifetimes code line = .ok e ∧ e.code = code.take line ++ window ∧ Trims (code.drop line) window e.deleted := by
  rw [change_at t lifetimes here]
  cases made : (kindRule? t (endsByTable lifetimes line) head (code.drop (line+1))).or
      (mergeMove? (endsByTable lifetimes line) head (code.drop (line+1))) with
  | none => exact .inl rfl
  | some c =>
    refine .inr ⟨_,c.code,rfl,rfl,?_⟩
    rw [drop_at_line here]
    rcases Option.or_eq_some_iff.1 made with special | ⟨-,general⟩
    · exact trims_of_kindRule special
    · exact trims_of_mergeMove general

/-- What a turn of a pass that has not come to its end does to the code: nothing, or it trims
    the lines from its line on. -/
theorem turn?_trims (t : Target) {p : Pass} (going : p.line < p.fragment.code.length) : ∃ q, p.turn? t = some q ∧
    (q.fragment = p.fragment ∨ ∃ window deleted, q.fragment.code = p.fragment.code.take p.line ++ window ∧
      Trims (p.fragment.code.drop p.line) window deleted) := by
  have here := List.getElem?_eq_getElem going
  unfold Pass.turn?
  rw [fetch,here]
  dsimp only [Option.elim_some]
  by_cases marker : p.fragment.code[p.line].isMarker = true
  · rw [if_pos marker]
    exact ⟨_,rfl,.inl rfl⟩
  · rw [if_neg marker]
    rcases change_trims t p.fragment.lifetimes here with stays | ⟨e,window,edits,code,trims⟩
    · rw [stays]
      exact ⟨_,rfl,.inl rfl⟩
    · rw [edits]
      exact ⟨_,rfl,.inr ⟨window,e.deleted,code,trims⟩⟩

/-- In no state does a turn ask for a line or a slot that is not there, or make the code grow. -/
theorem turn?_le (t : Target) {p : Pass} (going : p.line < p.fragment.code.length) : ∃ q, p.turn? t = some q ∧
    q.fragment.code.length ≤ p.fragment.code.length ∧ q.fragment.operationCount ≤ p.fragment.operationCount := by
  obtain ⟨q,turn,same | ⟨window,deleted,code,trims⟩⟩ := turn?_trims t going
  · exact ⟨q,turn,same ▸ Nat.le_refl _,same ▸ Nat.le_refl _⟩
  · obtain ⟨length,count⟩ := trims.within
    rw [← code] at length count
    exact ⟨q,turn,Nat.le.intro length,count⟩

/-- Optimizing ends, whatever the fragment is, and makes no more changes than the code has
    lines, additions and subtractions counted twice. -/
theorem optimize_terminates (f : CodeFragment) :
    (∀ p : Pass, p.line < p.fragment.code.length → ∃ q, p.turn? .sparc = some q ∧
      q.fragment.code.length ≤ p.fragment.code.length ∧ q.fragment.operationCount ≤ p.fragment.operationCount) ∧
    (∃ p, (∀ slack, pass .sparc (f.code.length+slack) f = .done p) ∧ p.fragment.code = (sweep .sparc f.supply f.code).code) ∧
    ∃ o, Optimizes f o ∧ o.messages.length ≤ f.code.length+f.code.countP isArithmetic ∧
      o.fragment.code.length ≤ f.code.length ∧ o.fragment.operationCount ≤ f.operationCount := by
  refine ⟨fun p going => turn?_le .sparc going,⟨swept .sparc f,fun slack => ?_,rfl⟩,optimized .sparc f,optimizes f,
    length_messages_le,optimize_le.1,optimize_le.2⟩
  apply pass_eq
  omega

end InPlace

end SparcBackend.Peephole
