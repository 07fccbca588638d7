import SparcBackend.Proofs.Machine.Execution

/-!
Where control may go from a line, whatever the machine holds, and which registers may
still be looked at from there on. A run that does not leave a stretch of lines changes
only what these lines change.
-/
namespace SparcBackend.Machine

/-- Control may go from one line to another: to the next one unless the line is a jump,
    and to the labels of a jump or a branch. -/
inductive Flow (code : List Instruction) (line : Nat) : Nat → Prop
  | onward {i : Instruction} (here : code[line]? = some i) (goes : i.kind ≠ .jump) : Flow code line (line+1)
  | jump {i : Instruction} {target : Label} {next : Nat} (here : code[line]? = some i)
      (kind : i.kind = .jump ∨ i.kind = .branch) (named : target ∈ i.jumps) (there : code[next]? = some (.label target)) :
      Flow code line next

/-- Some way leads from a line to one that looks at `r` without passing one that writes
    it. -/
inductive Live (code : List Instruction) (r : Register) : Nat → Prop
  | read {line : Nat} {i : Instruction} (here : code[line]? = some i) (consumes : i.consumes r = true) : Live code r line
  | step {line next : Nat} {i : Instruction} (here : code[line]? = some i) (keeps : i.writes r = false)
      (flow : Flow code line next) (live : Live code r next) : Live code r line

section
variable {code : List Instruction} {line next : Nat} {name : Label} {i : Instruction} {a : Action}

theorem label?_eq_some : i.label? = some name ↔ i = .label name := by
  cases i <;> simp [Instruction.label?]

theorem getElem?_of_labelLine? (found : labelLine? code name = some line) : code[line]? = some (.label name) := by
  obtain ⟨bound,here,-⟩ := List.findIdx?_eq_some_iff_getElem.1 found
  rw [List.getElem?_eq_getElem bound,label?_eq_some.1 (of_decide_eq_true here)]

/-- A step inside the code goes where control may go. -/
theorem Flow.of_step {Memory : Type} {w : World Memory} {m : State Memory} (here : code[line]? = some i)
    (means : i.action? = some a) (goes : (a.next w m).position code line = .inside next) : Flow code line next := by
  have label {target : Label} (goes : (Next.goto target).position code line = .inside next) : code[next]? = some (.label target) := by
    simp only [Next.position] at goes
    cases found : labelLine? code target with
    | none => simp [found] at goes
    | some there =>
      simp only [found,Option.elim_some,Position.inside.injEq] at goes
      exact goes ▸ getElem?_of_labelLine? found
  have onward (kind : i.kind ≠ .jump) (goes : Next.onward.position code line = .inside next) : Flow code line next := by
    cases goes
    exact .onward here kind
  cases Instruction.hasAction means with
  | branch kind defs uses jumps =>
    simp only [Action.next] at goes
    split at goes
    · exact .jump here (.inr kind) (by simp [jumps]) (label goes)
    · exact onward (by simp [kind]) goes
  | jump kind defs uses jumps => exact .jump here (.inl kind) (by simp [jumps]) (label goes)
  | special kind defs uses jumps =>
    simp only [Action.next] at goes
    split at goes
    · exact onward (by simp [kind]) goes
    · cases goes
  | label is | comment is => exact onward (by simp [is]) goes
  | @arithmetic op d left right kind defs uses jumps =>
    exact onward (by rw [kind]; cases op <;> simp [Operation.kind]) goes
  | set kind | move kind | load kind | offsetLoad kind | store kind | offsetStore kind | compare kind | call kind
  | nop kind => exact onward (by simp [kind]) goes

end

/-! ### Runs inside a stretch of lines -/

/-- An action leaves a register as it is. A procedure may change the outgoing ones, and an
    instruction of a frame any. -/
def Action.Spares (r : Register) : Action → Prop
  | .assign d _ => d ≠ r
  | .call _ => ¬ IsOutgoing r
  | .special _ => False
  | _ => True

section
variable {Memory : Type} {w : World Memory} {code : List Instruction} {first stop : Nat} {c last : Configuration Memory}
  {r : Register}

theorem Action.Spares.registers {a : Action} (spares : a.Spares r) (w : World Memory) (m : State Memory) :
    (a.effect w m).registers r = m.registers r := by
  cases a with
  | assign d source => exact Function.update_of_ne (Ne.symm spares) _ _
  | call target => exact Store.registers_call_of_not w m.toStore target spares
  | special text => cases spares
  | store | compare | branch | jump | label | skip => rfl

/-- A run of which every step starts at a line from `first` on and above `stop`. -/
inductive Stays (w : World Memory) (code : List Instruction) (first stop : Nat) : Configuration Memory → Configuration Memory → Prop
  | here (c : Configuration Memory) : Stays w code first stop c c
  | step {c next last : Configuration Memory} {line : Nat} (inside : c.position = .inside line) (low : first ≤ line)
      (high : line < stop) (steps : Machine.step w code c = some next) (rest : Stays w code first stop next last) :
      Stays w code first stop c last

/-- What no line of a stretch changes, no run inside it does. -/
theorem Stays.registers (run : Stays w code first stop c last) (spares : ∀ line i a, first ≤ line → line < stop →
    code[line]? = some i → i.action? = some a → a.Spares r) : last.state.registers r = c.state.registers r := by
  induction run with
  | here c => rfl
  | @step c next last line inside low high steps rest ih =>
    rw [ih]
    simp only [Machine.step,inside] at steps
    split at steps
    · cases steps; rfl
    · rename_i i here
      split at steps
      · cases steps; rfl
      · rename_i a means
        cases steps
        exact (spares line i a low high here means).registers w c.state

/-- The stretch, by what stands before and behind it. -/
theorem Stays.registers_of_stretch {before stretch behind : List Instruction} (whole : code = before ++ stretch ++ behind)
    (run : Stays w code before.length (before.length+stretch.length) c last)
    (spares : ∀ i ∈ stretch, ∀ a, i.action? = some a → a.Spares r) : last.state.registers r = c.state.registers r := by
  refine run.registers fun line i a low high here => spares i ?_ a
  rw [whole,List.append_assoc,List.getElem?_append_right low,List.getElem?_append_left (by omega)] at here
  exact List.mem_of_getElem? here

end

/-! ### Code that leads forward -/

/-- No line jumps back. -/
def LeadsForward (code : List Instruction) : Prop := code.Pairwise fun early late => ∀ name ∈ late.jumps, early.label? ≠ some name

instance (code : List Instruction) : Decidable (LeadsForward code) := inferInstanceAs (Decidable (code.Pairwise _))

section
variable {code : List Instruction} {line next : Nat} {r : Register}

theorem LeadsForward.lt (forward : LeadsForward code) (flow : Flow code line next) : line < next := by
  cases flow with
  | onward => exact Nat.lt_succ_self line
  | @jump i target _ here kind named there =>
    obtain ⟨bound,is⟩ := List.getElem?_eq_some_iff.1 here
    obtain ⟨bound',is'⟩ := List.getElem?_eq_some_iff.1 there
    rcases Nat.lt_trichotomy line next with before | rfl | behind
    · exact before
    · rw [here] at there
      cases there
      cases named
    · have apart := List.pairwise_iff_getElem.1 forward next line bound' bound behind
      exact absurd (congrArg Instruction.label? is') (apart target (is ▸ named))

/-- What is live is looked at further down. -/
theorem LeadsForward.consumed (forward : LeadsForward code) (live : Live code r line) :
    ∃ there i, line ≤ there ∧ code[there]? = some i ∧ i.consumes r = true := by
  induction live with
  | read here consumes => exact ⟨_,_,Nat.le_refl _,here,consumes⟩
  | step here keeps flow live ih =>
    obtain ⟨there,i,beyond,is,consumes⟩ := ih
    exact ⟨there,i,Nat.le_trans (Nat.le_of_lt (forward.lt flow)) beyond,is,consumes⟩

end

end SparcBackend.Machine
