import SparcBackend.Proofs.Lifetime
import SparcBackend.Proofs.Peephole.Simulation
import SparcBackend.Proofs.Selection.Wellformed

/-!
The optimizer keeps the behaviour of selected code as long as none of its changes drops a
register that somebody still needs. A lifetime knows nothing of control flow, so this is
a condition where code jumps back: a register that is read at the top of a loop may be
dropped at the bottom. Where all jumps lead forward only the stores that lose a register
are left to be excluded.
-/
namespace SparcBackend.Peephole
open Machine (Action Configuration LeadsForward State isPhysical)
variable {Memory : Type} {supply : RegisterSupply}

theorem SameExit.trans {registers : Register → Prop} {a b c : Configuration Memory} (first : SameExit registers a b)
    (second : SameExit registers b c) : SameExit registers a c := by
  obtain ⟨exit,there,here⟩ := first.exit
  obtain ⟨exit',here',behind⟩ := second.exit
  obtain rfl : exit = exit' := by
    rw [here] at here'
    cases here'
    rfl
  exact ⟨⟨exit,there,behind⟩,first.alike.trans second.alike⟩

/-- Code behaves as itself, since it stops only outside. -/
theorem behaves_refl (w : World Memory) (code : List Instruction) (registers : Register → Prop) (c : Configuration Memory) :
    System.Behaves (Machine.effects w code) (Machine.effects w code) (SameExit registers) c c := by
  have same : ∀ last, (Machine.effects w code).Ends c last → SameExit registers last last := by
    rintro ⟨position,m⟩ ⟨-,stopped⟩
    cases position with
    | outside exit => exact ⟨⟨exit,rfl,rfl⟩,State.Alike.refl _ m⟩
    | inside line =>
      simp only [Machine.effects,Machine.step] at stopped
      split at stopped
      · cases stopped
      · split at stopped <;> cases stopped
  exact ⟨fun _ => Iff.rfl,fun last ends => ⟨last,ends,same last ends⟩,fun last ends => ⟨last,ends,same last ends⟩⟩

/-- Code that does what `code` does, and that the next change can work on. -/
structure Faithful (w : World Memory) (supply : RegisterSupply) (m : State Memory) (code now : List Instruction) : Prop where
  meaningful : Meaningful now
  once : (labels now).Nodup
  behaves : System.Behaves (Machine.effects w code) (Machine.effects w now) (SameExit (· ∉ supply.children)) ⟨.inside 0,m⟩
    ⟨.inside 0,m⟩

theorem Faithful.after {w : World Memory} {m : State Memory} {code : List Instruction} {s : Site}
    (faithful : Faithful w supply m code s.code) (safe : s.IsSafe supply) (virtual : ∀ r ∈ supply.children, isPhysical r = false) :
    Faithful w supply m code s.after := by
  obtain ⟨loss,rewrites,-⟩ := id safe
  have once := s.behaves safe w virtual faithful.meaningful faithful.once m
  exact ⟨rewrites.meaningful faithful.meaningful,rewrites.labels_eq ▸ faithful.once,
    faithful.behaves.trans once fun _ _ _ => SameExit.trans⟩

/-- A run of the optimizer whose changes are all safe keeps the behaviour of the code. -/
theorem faithful_of_safe (w : World Memory) (virtual : ∀ r ∈ supply.children, isPhysical r = false) {code : List Instruction}
    (meaningful : Meaningful code) (once : (labels code).Nodup) (safe : ∀ s ∈ sites .sparc supply code, s.IsSafe supply)
    (m : State Memory) : Faithful w supply m code (optimize .sparc supply code).code :=
  optimize_induction (P := Faithful w supply m code) (Site.IsSafe supply)
    (fun _ _ safe faithful => faithful.after safe virtual) code safe ⟨meaningful,once,behaves_refl w code _ _⟩

/-! ### Code that leads forward -/

/-- A change leaves a store behind that looks at the register whose definition has gone. -/
def Site.Strands (supply : RegisterSupply) (s : Site) : Prop := ∃ l, s.Rewrites supply (some l) ∧ l.Strands

/-- Where all jumps lead forward, a register is dead behind its last mention. -/
theorem Site.isSafe_of_forward {s : Site} {loss : Option Loss} (rewrites : s.Rewrites supply loss) (forward : LeadsForward s.code)
    (clean : ¬ s.Strands supply) : s.IsSafe supply := by
  refine ⟨loss,rewrites,?_⟩
  rintro l rfl
  refine ⟨fun strands => clean ⟨l,rewrites,strands⟩,.inr ?_⟩
  intro live
  obtain ⟨there,i,beyond,here,consumes⟩ := forward.consumed live
  obtain ⟨_,_,_,_,-,-,-,rewrite⟩ := rewrites
  have ends := (Bool.and_eq_true _ _ ▸ rewrite.gone).2
  have inside := Lifetime.le_of_endsAt ends here (Instruction.mem_registers.2 (.inl consumes))
  omega

/-- What a change brings jumps nowhere, or it stood there before. -/
theorem Rewrite.new_jumps {ends : EndsAfter} {tail before new : List Instruction} {loss : Option Loss}
    (rewrite : Rewrite ends tail before new loss) : ∀ i ∈ new, i ∈ before ∨ i.jumps = [] := by
  intro i member
  have straight {a : Action} (means : i.action? = some a) (looks : a.operands ≠ [] ∨ a.destination? ≠ none) : i.jumps = [] := by
    cases Instruction.hasAction means with
    | label | comment | branch | jump | call => simp [Action.operands,Action.destination?] at looks
    | _ => assumption
  cases rewrite with
  | neutral _ _ folded | load _ _ folded | merge _ _ folded =>
    cases List.mem_singleton.1 member
    exact .inr (straight folded (.inr (by simp [Action.destination?])))
  | store _ _ folded =>
    cases List.mem_singleton.1 member
    exact .inr (straight folded (.inl (by simp [Action.operands])))
  | jump | selfMove => cases member
  | @forward head copied reader new nops d target a calls idle copies means reads forwarded =>
    simp only [List.cons_append,List.mem_cons,List.mem_append,List.not_mem_nil,or_false] at member ⊢
    rcases member with rfl | member | rfl
    · exact .inl (.inl rfl)
    · exact .inl (.inr (.inl member))
    · right
      have looks := (Instruction.consumes_iff means d).1 (by simp [Instruction.consumes,reads])
      cases a with
      | assign => exact straight forwarded (.inr (by simp [Action.mapUses,Action.destination?]))
      | store | compare => exact straight forwarded (.inl (by simp [Action.mapUses,Action.operands]))
      | branch | jump | call | label | skip | special => cases looks
  | immediate loads means folded placed =>
    cases List.mem_singleton.1 member
    right
    cases placed with
    | right | left => exact straight folded (.inr (by simp [Action.destination?]))
    | compared => exact straight folded (.inl (by simp [Action.operands]))

/-- A change turns no jump round. -/
theorem Site.Rewrites.leadsForward {s : Site} {loss : Option Loss} (rewrites : s.Rewrites supply loss)
    (forward : LeadsForward s.code) : LeadsForward s.after := by
  obtain ⟨pre,before,new,tail,is,becomes,-,rewrite⟩ := rewrites
  rw [LeadsForward,is,List.pairwise_append,List.pairwise_append] at forward
  obtain ⟨first,⟨inner,last,across⟩,beyond⟩ := forward
  have unlabelled {i : Instruction} (member : i ∈ new) : i.label? = none := by
    obtain ⟨a,means,other⟩ := rewrite.new_plain i member
    exact Instruction.label?_eq_none means other
  rw [LeadsForward,becomes,List.pairwise_append,List.pairwise_append]
  refine ⟨first,⟨?_,last,?_⟩,?_⟩
  · exact List.pairwise_of_forall_mem_list fun i member _ _ name _ => by simp [unlabelled member]
  · exact fun i member _ _ name _ => by simp [unlabelled member]
  · intro i early j late
    rcases List.mem_append.1 late with changed | behind
    · rcases rewrite.new_jumps j changed with old | none
      · exact beyond i early j (List.mem_append_left _ old)
      · simp [none]
    · exact beyond i early j (List.mem_append_right _ behind)

theorem Rewrite.reader_mem {ends : EndsAfter} {tail before new : List Instruction} {l : Loss}
    (rewrite : Rewrite ends tail before new (some l)) : l.reader ∈ before := by
  cases rewrite <;> simp

/-- A store that a change brings was a store before. -/
theorem Rewrite.new_store {ends : EndsAfter} {tail before new : List Instruction} {loss : Option Loss}
    (rewrite : Rewrite ends tail before new loss) : ∀ i ∈ new, i.kind = .store → ∃ j ∈ before, j.kind = .store := by
  intro i member store
  cases rewrite with
  | neutral _ _ folded | load _ _ folded | merge _ _ folded =>
    cases List.mem_singleton.1 member
    exact absurd store (Instruction.kind_ne_store folded rfl)
  | store _ stores => exact ⟨_,by simp,(Instruction.kind_eq_store_iff stores).2 ⟨_,_,rfl⟩⟩
  | jump | selfMove => cases member
  | @forward head copied reader new nops d target a calls idle copies means reads forwarded =>
    simp only [List.cons_append,List.mem_cons,List.mem_append,List.not_mem_nil,or_false] at member
    rcases member with rfl | member | rfl
    · exact ⟨_,by simp,store⟩
    · exact ⟨i,by simp [member],store⟩
    · refine ⟨reader,by simp,(Instruction.kind_eq_store_iff means).2 ?_⟩
      obtain ⟨address,value,is⟩ := (Instruction.kind_eq_store_iff forwarded).1 store
      cases a <;> first | exact ⟨_,_,rfl⟩ | cases is
  | immediate loads means folded placed =>
    cases List.mem_singleton.1 member
    cases placed <;> exact absurd store (Instruction.kind_ne_store folded rfl)

theorem Site.Rewrites.storeless {s : Site} {loss : Option Loss} (rewrites : s.Rewrites supply loss)
    (storeless : ∀ i ∈ s.code, i.kind ≠ .store) : ∀ i ∈ s.after, i.kind ≠ .store := by
  obtain ⟨pre,before,new,tail,is,becomes,-,rewrite⟩ := rewrites
  rw [is] at storeless
  intro i member store
  rw [becomes] at member
  simp only [List.mem_append] at member storeless
  rcases member with early | changed | late
  · exact storeless i (.inl early) store
  · obtain ⟨j,old,stored⟩ := rewrite.new_store i changed store
    exact storeless j (.inr (.inl old)) stored
  · exact storeless i (.inr (.inr late)) store

/-- All changes are safe in code that does not jump back, if none loses a register to a
    store. -/
theorem isSafe_of_leadsForward {code : List Instruction} (meaningful : Meaningful code) (forward : LeadsForward code)
    (clean : ∀ s ∈ sites .sparc supply code, ¬ s.Strands supply) : ∀ s ∈ sites .sparc supply code, s.IsSafe supply := by
  intro s member
  obtain ⟨⟨loss,rewrites⟩,-,leads⟩ :=
    rewrites_of_mem_sites (P := LeadsForward) (fun _ _ rewrites => rewrites.leadsForward) meaningful forward s member
  exact s.isSafe_of_forward rewrites leads (clean s member)

/-- Code without stores loses no register to one. -/
theorem not_strands_of_storeless {code : List Instruction} (meaningful : Meaningful code) (storeless : ∀ i ∈ code, i.kind ≠ .store) :
    ∀ s ∈ sites .sparc supply code, ¬ s.Strands supply := by
  intro s member
  obtain ⟨-,-,none⟩ := rewrites_of_mem_sites (P := fun code => ∀ i ∈ code, i.kind ≠ .store)
    (fun _ _ rewrites => rewrites.storeless) meaningful storeless s member
  rintro ⟨l,⟨pre,before,new,tail,is,-,-,rewrite⟩,store,-⟩
  refine none l.reader ?_ store
  rw [is]
  exact List.mem_append_right _ (List.mem_append_left _ rewrite.reader_mem)

end SparcBackend.Peephole

namespace SparcBackend
open Selection Peephole
open Machine (State isPhysical)
variable {Memory : Type}

/-- The optimizer keeps the behaviour of selected code, from every state and whatever the
    jumps, provided that no label stands twice and that no change drops a register that
    is needed: the same values are written to the same cells and the same procedures
    called with the same outgoing registers, in the same order and for as long as either
    code runs. Where one is left, so is the other, in the same way, and they agree on
    memory and on every register of the machine. -/
theorem optimize_behaves (w : World Memory) {supply : RegisterSupply} {p : Procedure} {frames : Bool} {f : CodeFragment}
    (accepted : (select .sparc supply p frames).outcome = .ok f) (virtual : ∀ r ∈ supply.children, isPhysical r = false)
    (once : (labels f.code).Nodup) (safe : ∀ s ∈ sites .sparc f.supply f.code, s.IsSafe f.supply) (m : State Memory) :
    System.Behaves (Machine.effects w f.code) (Machine.effects w (optimize .sparc f.supply f.code).code)
      (SameExit (isPhysical · = true)) ⟨.inside 0,m⟩ ⟨.inside 0,m⟩ := by
  obtain ⟨owned,proper⟩ := select_proper accepted
  have apart : ∀ r ∈ f.supply.children, isPhysical r = false := fun r member => (owned r member).elim (virtual r) id
  have meaningful : Meaningful f.code := fun i member => (proper i member).means
  refine (faithful_of_safe w apart meaningful once safe m).behaves.mono ?_
  rintro _ _ - ⟨exit,alike⟩
  refine ⟨exit,alike.mono ?_⟩
  intro r physical member
  exact absurd ((apart r member).symm.trans physical) (by decide)

def blank : State (Word → Word) := ⟨⟨fun _ => 0,fun _ => 0,[]⟩,0,0⟩

/-- A procedure that returns one more than another one does. -/
def successor : Procedure where
  className := "Test"
  methodName := "successor"
  body := [.move (.named "x") (.callNamed "f" [.named "%i0"]),.move (.named "%i0") (.binary .plus (.named "x") (.constant 1))]

theorem optimize_behaves_successor : ∃ f, (select .sparc {} successor true).outcome = .ok f ∧
    (optimize .sparc f.supply f.code).code ≠ f.code ∧
    System.Behaves (Machine.effects World.idle f.code) (Machine.effects World.idle (optimize .sparc f.supply f.code).code)
      (SameExit (isPhysical · = true)) ⟨.inside 0,blank⟩ ⟨.inside 0,blank⟩ := by
  obtain ⟨f,accepted⟩ : ∃ f, (select .sparc {} successor true).outcome = .ok f := ⟨_,rfl⟩
  refine ⟨f,accepted,?_,optimize_behaves World.idle accepted (by simp) ?_ ?_ _⟩
  · cases accepted
    decide +kernel
  · cases accepted
    decide +kernel
  · have meaningful : Meaningful f.code := fun i member => ((select_proper accepted).2 i member).means
    refine isSafe_of_leadsForward meaningful ?_ (not_strands_of_storeless meaningful ?_)
    · cases accepted
      decide +kernel
    · cases accepted
      decide +kernel

/-- A loop in which a register carries a value from one round to the next. -/
def carriedOver : Procedure where
  className := "Test"
  methodName := "carriedOver"
  body := [.move (.named "x") (.constant 5),.label ⟨"LOOP"⟩,.move (.named "%i0") (.named "x"),
    .move (.named "x") (.binary .plus (.named "%i1") (.constant 1)),.move (.named "%i1") (.named "x"),
    .branch .lt (.named "%i1") (.constant 2) ⟨"LOOP"⟩ ⟨"END"⟩,.label ⟨"END"⟩]

/-- Where a blank machine stands after some steps, and what it holds in `r`. -/
def holdsAfter (code : List Instruction) (n : Nat) (r : Register) : Option (Machine.Position × Word) :=
  ((Machine.effects World.idle code).steps n ⟨.inside 0,blank⟩).map fun c => (c.position,c.state.registers r)

theorem ends_of_holdsAfter {code : List Instruction} {n : Nat} {r : Register} {exit : Exit} {value : Word}
    (holds : holdsAfter code n r = some (.outside exit,value)) :
    ∃ last, (Machine.effects World.idle code).Ends ⟨.inside 0,blank⟩ last ∧ last.state.registers r = value := by
  obtain ⟨⟨position,m⟩,ran,is⟩ := Option.map_eq_some_iff.1 holds
  cases is
  exact ⟨_,⟨⟨n,ran⟩,rfl⟩,rfl⟩

/-- The value for the next round is lost where it is copied for the last time in the text. -/
theorem not_optimize_behaves_carriedOver : ∃ f, (select .sparc {} carriedOver false).outcome = .ok f ∧ (labels f.code).Nodup ∧
    ¬ System.Behaves (Machine.effects World.idle f.code) (Machine.effects World.idle (optimize .sparc f.supply f.code).code)
      (SameExit (isPhysical · = true)) ⟨.inside 0,blank⟩ ⟨.inside 0,blank⟩ := by
  obtain ⟨f,accepted⟩ : ∃ f, (select .sparc {} carriedOver false).outcome = .ok f := ⟨_,rfl⟩
  have before : holdsAfter f.code 24 ⟨"%i0"⟩ = some (.outside .bottom,1) := by
    cases accepted
    decide +kernel
  have after : holdsAfter (optimize .sparc f.supply f.code).code 14 ⟨"%i0"⟩ = some (.outside .bottom,5) := by
    cases accepted
    decide +kernel
  refine ⟨f,accepted,by cases accepted; decide +kernel,?_⟩
  intro behaves
  obtain ⟨last,ends,one⟩ := ends_of_holdsAfter before
  obtain ⟨final,ends',five⟩ := ends_of_holdsAfter after
  obtain ⟨other,also,same⟩ := behaves.ends last ends
  obtain rfl := System.ends_unique also ends'
  have equal := same.alike.registers_eq ⟨"%i0"⟩ rfl
  rw [one,five] at equal
  cases equal

end SparcBackend
