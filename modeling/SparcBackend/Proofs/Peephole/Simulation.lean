import SparcBackend.Proofs.Ir.Freshness
import SparcBackend.Proofs.Machine.Flow
import SparcBackend.Proofs.Peephole.Exchange
import SparcBackend.Proofs.Peephole.Run

/-!
One change of the optimizer leaves a run as it was, if nobody needs what it drops. The
old code and the new one share the lines in front of the change and the lines behind it;
there they run in step, alike in every register but the dropped one, and in that one,
too, wherever it is live in the old code.
-/
namespace SparcBackend.Peephole
open Machine (Action Configuration Flow Live Next State block isPhysical labelLine?)
variable {Memory : Type} {supply : RegisterSupply}

/-- Every line has a meaning. -/
def Meaningful (code : List Instruction) : Prop := ∀ i ∈ code, i.action? ≠ none

/-- The names of the labels in some code. -/
def labels (code : List Instruction) : List Label := code.filterMap Instruction.label?

/-- A change is a rewrite of some lines in the middle of the code. -/
def Site.Rewrites (supply : RegisterSupply) (s : Site) (loss : Option Loss) : Prop :=
  ∃ pre before new tail, s.code = pre ++ (before ++ tail) ∧ s.after = pre ++ (new ++ tail) ∧ pre.length = s.line ∧
    Rewrite (fun lines r => endsOn supply s.code (s.line + lines) r) tail before new loss

/-- Every change that is made to meaningful code is a rewrite. -/
theorem Site.rewrites {s : Site} (made : s.IsMade .sparc supply) (meaningful : Meaningful s.code) :
    ∃ loss, s.Rewrites supply loss := by
  unfold Site.IsMade changeAt? at made
  split at made
  · cases made
  · rename_i head rest behind
    have split : s.code = s.code.take s.line ++ head :: rest := by rw [← behind,List.take_append_drop]
    have decodes : ∀ i ∈ head :: rest, i.action? ≠ none := fun i member => meaningful i (by rw [split]; simp [List.mem_cons.1 member])
    have inside : (s.code.take s.line).length = s.line := by
      have some_left : (s.code.drop s.line).length = rest.length+1 := by rw [behind]; rfl
      rw [List.length_drop] at some_left
      rw [List.length_take]
      omega
    obtain ⟨loss,before,new,tail,is,changed,rewrite⟩ := rewrites_of_change decodes made
    refine ⟨loss,s.code.take s.line,before,new,tail,?_,?_,inside,rewrite⟩
    · rw [← is]
      exact split
    · rw [Site.after,applyAt,changed]

section
variable {ends : EndsAfter} {pre before new tail : List Instruction} {loss : Option Loss}

/-- The lines that a rewrite takes away have a meaning and are no labels. -/
theorem Rewrite.before_plain (rewrite : Rewrite ends tail before new loss) :
    ∀ i ∈ before, ∃ a, i.action? = some a ∧ ∀ name, a ≠ .label name := by
  intro i member
  cases rewrite with
  | neutral computes | selfMove computes =>
    cases List.mem_singleton.1 member
    exact ⟨_,computes,fun _ => Machine.Action.noConfusion⟩
  | load computes uses | store computes uses | merge computes uses =>
    rcases List.mem_cons.1 member with rfl | member
    · exact ⟨_,computes,fun _ => Machine.Action.noConfusion⟩
    · cases List.mem_singleton.1 member
      exact ⟨_,uses,fun _ => Machine.Action.noConfusion⟩
  | jump jumps idle =>
    rcases List.mem_cons.1 member with rfl | member
    · exact ⟨_,jumps,fun _ => Machine.Action.noConfusion⟩
    · exact ⟨_,idle i member,fun _ => Machine.Action.noConfusion⟩
  | @forward head copied reader new nops d target a calls idle copies means reads =>
    simp only [List.cons_append,List.mem_cons,List.mem_append,List.not_mem_nil,or_false] at member
    rcases member with rfl | member | rfl | rfl
    · exact ⟨_,calls,fun _ => Machine.Action.noConfusion⟩
    · exact ⟨_,idle i member,fun _ => Machine.Action.noConfusion⟩
    · exact ⟨_,copies,fun _ => Machine.Action.noConfusion⟩
    · exact ⟨_,means,mapUses_id a ▸ (straight_of_reads means reads id).2⟩
  | immediate loads means folded placed =>
    rcases List.mem_cons.1 member with rfl | member
    · exact ⟨_,loads,fun _ => Machine.Action.noConfusion⟩
    · cases List.mem_singleton.1 member
      exact ⟨_,means,by cases placed <;> exact fun _ => Machine.Action.noConfusion⟩

/-- The lines that a rewrite brings have a meaning and are no labels. -/
theorem Rewrite.new_plain (rewrite : Rewrite ends tail before new loss) :
    ∀ i ∈ new, ∃ a, i.action? = some a ∧ ∀ name, a ≠ .label name := by
  intro i member
  cases rewrite with
  | neutral _ _ folded | load _ _ folded | store _ _ folded | merge _ _ folded =>
    cases List.mem_singleton.1 member
    exact ⟨_,folded,fun _ => Machine.Action.noConfusion⟩
  | jump | selfMove => cases member
  | forward calls idle copies means reads forwarded =>
    simp only [List.cons_append,List.mem_cons,List.mem_append,List.not_mem_nil,or_false] at member
    rcases member with rfl | member | rfl
    · exact ⟨_,calls,fun _ => Machine.Action.noConfusion⟩
    · exact ⟨_,idle i member,fun _ => Machine.Action.noConfusion⟩
    · exact ⟨_,forwarded,(straight_of_reads means reads _).2⟩
  | immediate loads means folded placed =>
    cases List.mem_singleton.1 member
    exact ⟨_,folded,by cases placed <;> exact fun _ => Machine.Action.noConfusion⟩

theorem Rewrite.before_length {l : Loss} (rewrite : Rewrite ends tail before new (some l)) : before.length = l.distance+1 := by
  cases rewrite <;> simp

theorem Rewrite.gone {l : Loss} (rewrite : Rewrite ends tail before new (some l)) : ends l.distance l.register = true := by
  cases rewrite <;> assumption

theorem Rewrite.before_pos (rewrite : Rewrite ends tail before new loss) : 0 < before.length := by
  cases rewrite <;> simp

/-- Lines without labels in the middle contribute none. -/
theorem labels_window (pre tail : List Instruction) {lines : List Instruction}
    (plain : ∀ i ∈ lines, ∃ a, i.action? = some a ∧ ∀ name, a ≠ .label name) :
    labels (pre ++ (lines ++ tail)) = labels pre ++ labels tail := by
  have none : lines.filterMap Instruction.label? = [] := by
    rw [List.filterMap_eq_nil_iff]
    intro i member
    obtain ⟨a,means,other⟩ := plain i member
    exact Instruction.label?_eq_none means other
  simp only [labels,List.filterMap_append,none,List.nil_append]

/-- A label is in front of the lines in the middle or behind them. -/
theorem labelLine?_window (pre tail : List Instruction) {lines : List Instruction}
    (plain : ∀ i ∈ lines, ∃ a, i.action? = some a ∧ ∀ name, a ≠ .label name) (name : Label) :
    labelLine? (pre ++ (lines ++ tail)) name =
      (labelLine? pre name).or ((labelLine? tail name).map (pre.length + lines.length + ·)) := by
  have none : lines.findIdx? (fun i => i.label? = some name) = none := by
    rw [List.findIdx?_eq_none_iff]
    intro i member
    obtain ⟨a,means,other⟩ := plain i member
    simp [Instruction.label?_eq_none means other]
  simp only [labelLine?,List.findIdx?_append,none,Option.none_or,Option.map_map]
  congr 2
  funext line
  simp only [Function.comp_apply]
  omega

end

/-- A made change keeps every line meaningful. -/
theorem Site.Rewrites.meaningful {s : Site} {loss : Option Loss} (rewrites : s.Rewrites supply loss)
    (meaningful : Meaningful s.code) : Meaningful s.after := by
  obtain ⟨pre,before,new,tail,is,becomes,-,rewrite⟩ := rewrites
  rw [Meaningful,is] at meaningful
  intro i member
  rw [becomes] at member
  simp only [List.mem_append] at member
  rcases member with early | middle | late
  · exact meaningful i (List.mem_append_left _ early)
  · obtain ⟨a,means,-⟩ := rewrite.new_plain i middle
    simp [means]
  · exact meaningful i (List.mem_append_right _ (List.mem_append_right _ late))

theorem Site.Rewrites.labels_eq {s : Site} {loss : Option Loss} (rewrites : s.Rewrites supply loss) :
    labels s.after = labels s.code := by
  obtain ⟨pre,before,new,tail,is,becomes,-,rewrite⟩ := rewrites
  rw [is,becomes,labels_window pre tail rewrite.before_plain,labels_window pre tail rewrite.new_plain]

/-- What rewrites preserve is preserved by the changes of meaningful code. -/
theorem preserved_of_rewrites {G : Site → Prop} {P : List Instruction → Prop}
    (step : ∀ (s : Site) (loss : Option Loss), s.Rewrites supply loss → G s → P s.code → P s.after) :
    ∀ s : Site, s.IsMade .sparc supply → G s → Meaningful s.code ∧ P s.code → Meaningful s.after ∧ P s.after := by
  rintro s made good ⟨meaningful,holds⟩
  obtain ⟨loss,rewrites⟩ := s.rewrites made meaningful
  exact ⟨rewrites.meaningful meaningful,step s loss rewrites good holds⟩

theorem rewrites_of_mem_sites {P : List Instruction → Prop}
    (step : ∀ (s : Site) (loss : Option Loss), s.Rewrites supply loss → P s.code → P s.after) {code : List Instruction}
    (meaningful : Meaningful code) (start : P code) :
    ∀ s ∈ sites .sparc supply code, (∃ loss, s.Rewrites supply loss) ∧ Meaningful s.code ∧ P s.code := by
  have preserved := preserved_of_rewrites (G := fun _ => True) fun s loss rewrites _ => step s loss rewrites
  intro s member
  obtain ⟨made,holds⟩ := sites_induction (P := fun code => Meaningful code ∧ P code) (fun s made => preserved s made trivial)
    ⟨meaningful,start⟩ s member
  exact ⟨s.rewrites made holds.1,holds⟩

/-! ### Labels -/

/-- Where no label stands twice, every label is the first of its name. -/
theorem labelLine?_of_nodup {code : List Instruction} {line : Nat} {name : Label} (once : (labels code).Nodup)
    (here : code[line]? = some (.label name)) : labelLine? code name = some line := by
  induction code generalizing line with
  | nil => cases here
  | cons i rest ih =>
    simp only [labelLine?,List.findIdx?_cons]
    cases line with
    | zero =>
      cases here
      simp [Instruction.label?]
    | succ line =>
      have there : rest[line]? = some (.label name) := here
      have later : name ∈ labels rest := List.mem_filterMap.2 ⟨_,List.mem_of_getElem? there,rfl⟩
      have other : i.label? ≠ some name := by
        intro same
        rw [labels,List.filterMap_cons_some same] at once
        exact (List.nodup_cons.1 once).1 later
      have fewer : (labels rest).Nodup := by
        refine List.Nodup.sublist ?_ once
        exact (List.sublist_cons_self i rest).filterMap _
      have found := ih fewer there
      simp only [labelLine?] at found
      simp [other,found]

/-- A label at the head of some code has only labels in front of it. -/
theorem line_of_leadingLabels {tail : List Instruction} {target : Label} (follows : target ∈ leadingLabels tail) :
    ∃ k, (∀ i ∈ tail.take k, ∃ name, i.action? = some (.label name)) ∧ tail[k]? = some (.label target) := by
  induction tail with
  | nil => cases follows
  | cons i rest ih =>
    cases isLabel : i.label? with
    | none => simp [leadingLabels,Instruction.isLabel,isLabel] at follows
    | some name =>
      obtain rfl := Machine.label?_eq_some.1 isLabel
      have head : leadingLabels (.label name :: rest) = name :: leadingLabels rest := by
        simp [leadingLabels,List.takeWhile_cons,Instruction.isLabel,Instruction.label?]
      rw [head] at follows
      rcases List.mem_cons.1 follows with rfl | later
      · exact ⟨0,by simp,rfl⟩
      · obtain ⟨k,front,there⟩ := ih later
        refine ⟨k+1,?_,there⟩
        intro i member
        rcases List.mem_cons.1 member with rfl | member
        · exact ⟨name,rfl⟩
        · exact front i member

theorem block_labels (w : World Memory) {lines : List Instruction} (front : ∀ i ∈ lines, ∃ name, i.action? = some (.label name))
    (m : State Memory) : ∃ last, block w lines m = some last ∧ State.Alike (fun _ => True) m last := by
  induction lines generalizing m with
  | nil => exact ⟨m,rfl,State.Alike.refl _ m⟩
  | cons i rest ih =>
    obtain ⟨name,means⟩ := front i List.mem_cons_self
    obtain ⟨last,done,alike⟩ := ih (fun i member => front i (List.mem_cons_of_mem _ member)) ((Action.label name).effect w m)
    have passed : State.Alike (fun _ => True) m ((Action.label name).effect w m) :=
      ⟨fun _ _ => rfl,rfl,rfl,by simp [Store.effects,Action.effect,Event.isEffect]⟩
    exact ⟨last,by rw [Machine.block_cons w means rfl,done],passed.trans alike⟩

/-! ### Runs -/

/-- The dropped register is not among those that are needed at a line. -/
def Needed (loss : Option Loss) (code : List Instruction) (line : Nat) (r : Register) : Prop :=
  ∀ l, loss = some l → r ≠ l.register ∨ Live code l.register line

/-- The registers that are not dropped. -/
def Spared (loss : Option Loss) (r : Register) : Prop := ∀ l, loss = some l → r ≠ l.register

/-- Lines of the old and the new code that correspond. -/
inductive Lines (pre before new : List Instruction) : Nat → Nat → Prop
  | early {line : Nat} (le : line ≤ pre.length) : Lines pre before new line line
  | late (line : Nat) : Lines pre before new (pre.length+before.length+line) (pre.length+new.length+line)

/-- Machines that run in step, one with the old code and one with the new. -/
inductive InStep (loss : Option Loss) (pre before new tail : List Instruction) : Configuration Memory → Configuration Memory → Prop
  | inside {line line' : Nat} {m n : State Memory} (lines : Lines pre before new line line')
      (alike : State.Alike (Needed loss (pre ++ (before ++ tail)) line) m n) :
      InStep loss pre before new tail ⟨.inside line,m⟩ ⟨.inside line',n⟩
  | outside {exit : Exit} {m n : State Memory} (alike : State.Alike (Spared loss) m n) :
      InStep loss pre before new tail ⟨.outside exit,m⟩ ⟨.outside exit,n⟩

section
variable {ends : EndsAfter} {loss : Option Loss} {pre before new tail : List Instruction} {w : World Memory} {m n : State Memory}

/-- What is needed behind a line was needed in front of it, or the line writes it. -/
theorem Needed.back {code : List Instruction} {line next : Nat} {i : Instruction} {a : Action} {r : Register}
    (here : code[line]? = some i) (means : i.action? = some a) (goes : (a.next w m).position code line = .inside next)
    (needed : Needed loss code next r) : Needed loss code line r ∨ a.destination? = some r := by
  by_cases written : a.destination? = some r
  · exact .inr written
  · left
    intro l is
    rcases needed l is with other | live
    · exact .inl other
    · by_cases same : r = l.register
      · subst same
        have keeps : i.writes l.register = false := by
          rw [← Bool.not_eq_true,Instruction.writes_iff means]
          exact written
        exact .inr (.step here keeps (.of_step here means goes) live)
      · exact .inl same

theorem Needed.of_consumes {code : List Instruction} {line : Nat} {i : Instruction} {a : Action} (here : code[line]? = some i)
    (means : i.action? = some a) : ∀ r, .register r ∈ a.operands → Needed loss code line r := by
  intro r member l _
  by_cases same : r = l.register
  · subst same
    exact .inr (.read here ((Instruction.consumes_iff means _).2 member))
  · exact .inl same

/-- A jump to a label lands on lines that correspond, or leaves both codes. -/
theorem lines_of_label (pre : List Instruction) (rewrite : Rewrite ends tail before new loss) (target : Label) :
    labelLine? (pre ++ (before ++ tail)) target = none ∧ labelLine? (pre ++ (new ++ tail)) target = none ∨
      ∃ line line', labelLine? (pre ++ (before ++ tail)) target = some line ∧
        labelLine? (pre ++ (new ++ tail)) target = some line' ∧ Lines pre before new line line' := by
  rw [labelLine?_window pre tail rewrite.before_plain,labelLine?_window pre tail rewrite.new_plain]
  cases early : labelLine? pre target with
  | some line =>
    have inside : line < pre.length := by
      obtain ⟨bound,-⟩ := List.findIdx?_eq_some_iff_getElem.1 early
      exact bound
    exact .inr ⟨line,line,rfl,rfl,.early (Nat.le_of_lt inside)⟩
  | none =>
    cases late : labelLine? tail target with
    | none => exact .inl ⟨rfl,rfl⟩
    | some line => exact .inr ⟨_,_,rfl,rfl,.late line⟩

/-- A line that both codes share is executed in step. -/
theorem InStep.shared (rewrite : Rewrite ends tail before new loss) (virtual : ∀ l, loss = some l → isPhysical l.register = false)
    {line line' : Nat} {i : Instruction} {a : Action} (means : i.action? = some a)
    (here : (pre ++ (before ++ tail))[line]? = some i) (next : Lines pre before new (line+1) (line'+1))
    (alike : State.Alike (Needed loss (pre ++ (before ++ tail)) line) m n) :
    InStep loss pre before new tail ⟨(a.next w m).position (pre ++ (before ++ tail)) line,a.effect w m⟩
      ⟨(a.next w n).position (pre ++ (new ++ tail)) line',a.effect w n⟩ := by
  have physical : ∀ r, isPhysical r = true → Needed loss (pre ++ (before ++ tail)) line r := by
    intro r known l is
    left
    rintro rfl
    exact absurd ((virtual l is).symm.trans known) (by decide)
  have same := alike.effect w physical (Needed.of_consumes here means)
  rw [← alike.next_eq w physical a]
  have inside {there there' : Nat} (goes : (a.next w m).position (pre ++ (before ++ tail)) line = .inside there)
      (lines : Lines pre before new there there') :
      InStep loss pre before new tail ⟨.inside there,a.effect w m⟩ ⟨.inside there',a.effect w n⟩ :=
    .inside lines (same.mono fun r needed => Needed.back here means goes needed)
  have outside (exit : Exit) : InStep loss pre before new tail ⟨.outside exit,a.effect w m⟩ ⟨.outside exit,a.effect w n⟩ :=
    .outside (same.mono fun r spared => .inl fun l is => .inl (spared l is))
  cases goes : a.next w m with
  | onward =>
    refine inside ?_ next
    rw [goes]
    rfl
  | goto target =>
    rcases lines_of_label pre rewrite target with ⟨absent,absent'⟩ | ⟨there,there',found,found',lines⟩
    · simp only [Next.position,absent,absent',Option.elim_none]
      exact outside _
    · simp only [Next.position,found,found',Option.elim_some]
      refine inside ?_ lines
      rw [goes,Next.position,found,Option.elim_some]
  | leave exit => exact outside exit

/-- How far a run may go before it leaves the code or jumps back. -/
def ahead (code : List Instruction) (c : Configuration Memory) : Nat :=
  match c.position with
  | .inside line => code.length+1-line
  | .outside _ => 0

/-- Nobody needs what a rewrite drops: its reader is not a store that uses it twice, and it
    is not live behind the reader unless the reader writes it. -/
def Loss.IsSpared (l : Loss) (code : List Instruction) (line : Nat) : Prop :=
  ¬ l.Strands ∧ (l.reader.writes l.register = true ∨ ¬ Live code l.register (line+l.distance+1))

/-- The lines that are changed are executed in step as a whole. -/
theorem InStep.window (rewrite : Rewrite ends tail before new loss) (virtual : ∀ l, loss = some l → isPhysical l.register = false)
    (spared : ∀ l, loss = some l → l.IsSpared (pre ++ (before ++ tail)) pre.length)
    (once : (labels (pre ++ (before ++ tail))).Nodup)
    (alike : State.Alike (Needed loss (pre ++ (before ++ tail)) pre.length) m n) :
    ∃ j k c c', (Machine.system w (pre ++ (before ++ tail))).steps (j+1) ⟨.inside pre.length,m⟩ = some c ∧
      (Machine.system w (pre ++ (new ++ tail))).steps k ⟨.inside pre.length,n⟩ = some c' ∧ InStep loss pre before new tail c c' ∧
      ahead (pre ++ (before ++ tail)) c < ahead (pre ++ (before ++ tail)) ⟨.inside pre.length,m⟩ := by
  obtain ⟨j,length⟩ : ∃ j, before.length = j+1 := Nat.exists_eq_succ_of_ne_zero (Nat.ne_of_gt rewrite.before_pos)
  have blocks {m' n' : State Memory} (ran : block w before m = some m') (ran' : block w new n = some n')
      (same : State.Alike (Needed loss (pre ++ (before ++ tail)) (pre.length+before.length)) m' n') :
      ∃ j k c c', (Machine.system w (pre ++ (before ++ tail))).steps (j+1) ⟨.inside pre.length,m⟩ = some c ∧
        (Machine.system w (pre ++ (new ++ tail))).steps k ⟨.inside pre.length,n⟩ = some c' ∧ InStep loss pre before new tail c c' ∧
        ahead (pre ++ (before ++ tail)) c < ahead (pre ++ (before ++ tail)) ⟨.inside pre.length,m⟩ := by
    have steps := Machine.steps_block w pre before tail (List.append_assoc _ _ _).symm ran
    have steps' := Machine.steps_block w pre new tail (List.append_assoc _ _ _).symm ran'
    refine ⟨j,new.length,_,_,length ▸ steps,steps',.inside (.late 0) same,?_⟩
    simp only [ahead,List.length_append]
    omega
  cases loss with
  | some l =>
    obtain ⟨notStranded,notNeeded⟩ := spared l rfl
    rw [Nat.add_assoc,← rewrite.before_length] at notNeeded
    have first : ∀ i, before.head? = some i → i.consumes l.register = true → Live (pre ++ (before ++ tail)) l.register pre.length := by
      intro i is consumes
      obtain ⟨rest,rfl⟩ := List.head?_eq_some_iff.1 is
      exact .read (by simp) consumes
    obtain ⟨m',n',ran,ran',same⟩ := rewrite.exchange w (fun _ => virtual l rfl) notStranded first
      (fun live => notNeeded.resolve_right (not_not_intro live)) (alike.mono fun r needed l' is => by cases is; exact needed)
    exact blocks ran ran' (same.mono fun r needed => needed l rfl)
  | none =>
    rcases rewrite.exchange_none w (alike.mono fun r _ l is => by cases is) with
      ⟨head,nops,target,rfl,rfl,jumps,follows⟩ | ⟨m',n',ran,ran',same⟩
    · obtain ⟨k,front,there⟩ := line_of_leadingLabels follows
      have far : (pre ++ (head :: nops ++ tail))[pre.length+(head :: nops).length+k]? = some (.label target) := by
        rw [Nat.add_assoc,List.getElem?_append_right (Nat.le_add_right _ _),Nat.add_sub_cancel_left,
          List.getElem?_append_right (Nat.le_add_right _ _),Nat.add_sub_cancel_left,there]
      have found := labelLine?_of_nodup once far
      have one := Machine.step_action w m (show (pre ++ (head :: nops ++ tail))[pre.length]? = some head by simp) jumps
      simp only [Action.next,Next.position,found,Option.elim_some] at one
      -- The old code jumps to the label; the new one passes the labels in front of it.
      obtain ⟨last,done,passed⟩ := block_labels w front n
      have whole : pre ++ ([] ++ tail) = pre ++ tail.take k ++ tail.drop k := by simp
      have steps := Machine.steps_block w pre (tail.take k) (tail.drop k) whole done
      have short : (tail.take k).length = k := by
        obtain ⟨bound,-⟩ := List.getElem?_eq_some_iff.1 there
        rw [List.length_take]
        omega
      have lines : Lines pre (head :: nops) [] (pre.length+(head :: nops).length+k) (pre.length+(tail.take k).length) := by
        rw [short]
        exact .late k
      refine ⟨0,_,_,_,System.steps_one one,steps,.inside lines ?_,?_⟩
      · exact State.Alike.trans (alike.mono fun r _ l is => by cases is) (passed.mono fun _ _ => trivial)
      · obtain ⟨bound,-⟩ := List.getElem?_eq_some_iff.1 far
        simp only [ahead,List.length_cons] at bound ⊢
        omega
    · exact blocks ran ran' (same.mono fun _ _ => trivial)

/-- One step of the old code is matched. -/
theorem InStep.advance (rewrite : Rewrite ends tail before new loss) (virtual : ∀ l, loss = some l → isPhysical l.register = false)
    (spared : ∀ l, loss = some l → l.IsSpared (pre ++ (before ++ tail)) pre.length)
    (meaningful : Meaningful (pre ++ (before ++ tail))) (once : (labels (pre ++ (before ++ tail))).Nodup) {line line' : Nat}
    (lines : Lines pre before new line line') (alike : State.Alike (Needed loss (pre ++ (before ++ tail)) line) m n) :
    ∃ j k c c', (Machine.system w (pre ++ (before ++ tail))).steps (j+1) ⟨.inside line,m⟩ = some c ∧
      (Machine.system w (pre ++ (new ++ tail))).steps k ⟨.inside line',n⟩ = some c' ∧ InStep loss pre before new tail c c' ∧
      (k = 0 → ahead (pre ++ (before ++ tail)) c < ahead (pre ++ (before ++ tail)) ⟨.inside line,m⟩) := by
  have shared {i : Instruction} (here : (pre ++ (before ++ tail))[line]? = some i) (here' : (pre ++ (new ++ tail))[line']? = some i)
      (next : Lines pre before new (line+1) (line'+1)) :
      ∃ j k c c', (Machine.system w (pre ++ (before ++ tail))).steps (j+1) ⟨.inside line,m⟩ = some c ∧
        (Machine.system w (pre ++ (new ++ tail))).steps k ⟨.inside line',n⟩ = some c' ∧ InStep loss pre before new tail c c' ∧
        (k = 0 → ahead (pre ++ (before ++ tail)) c < ahead (pre ++ (before ++ tail)) ⟨.inside line,m⟩) := by
    obtain ⟨a,means⟩ := Option.ne_none_iff_exists'.1 (meaningful i (List.mem_of_getElem? here))
    refine ⟨0,1,_,_,System.steps_one (Machine.step_action w m here means),System.steps_one (Machine.step_action w n here' means),
      InStep.shared rewrite virtual means here next alike,?_⟩
    intro absurdity
    cases absurdity
  cases lines with
  | early le =>
    rcases Nat.lt_or_eq_of_le le with inside | rfl
    · obtain ⟨i,there⟩ : ∃ i, pre[line]? = some i := ⟨_,List.getElem?_eq_getElem inside⟩
      exact shared (by rw [List.getElem?_append_left inside,there]) (by rw [List.getElem?_append_left inside,there]) (.early inside)
    · obtain ⟨j,k,c,c',steps,steps',inStep,falls⟩ := InStep.window (w := w) rewrite virtual spared once alike
      exact ⟨j,k,c,c',steps,steps',inStep,fun _ => falls⟩
  | late line =>
    have at_tail (lines : List Instruction) : (pre ++ (lines ++ tail))[pre.length+lines.length+line]? = tail[line]? := by
      rw [Nat.add_assoc,List.getElem?_append_right (Nat.le_add_right _ _),Nat.add_sub_cancel_left,
        List.getElem?_append_right (Nat.le_add_right _ _),Nat.add_sub_cancel_left]
    cases there : tail[line]? with
    | some i => exact shared (by rw [at_tail,there]) (by rw [at_tail,there]) (.late (line+1))
    | none =>
      refine ⟨0,1,_,_,System.steps_one (Machine.step_bottom w m (by rw [at_tail,there])),
        System.steps_one (Machine.step_bottom w n (by rw [at_tail,there])),
        .outside (alike.mono fun r spared l is => .inl (spared l is)),?_⟩
      intro absurdity
      cases absurdity

/-- The old code and the new run in step. -/
theorem InStep.simulation (rewrite : Rewrite ends tail before new loss) (w : World Memory)
    (virtual : ∀ l, loss = some l → isPhysical l.register = false)
    (spared : ∀ l, loss = some l → l.IsSpared (pre ++ (before ++ tail)) pre.length)
    (meaningful : Meaningful (pre ++ (before ++ tail))) (once : (labels (pre ++ (before ++ tail))).Nodup) :
    System.Simulation (Machine.effects w (pre ++ (before ++ tail))) (Machine.effects w (pre ++ (new ++ tail)))
      (InStep loss pre before new tail) (ahead (pre ++ (before ++ tail))) where
  trace_eq := by
    rintro _ _ (⟨-,alike⟩ | ⟨alike⟩)
    · exact alike.effects_eq
    · exact alike.effects_eq
  stops := by
    rintro _ _ (⟨lines,alike⟩ | ⟨alike⟩) stopped
    · obtain ⟨j,_,_,_,steps,_⟩ := InStep.advance (w := w) rewrite virtual spared meaningful once lines alike
      rw [← Machine.steps_effects,System.steps_succ,stopped] at steps
      cases steps
    · rfl
  advances := by
    rintro _ _ next (⟨lines,alike⟩ | ⟨alike⟩) stepped
    · simp only [Machine.steps_effects]
      exact InStep.advance rewrite virtual spared meaningful once lines alike
    · cases stepped

end

/-- Two runs of machines have left their code in the same way and agree on some registers
    and in all else that counts. -/
structure SameExit (registers : Register → Prop) (c c' : Configuration Memory) : Prop where
  exit : ∃ exit, c.position = .outside exit ∧ c'.position = .outside exit
  alike : State.Alike registers c.state c'.state

/-- Nobody needs what a change drops. -/
def Site.IsSafe (supply : RegisterSupply) (s : Site) : Prop :=
  ∃ loss, s.Rewrites supply loss ∧ ∀ l, loss = some l → l.IsSpared s.code s.line

/-- A change that drops nothing that is needed keeps the behaviour of the code. -/
theorem Site.behaves {s : Site} (safe : s.IsSafe supply) (w : World Memory) (virtual : ∀ r ∈ supply.children, isPhysical r = false)
    (meaningful : Meaningful s.code) (once : (labels s.code).Nodup) (m : State Memory) :
    System.Behaves (Machine.effects w s.code) (Machine.effects w s.after) (SameExit (· ∉ supply.children)) ⟨.inside 0,m⟩
      ⟨.inside 0,m⟩ := by
  obtain ⟨loss,⟨pre,before,new,tail,is,becomes,line,rewrite⟩,spared⟩ := safe
  rw [is] at meaningful once spared
  rw [is,becomes]
  rw [← line] at spared
  have owned : ∀ l, loss = some l → l.register ∈ supply.children := by
    rintro l rfl
    exact RegisterSupply.owns_iff.1 (Bool.and_eq_true _ _ ▸ rewrite.gone).1
  have start : InStep loss pre before new tail ⟨.inside 0,m⟩ ⟨.inside 0,m⟩ := .inside (.early (Nat.zero_le _)) (State.Alike.refl _ m)
  have runs := (InStep.simulation rewrite w (fun l is => virtual _ (owned l is)) spared meaningful once).behaves start
  refine runs.mono ?_
  rintro _ _ stopped (⟨lines,alike⟩ | ⟨alike⟩)
  · obtain ⟨j,_,_,_,steps,_⟩ := InStep.advance (w := w) rewrite (fun l is => virtual _ (owned l is)) spared meaningful once lines alike
    rw [← Machine.steps_effects,System.steps_succ,stopped] at steps
    cases steps
  · refine ⟨⟨_,rfl,rfl⟩,alike.mono ?_⟩
    rintro r unowned l is rfl
    exact unowned (owned l is)

end SparcBackend.Peephole
