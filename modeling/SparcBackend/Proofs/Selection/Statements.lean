import SparcBackend.Proofs.Selection.Expressions

/-!
The instructions of a body do what its statements do. The statements are laid out one
after the other, so each label of the body is found in the code where the statements
behind it begin (`Layout.seek`). From there on the machine follows the body statement by
statement, and every run of one is a run of the other (`select_behaves`).
-/
namespace SparcBackend.Selection
open Machine (Action Next State block labelLine?)
variable {Memory : Type} {w : World Memory} {base supply mid left : RegisterSupply} {code : List Instruction}

/-- What the instructions do that cover an expression whose value is thrown away. -/
structure Performs (w : World Memory) (base supply : RegisterSupply) (e : Expression) (code : List Instruction)
    (left : RegisterSupply) : Prop where
  grows : supply ≤ left
  unlabelled : Unlabelled code
  runs : ∀ {s : Store Memory} {m : State Memory}, Store.Agree base.Knows s m.toStore → ∃ after last,
    e.perform w s = some after ∧ Follows w base supply code m last after

/-- An expression that is covered for its value may be thrown away. -/
theorem Computes.performs {e : Expression} {r : Register} (computes : Computes w base supply e r code left)
    (evaluates : ∀ s, e.perform w s = (e.eval w s).map Prod.snd) : Performs w base supply e code left := by
  refine ⟨computes.grows,computes.unlabelled,?_⟩
  intro s m agree
  obtain ⟨value,after,last,evals,follows,_⟩ := computes.runs agree
  refine ⟨after,last,?_,follows⟩
  rw [evaluates,evals]
  rfl

/-- The instructions that cover an expression for its effect have that effect. -/
theorem performs (w : World Memory) {e : Expression} {value : Operand}
    (yields : Yields (tileExpression .sparc .discarded e) supply value code left) (linear : e.IsLinear)
    (keeps : ∀ r ∈ e.registers, base.Keeps r) (le : base ≤ supply) : Performs w base supply e code left := by
  cases e with
  | memory address =>
    obtain ⟨x,first,s1,second,tiled,unread,rfl⟩ := yields_memory yields
    obtain ⟨rfl,rfl,rfl⟩ := yields_pure.1 unread
    obtain ⟨x,rfl,one⟩ := computes w tiled linear keeps le
    rw [List.append_nil]
    refine ⟨one.grows,one.unlabelled,?_⟩
    intro s m agree
    obtain ⟨u,after,last,evals,follows,-⟩ := one.runs agree
    refine ⟨after,last,?_,follows⟩
    simp [Expression.perform,evals]
  | call function arguments =>
    cases function with
    | name target =>
      obtain ⟨xs,first,s1,staging,s2,_,tiled,staged',called,rfl⟩ := yields_call yields
      obtain ⟨-,rfl,rfl⟩ := yields_callStaged_discarded called
      obtain ⟨rs,rfl,args⟩ := computesAll w tiled linear.2 keeps le
      obtain ⟨rfl,plain,-⟩ := staged w staged' fun r member => (args.keeps r member).2
      refine ⟨args.grows,args.unlabelled.append (plain.append (unlabelled_call target)),?_⟩
      intro s m agree
      obtain ⟨values,after,last,evals,follows⟩ := args.call target staged' agree
      refine ⟨_,last,?_,follows⟩
      simp [Expression.perform,Expression.eval,evals]
    | binary | call | constant | memory | resultOf | register | relation => exact absurd yields (not_yields_call (by simp))
  | resultOf statement value => exact linear.elim
  | binary | constant | name | register | relation =>
    have same : ∀ e : Expression, tileExpression .sparc .discarded e = tileExpression .sparc .value e →
        Yields (tileExpression .sparc .discarded e) supply value code left →
          Yields (tileExpression .sparc .value e) supply value code left := fun _ same => same ▸ id
    obtain ⟨r,-,computes⟩ := computes w (same _ (by simp only [tileExpression]) yields) linear keeps le
    exact computes.performs fun _ => rfl

/-! ### Statements -/

/-- Where a statement sends control, whose instructions end before `line`. -/
def landing (whole : List Instruction) (line : Nat) : Option Label → Machine.Position
  | none => .inside line
  | some target => (Next.goto target).position whole line

/-- What the instructions do that cover a statement, wherever they stand. -/
structure Covers (w : World Memory) (base : RegisterSupply) (statement : Statement) (code : List Instruction) : Prop where
  labels : (∃ name, statement.label? = some name ∧ code = [.label name]) ∨ statement.label? = none ∧ Unlabelled code
  runs : ∀ {whole before behind : List Instruction} {s : Store Memory} {m : State Memory},
    whole = before ++ code ++ behind → Store.Agree base.Knows s m.toStore →
      ∃ after target n last, statement.execute w s = some (after,target) ∧
        (Machine.system w whole).steps n ⟨.inside before.length,m⟩ =
          some ⟨landing whole (before.length+code.length) target,last⟩ ∧
        Store.Agree base.Knows after last.toStore ∧ (n = 0 → target = none)

/-- A statement behind which control goes on. -/
theorem Covers.straight {statement : Statement}
    (labels : (∃ name, statement.label? = some name ∧ code = [.label name]) ∨ statement.label? = none ∧ Unlabelled code)
    (runs : ∀ {s : Store Memory} {m : State Memory}, Store.Agree base.Knows s m.toStore → ∃ after last,
      statement.execute w s = some (after,none) ∧ block w code m = some last ∧ Store.Agree base.Knows after last.toStore) :
    Covers w base statement code := by
  refine ⟨labels,?_⟩
  intro whole before behind s m is agree
  obtain ⟨after,last,executes,done,agrees⟩ := runs agree
  exact ⟨after,none,code.length,last,executes,Machine.steps_block w before code behind is done,agrees,fun _ => rfl⟩

theorem Covers.jump {target : Label} : Covers w base (.jump target) [Machine.jump target,Machine.nop] := by
  refine ⟨.inr ⟨rfl,Unlabelled.cons (Instruction.action?_jump target) (fun _ => Machine.Action.noConfusion)
    (Unlabelled.cons Instruction.action?_nop (fun _ => Machine.Action.noConfusion) unlabelled_nil)⟩,?_⟩
  intro whole before behind s m is agree
  have here : whole = before ++ Machine.jump target :: Machine.nop :: behind := by simp [is]
  have one := Machine.step_here w here (Instruction.action?_jump target) m
  exact ⟨s,some target,1,m,rfl,System.steps_one one,agree,fun none => absurd none (by decide)⟩

/-- A conditional branch with a jump behind it goes to one of two labels. -/
theorem steps_branching (w : World Memory) {whole before behind : List Instruction} {op : RelOp} {ifTrue ifFalse : Label}
    (is : whole = before ++ Machine.branch op ifTrue :: Machine.nop :: Machine.jump ifFalse :: behind)
    (m : State Memory) : ∃ n, n ≠ 0 ∧ ∀ line, (Machine.system w whole).steps n ⟨.inside before.length,m⟩ =
      some ⟨landing whole line (some (if op.holds m.compared.1 m.compared.2 then ifTrue else ifFalse)),m⟩ := by
  have branch := Machine.step_here w is (Instruction.action?_branch op ifTrue) m
  by_cases holds : op.holds m.compared.1 m.compared.2 = true
  · refine ⟨1,by decide,fun line => ?_⟩
    simp only [Action.next,holds,if_true] at branch
    rw [if_pos holds]
    exact System.steps_one branch
  · refine ⟨3,by decide,fun line => ?_⟩
    simp only [Action.next,holds] at branch
    have is' : whole = (before ++ [Machine.branch op ifTrue]) ++ Machine.nop :: Machine.jump ifFalse :: behind := by simp [is]
    have is'' : whole = (before ++ [Machine.branch op ifTrue,Machine.nop]) ++ Machine.jump ifFalse :: behind := by simp [is]
    have filler := Machine.step_here w is' Instruction.action?_nop m
    have jump := Machine.step_here w is'' (Instruction.action?_jump ifFalse) m
    simp only [List.length_append,List.length_cons,List.length_nil] at filler jump
    rw [if_neg holds]
    exact System.steps_trans (System.steps_one branch) (System.steps_trans (System.steps_one filler) (System.steps_one jump))

/-- Two values are compared, and control goes to one of two labels. -/
theorem Covers.branch {op : RelOp} {a b : Expression} {ifTrue ifFalse : Label} {x y : Register}
    {first second : List Instruction} {compare : Instruction} (one : Computes w base supply a x first mid)
    (two : Computes w base mid b y second left) (means : compare.action? = some (.compare (.register x) (.register y))) :
    Covers w base (.branch op a b ifTrue ifFalse)
      (first ++ (second ++ [compare,Machine.branch op ifTrue,Machine.nop,Machine.jump ifFalse,Machine.nop])) := by
  have plain : Unlabelled [compare,Machine.branch op ifTrue,Machine.nop,Machine.jump ifFalse,Machine.nop] :=
    Unlabelled.cons means (fun _ => Machine.Action.noConfusion) (Unlabelled.cons (Instruction.action?_branch op ifTrue)
      (fun _ => Machine.Action.noConfusion) (Unlabelled.cons Instruction.action?_nop (fun _ => Machine.Action.noConfusion)
        (Unlabelled.cons (Instruction.action?_jump ifFalse) (fun _ => Machine.Action.noConfusion)
          (Unlabelled.cons Instruction.action?_nop (fun _ => Machine.Action.noConfusion) unlabelled_nil))))
  refine ⟨.inr ⟨rfl,one.unlabelled.append (two.unlabelled.append plain)⟩,?_⟩
  intro whole before behind s m is agree
  obtain ⟨u,t1,m1,evals,follows,rfl⟩ := one.runs agree
  obtain ⟨v,t2,m2,evals',follows',rfl⟩ := two.runs follows.agree
  have waited := follows'.frame x one.keeps
  have compared : Follows w base left [compare] m2 ((Action.compare (.register x) (.register y)).effect w m2) t2 :=
    Follows.single means rfl follows'.agree fun _ _ => rfl
  have straight := follows.trans (follows'.trans compared two.grows) one.grows
  have here : whole = before ++ (first ++ (second ++ [compare])) ++
      Machine.branch op ifTrue :: Machine.nop :: Machine.jump ifFalse :: Machine.nop :: behind := by simp [is]
  have ran := Machine.steps_block w before _ _ here straight.done
  obtain ⟨n,some_steps,branched⟩ := steps_branching w here
    ((Action.compare (.register x) (.register y)).effect w m2)
  rw [List.length_append] at branched
  refine ⟨t2,_,_,_,?_,System.steps_trans ran (branched _),straight.agree,?_⟩
  · simp [Statement.execute,evals,evals',Action.effect,Operand.eval,waited]
  · intro zero
    exact absurd (Nat.eq_zero_of_add_eq_zero_left zero) some_steps

theorem Covers.assign {r x : Register} {source : Expression} {copy : Instruction}
    (computes : Computes w base supply source x code left) (means : copy.action? = some (.assign r (.operand (.register x)))) :
    Covers w base (.move (.register r) source) (code ++ [copy]) := by
  have plain : Unlabelled [copy] := Unlabelled.cons means (fun _ => Machine.Action.noConfusion) unlabelled_nil
  refine Covers.straight (.inr ⟨rfl,computes.unlabelled.append plain⟩) ?_
  intro s m agree
  obtain ⟨u,t,m1,evals,follows,rfl⟩ := computes.runs agree
  refine ⟨t.set r (m1.registers x),(Action.assign r (.operand (.register x))).effect w m1,?_,?_,?_⟩
  · simp [Statement.execute,evals]
  · rw [Machine.block_append,follows.done,Option.bind_some,Machine.block_single w means rfl]
  · exact (follows.agree.set r _).mono fun _ => .inl

theorem Covers.write {x y : Register} {address source : Expression} {first second : List Instruction} {store : Instruction}
    (one : Computes w base supply source x first mid) (two : Computes w base mid address y second left)
    (means : store.action? = some (.store (.direct (.register y)) (.register x))) :
    Covers w base (.move (.memory address) source) (first ++ (second ++ [store])) := by
  have plain : Unlabelled [store] := Unlabelled.cons means (fun _ => Machine.Action.noConfusion) unlabelled_nil
  refine Covers.straight (.inr ⟨rfl,one.unlabelled.append (two.unlabelled.append plain)⟩) ?_
  intro s m agree
  obtain ⟨u,t1,m1,evals,follows,rfl⟩ := one.runs agree
  obtain ⟨v,t2,m2,evals',follows',rfl⟩ := two.runs follows.agree
  have waited := follows'.frame x one.keeps
  refine ⟨t2.write w (m2.registers y) (m2.registers x),(Action.store (.direct (.register y)) (.register x)).effect w m2,
    ?_,?_,follows'.agree.write w _ _⟩
  · simp [Statement.execute,evals,evals',waited]
  · rw [Machine.block_append,follows.done,Option.bind_some,Machine.block_append,follows'.done,Option.bind_some,
      Machine.block_single w means rfl]

/-- The instructions that cover a statement do what it does. -/
theorem covers (w : World Memory) {statement : Statement} {u : Unit}
    (yields : Yields (tileStatement .sparc statement) supply u code left) (linear : statement.IsLinear)
    (keeps : ∀ r ∈ statement.registers, base.Keeps r) (le : base ≤ supply) (single : ∀ a b, statement ≠ .seq a b) :
    supply ≤ left ∧ Covers w base statement code := by
  cases statement with
  | branch op a b ifTrue ifFalse =>
    obtain ⟨x,first,s1,y,second,tiled,tiled',rfl⟩ := yields_branch yields
    obtain ⟨x,rfl,one⟩ := computes w tiled linear.1 (fun r member => keeps r (List.mem_append_left _ member)) le
    obtain ⟨y,rfl,two⟩ := computes w tiled' linear.2 (fun r member => keeps r (List.mem_append_right _ member))
      (RegisterSupply.le_trans le one.grows)
    exact ⟨RegisterSupply.le_trans one.grows two.grows,Covers.branch one two (by simp)⟩
  | discard value =>
    obtain ⟨_,tiled⟩ := yields_discard yields
    have effect := performs w tiled linear keeps le
    refine ⟨effect.grows,Covers.straight (.inr ⟨rfl,effect.unlabelled⟩) ?_⟩
    intro s m agree
    obtain ⟨after,last,performed,follows⟩ := effect.runs agree
    exact ⟨after,last,by simp [Statement.execute,performed],follows.done,follows.agree⟩
  | jump target =>
    obtain ⟨rfl,rfl⟩ := yields_jump yields
    exact ⟨RegisterSupply.le_refl _,Covers.jump⟩
  | label name =>
    obtain ⟨rfl,rfl⟩ := yields_label yields
    refine ⟨RegisterSupply.le_refl _,Covers.straight (.inl ⟨name,rfl,rfl⟩) ?_⟩
    intro s m agree
    exact ⟨s.pass name,(Action.label name).effect w m,rfl,rfl,agree.pass name⟩
  | move destination source =>
    cases destination with
    | register r =>
      obtain ⟨x,first,note,tiled,rfl⟩ := yields_registerMove yields
      obtain ⟨x,rfl,one⟩ := computes w tiled linear.2 (fun r member => keeps r (List.mem_append_right _ member)) le
      exact ⟨one.grows,Covers.assign one (by simp)⟩
    | memory address =>
      obtain ⟨x,first,s1,y,second,note,tiled,tiled',rfl⟩ := yields_memoryMove yields
      obtain ⟨x,rfl,one⟩ := computes w tiled linear.2 (fun r member => keeps r (List.mem_append_right _ member)) le
      obtain ⟨y,rfl,two⟩ := computes w tiled' linear.1 (fun r member => keeps r (List.mem_append_left _ member))
        (RegisterSupply.le_trans le one.grows)
      exact ⟨RegisterSupply.le_trans one.grows two.grows,Covers.write one two (by simp)⟩
    | binary | call | constant | name | resultOf | relation => exact absurd yields (not_yields_move (by simp) (by simp))
  | seq first second => exact absurd rfl (single first second)

/-! ### Bodies -/

/-- The code of statements one after the other. -/
inductive Layout (w : World Memory) (base : RegisterSupply) : List Statement → List Instruction → Prop
  | nil : Layout w base [] []
  | cons {statement : Statement} {code : List Instruction} {rest : List Statement} {more : List Instruction} :
      Covers w base statement code → Layout w base rest more → Layout w base (statement :: rest) (code ++ more)

theorem Layout.append {first second : List Statement} {code more : List Instruction} (one : Layout w base first code)
    (two : Layout w base second more) : Layout w base (first ++ second) (code ++ more) := by
  induction one with
  | nil => exact two
  | cons covers _ ih =>
    rw [List.cons_append,List.append_assoc]
    exact .cons covers ih

theorem labelLine?_append {first second : List Instruction} {name : Label} (unlabelled : ∀ i ∈ first, i.label? ≠ some name) :
    labelLine? (first ++ second) name = (labelLine? second name).map (· + first.length) := by
  have absent : first.findIdx? (fun i => i.label? = some name) = none := by
    rw [List.findIdx?_eq_none_iff]
    intro i member
    simpa using unlabelled i member
  simp only [labelLine?,List.findIdx?_append,absent,Option.none_or]

/-- A label is found in the code where the statements from the label on are laid out, or
    it is missing from both. -/
theorem Layout.seek {body : List Statement} {code : List Instruction} (layout : Layout w base body code) (name : Label) :
    Ir.seek? name body = none ∧ labelLine? code name = none ∨
      ∃ rest before behind, Ir.seek? name body = some rest ∧ labelLine? code name = some before.length ∧
        code = before ++ behind ∧ Layout w base rest behind := by
  induction layout with
  | nil => exact .inl ⟨rfl,rfl⟩
  | @cons statement code rest more covers layout ih =>
    by_cases here : statement.label? = some name
    · right
      rcases covers.labels with ⟨other,is,rfl⟩ | ⟨is,-⟩
      · rw [here] at is
        cases is
        refine ⟨_,[],_,?_,?_,rfl,.cons covers layout⟩
        · simp [Ir.seek?,here]
        · simp [labelLine?,List.findIdx?_cons,Instruction.label?]
      · simp [here] at is
    · have unlabelled : ∀ i ∈ code, i.label? ≠ some name := by
        intro i member
        rcases covers.labels with ⟨other,is,rfl⟩ | ⟨-,plain⟩
        · cases List.mem_singleton.1 member
          rw [is] at here
          exact here
        · simp [plain i member]
      rw [labelLine?_append unlabelled]
      simp only [Ir.seek?,if_neg here]
      rcases ih with ⟨absent,missing⟩ | ⟨found,before,behind,sought,line,rfl,laid⟩
      · exact .inl ⟨absent,by simp [missing]⟩
      · refine .inr ⟨found,code ++ before,behind,sought,?_,by simp,laid⟩
        simp [line,Nat.add_comm]

/-- The instructions that cover a statement are those of the statements it strings together. -/
theorem layout_statement (w : World Memory) {statement : Statement} {u : Unit}
    (yields : Yields (tileStatement .sparc statement) supply u code left) (linear : statement.IsLinear)
    (keeps : ∀ r ∈ statement.registers, base.Keeps r) (le : base ≤ supply) :
    supply ≤ left ∧ Layout w base statement.flatten code := by
  induction statement using Statement.flatten.induct generalizing supply left code with
  | case1 first second ihFirst ihSecond =>
    rw [tileStatement,yields_enter_bind] at yields
    obtain ⟨_,one,mid,two,tiled,tiled',rfl⟩ := yields_bind.1 yields
    obtain ⟨grows,laid⟩ := ihFirst tiled linear.1 (fun r member => keeps r (List.mem_append_left _ member)) le
    obtain ⟨grows',laid'⟩ := ihSecond tiled' linear.2 (fun r member => keeps r (List.mem_append_right _ member))
      (RegisterSupply.le_trans le grows)
    rw [Statement.flatten]
    exact ⟨RegisterSupply.le_trans grows grows',laid.append laid'⟩
  | case2 statement single =>
    obtain ⟨grows,covered⟩ := covers w yields linear keeps le single
    rw [Statement.flatten.eq_2 _ single,← List.append_nil code]
    exact ⟨grows,.cons covered .nil⟩

theorem layout_body (w : World Memory) : ∀ {body : List Statement} {supply left : RegisterSupply} {code : List Instruction} {u : Unit},
    Yields (tileBody .sparc body) supply u code left → (∀ s ∈ body, s.IsLinear) →
      (∀ r ∈ body.flatMap Statement.registers, base.Keeps r) → base ≤ supply → Layout w base (body.flatMap Statement.flatten) code := by
  intro body
  induction body with
  | nil =>
    intro supply left code u yields _ _ _
    obtain ⟨-,rfl,-⟩ := yields_pure.1 yields
    exact .nil
  | cons s rest ih =>
    intro supply left code u yields linear keeps le
    rw [tileBody] at yields
    obtain ⟨_,one,mid,two,tiled,others,rfl⟩ := yields_bind.1 yields
    rw [List.flatMap_cons] at keeps ⊢
    obtain ⟨grows,laid⟩ := layout_statement w tiled (linear s List.mem_cons_self)
      (fun r member => keeps r (List.mem_append_left _ member)) le
    exact laid.append (ih others (fun s member => linear s (List.mem_cons_of_mem _ member))
      (fun r member => keeps r (List.mem_append_right _ member)) (RegisterSupply.le_trans le grows))

/-! ### Runs -/

/-- A body and its code stand at the same place, or both are left in the same way. -/
inductive Corresponds (w : World Memory) (base : RegisterSupply) (code : List Instruction) :
    Ir.Configuration Memory → Machine.Configuration Memory → Prop
  | inside {rest : List Statement} {before behind : List Instruction} {s : Store Memory} {m : State Memory}
      (is : code = before ++ behind) (laid : Layout w base rest behind) (agree : Store.Agree base.Knows s m.toStore) :
      Corresponds w base code ⟨.inside rest,s⟩ ⟨.inside before.length,m⟩
  | outside {exit : Exit} {s : Store Memory} {m : State Memory} (regular : exit ≠ .stuck)
      (agree : Store.Agree base.Knows s m.toStore) : Corresponds w base code ⟨.outside exit,s⟩ ⟨.outside exit,m⟩

def remaining (c : Ir.Configuration Memory) : Nat :=
  match c.position with
  | .inside rest => rest.length+1
  | .outside _ => 0

/-- A body and its code go to a label together. -/
theorem Corresponds.goto {body : List Statement} {code : List Instruction} (layout : Layout w base body code)
    (target : Label) (rest : List Statement) (line : Nat) {s : Store Memory} {m : State Memory}
    (agree : Store.Agree base.Knows s m.toStore) :
    Corresponds w base code ⟨Ir.after body rest (some target),s⟩ ⟨landing code line (some target),m⟩ := by
  rcases layout.seek target with ⟨absent,missing⟩ | ⟨found,before,behind,sought,here,is,laid⟩
  · simp only [Ir.after,landing,Next.position,absent,missing,Option.elim_none]
    exact .outside (by simp) agree
  · simp only [Ir.after,landing,Next.position,sought,here,Option.elim_some]
    exact .inside is laid agree

/-- A statement and its instructions lead to the same place. -/
theorem Corresponds.advance {body rest : List Statement} {statement : Statement} {code before own behind : List Instruction}
    {s : Store Memory} {m : State Memory} (layout : Layout w base body code) (is : code = before ++ (own ++ behind))
    (covers : Covers w base statement own) (laid : Layout w base rest behind) (agree : Store.Agree base.Knows s m.toStore) :
    ∃ next n last, Ir.step w body ⟨.inside (statement :: rest),s⟩ = some next ∧
      (Machine.system w code).steps n ⟨.inside before.length,m⟩ = some last ∧ Corresponds w base code next last ∧
        (n = 0 → remaining next < remaining ⟨.inside (statement :: rest),s⟩) := by
  obtain ⟨after,target,n,last,executes,ran,agrees,moves⟩ := covers.runs (is.trans (List.append_assoc _ _ _).symm) agree
  refine ⟨⟨Ir.after body rest target,after⟩,n,_,by simp [Ir.step,executes],ran,?_,?_⟩
  · cases target with
    | none =>
      have there : code = (before ++ own) ++ behind := by rw [is,List.append_assoc]
      have inside := Corresponds.inside there laid agrees
      rw [List.length_append] at inside
      exact inside
    | some target => exact Corresponds.goto layout target rest _ agrees
  · intro zero
    rw [moves zero]
    simp [remaining,Ir.after]

/-- A body does not stop inside. -/
theorem Corresponds.moves {body rest : List Statement} {code before behind : List Instruction} {s : Store Memory}
    {m : State Memory} (layout : Layout w base body code) (is : code = before ++ behind) (laid : Layout w base rest behind)
    (agree : Store.Agree base.Knows s m.toStore) : Ir.step w body ⟨.inside rest,s⟩ ≠ none := by
  intro stopped
  cases laid with
  | nil => cases stopped
  | cons covers laid =>
    obtain ⟨next,_,_,steps,_⟩ := Corresponds.advance layout is covers laid agree
    exact absurd (steps.symm.trans stopped) (Option.some_ne_none next)

/-- The machine follows a body statement by statement. -/
theorem simulation {body : List Statement} {code : List Instruction} (layout : Layout w base body code) :
    System.Simulation (Ir.system w body) (Machine.system w code) (Corresponds w base code) remaining where
  trace_eq := by
    rintro _ _ (⟨-,-,agree⟩ | ⟨-,agree⟩)
    · exact agree.trace_eq
    · exact agree.trace_eq
  stops := by
    rintro _ _ (⟨is,laid,agree⟩ | ⟨-,-⟩) stopped
    · exact absurd stopped (Corresponds.moves layout is laid agree)
    · rfl
  advances := by
    rintro _ _ next (⟨is,laid,agree⟩ | ⟨-,-⟩) stepped
    · cases laid with
      | nil =>
        rename_i before s m
        cases stepped
        have beyond : code[before.length]? = none := by simp [is]
        refine ⟨0,1,_,_,rfl,System.steps_one (Machine.step_bottom w m beyond),.outside (by simp) agree,?_⟩
        intro absurdity
        cases absurdity
      | cons covers laid =>
        obtain ⟨there,n,last,steps,ran,corresponds,falls⟩ := Corresponds.advance layout is covers laid agree
        exact ⟨0,n,there,last,System.steps_one steps,ran,corresponds,falls⟩
    · cases stepped

/-- Two runs have left their code in the same way, with the same memory and the same
    contents of certain registers. -/
structure SameOutcome (registers : Register → Prop) (a : Ir.Configuration Memory) (b : Machine.Configuration Memory) : Prop where
  exit : ∃ exit, exit ≠ .stuck ∧ a.position = .outside exit ∧ b.position = .outside exit
  agree : Store.Agree registers a.store b.state.toStore

end SparcBackend.Selection

namespace SparcBackend
open Selection
variable {Memory : Type}

/-- The instructions selected for a body behave as the body does: from every store, both
    pass the same labels, write the same values to the same cells and call the same
    procedures with the same outgoing registers, in the same order and for as long as
    either runs. Where one leaves the body, so does the other, in the same way, and they
    agree on memory and on every register of the method and of the machine. -/
theorem select_behaves (w : World Memory) {supply : RegisterSupply} {p : Procedure} {f : CodeFragment}
    (accepted : (select .sparc supply p false).outcome = .ok f) (linear : ∀ s ∈ p.body, s.IsLinear)
    (apart : ∀ r ∈ p.body.flatMap Statement.registers, ¬ IsOutgoing r) (s : Store Memory) (compared : Word × Word) :
    System.Behaves (Ir.system w (p.body.flatMap Statement.flatten)) (Machine.system w f.code)
      (SameOutcome fun r => r ∈ p.body.flatMap Statement.registers ∨ Machine.isPhysical r = true)
      ⟨.inside (p.body.flatMap Statement.flatten),s⟩ ⟨.inside 0,⟨s,compared⟩⟩ := by
  have owned : ∀ r ∈ p.body.flatMap Statement.registers,
      (supply.adoptAll (virtualRegisters p.body)).Keeps r := by
    intro r member
    refine ⟨?_,apart r member⟩
    cases physical : Machine.isPhysical r with
    | true => exact .inr physical
    | false => exact .inl (RegisterSupply.mem_adoptAll.2 (.inr (List.mem_filter.2 ⟨member,by simp [physical]⟩)))
  obtain ⟨code,yields,is⟩ := yields_of_select accepted
  simp only [Bool.false_eq_true,if_false] at is
  subst is
  have layout := layout_body w yields linear owned (RegisterSupply.le_refl _)
  have start : Corresponds w (supply.adoptAll (virtualRegisters p.body)) f.code ⟨.inside (p.body.flatMap Statement.flatten),s⟩
      ⟨.inside 0,⟨s,compared⟩⟩ :=
    Corresponds.inside (m := ⟨s,compared⟩) (List.nil_append f.code).symm layout (Store.Agree.refl _ s)
  refine ((simulation layout).behaves start).mono ?_
  rintro _ _ stopped (⟨is,laid,agree⟩ | ⟨regular,agree⟩)
  · exact absurd stopped (Corresponds.moves layout is laid agree)
  · refine ⟨⟨_,regular,rfl,rfl⟩,agree.mono ?_⟩
    rintro r (member | physical)
    · exact (owned r member).1
    · exact .inr physical

/-- A call whose second argument is a call, and a store of what it returns. -/
def nestedCall : Procedure where
  className := "Test"
  methodName := "nested"
  body := [.move (.named "x") (.callNamed "f" [.named "%i0",.callNamed "g" [.binary .plus (.named "%i1") (.constant 1)]]),
    .move (.memory (.named "%i0")) (.named "x")]

theorem select_behaves_nestedCall : ∃ f, (select .sparc {} nestedCall false).outcome = .ok f ∧
    System.Behaves (Ir.system World.idle (nestedCall.body.flatMap Statement.flatten)) (Machine.system World.idle f.code)
      (SameOutcome fun r => r ∈ nestedCall.body.flatMap Statement.registers ∨ Machine.isPhysical r = true)
      ⟨.inside (nestedCall.body.flatMap Statement.flatten),⟨fun _ => 0,fun _ => 0,[]⟩⟩
      ⟨.inside 0,⟨⟨fun _ => 0,fun _ => 0,[]⟩,0,0⟩⟩ := by
  have apart : ∀ r ∈ nestedCall.body.flatMap Statement.registers, outgoingIndex? r = none := by decide +kernel
  refine ⟨_,rfl,select_behaves World.idle rfl ?_ ?_ _ _⟩
  · simp [nestedCall,Statement.IsLinear,Expression.IsLinear,Expression.AreLinear,Expression.named,Expression.callNamed]
  · intro r member
    exact outgoingIndex?_eq_none.1 (apart r member)

end SparcBackend
