import SparcBackend.Proofs.Selection.Gathering

/-!
Selected lines are those of the nodes of a tree. Of the registers that were there before,
they write those that a move or a call among the nodes assigns, and no others; they call
where there is a call; and they gather operands where a node reads several.
-/
namespace SparcBackend
open Machine (Action Source groupRegister)

/-- The register that an expression names as its value, with or without statements in
    front. -/
def Expression.bare? : Expression → Option Register
  | .register r => some r
  | .resultOf _ value => value.bare?
  | _ => none

namespace Node

/-- A node, without what is below it, puts a value into a register: a move does, and a call
    with its arguments. -/
def Overwrites (r : Register) : Node → Prop
  | .statement (.move (.register d) _) => d = r
  | .expression (.call _ arguments) => ∃ k < arguments.length, groupRegister 'o' k = r
  | _ => False

def isCall : Node → Bool
  | .expression (.call ..) => true
  | _ => false

end Node

theorem Expression.mem_allRegisters {e : Expression} {r : Register} (among : r ∈ e.registers) :
    ∀ {es : List Expression}, e ∈ es → r ∈ Expression.allRegisters es
  | _ :: _, .head _ => List.mem_append_left _ among
  | _ :: _, .tail _ member => List.mem_append_right _ (mem_allRegisters among member)

namespace Selection
section
variable {base supply mid left : RegisterSupply} {nodes others : List Node} {code more : List Instruction}

/-! ### What lines do to registers that were there before -/

/-- Lines disturb the registers that were there before as some nodes do, and these assign
    registers of `base` only. -/
structure Emits (base supply : RegisterSupply) (nodes : List Node) (code : List Instruction) : Prop where
  known : ∀ n ∈ nodes, ∀ r, n.Overwrites r → base.Knows r
  tame : ∀ i ∈ code, ∀ text, i.action? ≠ some (.special text)
  calls : ∀ i ∈ code, ∀ target, i.action? = some (.call target) → ∃ n ∈ nodes, n.isCall = true
  writes : ∀ r, supply.Knows r → ((∃ i ∈ code, i.writes r = true) ↔ ∃ n ∈ nodes, n.Overwrites r)

theorem Emits.append (one : Emits base supply nodes code) (two : Emits base mid others more) (le : supply ≤ mid) :
    Emits base supply (nodes ++ others) (code ++ more) := by
  refine ⟨?_,?_,?_,?_⟩
  · intro n member
    exact (List.mem_append.1 member).elim (one.known n) (two.known n)
  · intro i member
    exact (List.mem_append.1 member).elim (one.tame i) (two.tame i)
  · intro i member target means
    rcases List.mem_append.1 member with early | late
    · obtain ⟨n,among,calls⟩ := one.calls i early target means
      exact ⟨n,List.mem_append_left _ among,calls⟩
    · obtain ⟨n,among,calls⟩ := two.calls i late target means
      exact ⟨n,List.mem_append_right _ among,calls⟩
  · intro r known
    simp only [List.mem_append,or_and_right,exists_or,one.writes r known,two.writes r (known.mono le)]

theorem Emits.perm (emits : Emits base supply nodes code) (same : nodes.Perm others) : Emits base supply others code := by
  refine ⟨fun n member => emits.known n (same.mem_iff.2 member),emits.tame,?_,?_⟩
  · intro i member target means
    obtain ⟨n,among,calls⟩ := emits.calls i member target means
    exact ⟨n,same.mem_iff.1 among,calls⟩
  · intro r known
    simp only [emits.writes r known,same.mem_iff]

/-- No line, no node. -/
theorem Emits.nil : Emits base supply [] [] := ⟨by simp,by simp,by simp,by simp⟩

/-- A node that by itself disturbs nothing. -/
theorem Emits.silent {n : Node} (silent : ∀ r, ¬ n.Overwrites r) : Emits base supply [n] [] :=
  ⟨by simp [silent],by simp,by simp,by simp [silent]⟩

/-- A line that disturbs nothing. -/
theorem Emits.line {i : Instruction} {a : Action} (means : i.action? = some a) (tame : ∀ text, a ≠ .special text)
    (stays : ∀ target, a ≠ .call target) (unknown : ∀ d, a.destination? = some d → ¬ supply.Knows d) :
    Emits base supply [] [i] := by
  refine ⟨by simp,?_,?_,?_⟩
  · intro j member text special
    cases List.mem_singleton.1 member
    exact tame text (Option.some.inj (means.symm.trans special))
  · intro j member target called
    cases List.mem_singleton.1 member
    exact absurd (Option.some.inj (means.symm.trans called)) (stays target)
  · intro r known
    simp only [List.mem_singleton,exists_eq_left,List.not_mem_nil,false_and,exists_false,iff_false]
    intro writes
    exact unknown r ((Instruction.writes_iff means r).1 writes) known

/-- A line that does what its node says, a move into a register. -/
theorem Emits.move {i : Instruction} {d : Register} {source : Source} {e : Expression}
    (means : i.action? = some (.assign d source)) (known : base.Knows d) :
    Emits base supply [.statement (.move (.register d) e)] [i] := by
  refine ⟨?_,?_,?_,?_⟩
  · intro n member r writes
    cases List.mem_singleton.1 member
    cases writes
    exact known
  · intro j member text special
    cases List.mem_singleton.1 member
    cases means.symm.trans special
  · intro j member target called
    cases List.mem_singleton.1 member
    cases means.symm.trans called
  · intro r _
    simp [Instruction.writes_iff means,Action.destination?,Node.Overwrites]

/-- Arguments are moved and a procedure is called. -/
theorem Emits.call {target : Label} {arguments : List Expression} {rs : List Register} {moves : List Instruction} {i : Instruction}
    (few : rs.length ≤ Machine.groupSize) (all : rs.length = arguments.length)
    (moved : moves.map Instruction.action? = rs.mapIdx fun k r => some (.assign (groupRegister 'o' k) (.operand (.register r))))
    (called : i.action? = some (.call target)) :
    Emits base supply [.expression (.call (.name target) arguments)] (moves ++ [i]) := by
  have does {j : Instruction} (member : j ∈ moves) : ∃ k < rs.length, ∃ r, j.action? =
      some (.assign (groupRegister 'o' k) (.operand (.register r))) := by
    have among := List.mem_map_of_mem (f := Instruction.action?) member
    rw [moved,List.mem_mapIdx] at among
    obtain ⟨k,inside,is⟩ := among
    exact ⟨k,inside,_,is.symm⟩
  refine ⟨?_,?_,?_,?_⟩
  · intro n member r writes
    cases List.mem_singleton.1 member
    obtain ⟨k,inside,rfl⟩ := writes
    exact .inr (isPhysical_outgoing ⟨k,by omega⟩)
  · intro j member text special
    rcases List.mem_append.1 member with early | last
    · obtain ⟨k,-,r,means⟩ := does early
      cases means.symm.trans special
    · cases List.mem_singleton.1 last
      cases called.symm.trans special
  · exact fun _ _ _ _ => ⟨_,List.mem_singleton.2 rfl,rfl⟩
  · intro r _
    simp only [List.mem_singleton,exists_eq_left,Node.Overwrites]
    constructor
    · rintro ⟨j,member,writes⟩
      rcases List.mem_append.1 member with early | last
      · obtain ⟨k,inside,x,means⟩ := does early
        cases (Instruction.writes_iff means r).1 writes
        exact ⟨k,by omega,rfl⟩
      · cases List.mem_singleton.1 last
        cases (Instruction.writes_iff called r).1 writes
    · rintro ⟨k,inside,rfl⟩
      have there : some (Action.assign (groupRegister 'o' k) (.operand (.register rs[k]))) ∈ moves.map Instruction.action? := by
        rw [moved,List.mem_mapIdx]
        exact ⟨k,by omega,rfl⟩
      obtain ⟨j,member,means⟩ := List.mem_map.1 there
      exact ⟨j,List.mem_append_left _ member,(Instruction.writes_iff means _).2 rfl⟩

/-! ### Coverings -/

/-- The operands of a gathering mention registers of `base` only, all known from the start. -/
def Gathering.Knows (base : RegisterSupply) (n : Node) (q : Gathering) : Prop :=
  base ≤ q.supply ∧ ∀ e ∈ n.operands, ∀ r ∈ e.registers, base.Knows r

/-- The operands of a gathering are known, and what stands between them and the last line
    are moves. -/
structure Gathering.Fits (base : RegisterSupply) (n : Node) (q : Gathering) : Prop where
  knows : q.Knows base n
  moves : ∀ i ∈ q.reading.dropLast, i.kind = .move

theorem Gathering.Fits.shift {n : Node} {q : Gathering} (fits : q.Fits base n) (lines : Nat) : (q.shift lines).Fits base n :=
  ⟨fits.knows,fits.moves⟩

/-- Lines are those of some nodes: they disturb what these disturb, and read where these
    read. -/
structure Renders (base supply : RegisterSupply) (nodes : List Node) (code : List Instruction) (left : RegisterSupply) : Prop where
  grows : supply ≤ left
  emits : Emits base supply nodes code
  fits : Gathers nodes code (Gathering.Fits base)

theorem Renders.gathers (renders : Renders base supply nodes code left) : Gathers nodes code (Gathering.Knows base) :=
  renders.fits.imp fun _ _ _ => Gathering.Fits.knows

theorem Renders.append (one : Renders base supply nodes code mid) (two : Renders base mid others more left) :
    Renders base supply (nodes ++ others) (code ++ more) left :=
  ⟨RegisterSupply.le_trans one.grows two.grows,one.emits.append two.emits one.grows,
    one.fits.append two.fits fun _ _ lines fits => fits.shift lines⟩

theorem Renders.perm (renders : Renders base supply nodes code left) (same : nodes.Perm others) :
    Renders base supply others code left :=
  ⟨renders.grows,renders.emits.perm same,renders.fits.perm same⟩

theorem Renders.nil : Renders base supply [] [] supply := ⟨RegisterSupply.le_refl supply,.nil,.none (by simp)⟩

/-- A node without a line of its own. -/
theorem Renders.silent {n : Node} (silent : ∀ r, ¬ n.Overwrites r) (lone : n.gathers = false) :
    Renders base supply [n] [] supply := ⟨RegisterSupply.le_refl supply,.silent silent,.none (by simp [lone])⟩

/-- A line that disturbs nothing. -/
theorem Renders.line {i : Instruction} {a : Action} (grows : supply ≤ left) (means : i.action? = some a)
    (tame : ∀ text, a ≠ .special text) (stays : ∀ target, a ≠ .call target)
    (unknown : ∀ d, a.destination? = some d → ¬ supply.Knows d) : Renders base supply [] [i] left :=
  ⟨grows,.line means tame stays unknown,.none (by simp)⟩

/-- A line that writes no register. -/
theorem Renders.bare {i : Instruction} {a : Action} (means : i.action? = some a) (tame : ∀ text, a ≠ .special text)
    (stays : ∀ target, a ≠ .call target) (writes : a.destination? = none) : Renders base supply [] [i] supply :=
  .line (RegisterSupply.le_refl supply) means tame stays (by simp [writes])

/-- A line with a value for a minted register. -/
theorem Renders.fresh {source : Source} {value : Operand} (yields : YieldsFresh source supply value code left) :
    Renders base supply [] code left := by
  obtain ⟨i,means,-,rfl,rfl⟩ := yields
  refine .line supply.le_create means nofun nofun fun d is => ?_
  cases is
  exact supply.not_knows_create

theorem Renders.read {n : Node} {pieces : List Piece} {reading : List Instruction}
    (renders : Renders base supply nodes (pieces.flatMap Piece.lines) mid) (several : n.gathers = true)
    (evaluates : Evaluates supply n.operands pieces mid) (reads : Reads n (pieces.map Piece.register) reading)
    (own : Emits base mid [n] reading) (moves : ∀ i ∈ reading.dropLast, i.kind = .move)
    (names : ∀ e ∈ n.operands, ∀ r ∈ e.registers, base.Knows r) (le : base ≤ supply) (grows : mid ≤ left) :
    Renders base supply (nodes ++ [n]) (pieces.flatMap Piece.lines ++ reading) left := by
  have fits := renders.fits.read (q := ⟨supply,mid,0,pieces,reading⟩) several rfl evaluates reads ⟨⟨le,names⟩,moves⟩
  exact ⟨RegisterSupply.le_trans renders.grows grows,renders.emits.append own renders.grows,fits⟩

/-- A line that disturbs nothing reads two operands. -/
theorem Renders.read_pair {n : Node} {a b : Expression} {x y : Register} {i : Instruction} {last : RegisterSupply}
    (one : Renders base supply nodes code mid) (two : Renders base mid others more last)
    (tiled : Yields (tileExpression .sparc .value a) supply (.register x) code mid)
    (tiled' : Yields (tileExpression .sparc .value b) mid (.register y) more last)
    (several : n.gathers = true) (are : n.operands = [a,b]) (reads : Reads n [x,y] [i]) (silent : ∀ r, ¬ n.Overwrites r)
    (line : Renders base last [] [i] left) (names_a : ∀ r ∈ a.registers, base.Knows r)
    (names_b : ∀ r ∈ b.registers, base.Knows r) (le : base ≤ supply) :
    Renders base supply (nodes ++ others ++ [n]) (code ++ (more ++ [i])) left := by
  have lines : [⟨x,code⟩,⟨y,more⟩].flatMap Piece.lines = code ++ more := by simp
  have operands : Renders base supply (nodes ++ others) ([⟨x,code⟩,⟨y,more⟩].flatMap Piece.lines) last := lines ▸ one.append two
  have names : ∀ e ∈ n.operands, ∀ r ∈ e.registers, base.Knows r := by simpa [are] using ⟨names_a,names_b⟩
  have own := (Emits.silent silent).append line.emits (RegisterSupply.le_refl last)
  have read := operands.read several (are ▸ .pair tiled tiled') reads own (by simp) names le line.grows
  rw [lines,List.append_assoc code] at read
  exact read

/-- Where the value of an expression waits: in the register that the expression names, or in
    one that nobody knew before. -/
def Waits (e : Expression) (supply : RegisterSupply) (r : Register) (left : RegisterSupply) : Prop :=
  left.Knows r ∧ (e.bare? = some r ∨ e.bare? = none ∧ ¬ supply.Knows r)

theorem Waits.fresh {e : Expression} {source : Source} {value : Operand} (computed : e.bare? = none) (le : supply ≤ mid)
    (yields : YieldsFresh source mid value code left) : ∃ r, value = .register r ∧ Waits e supply r left := by
  obtain ⟨i,-,rfl,-,rfl⟩ := yields
  exact ⟨_,rfl,mid.knows_create,.inr ⟨computed,fun known => mid.not_knows_create (known.mono le)⟩⟩

/-- Staging moves the arguments, each to its place. -/
theorem yields_stage {u : Unit} : ∀ {rs : List Register} {index : Nat} {supply : RegisterSupply} {code : List Instruction},
    Yields (Munch.stage .sparc index (rs.map .register)) supply u code left → index ≤ Machine.groupSize →
      left = supply ∧ index+rs.length ≤ Machine.groupSize ∧ (∀ i ∈ code, i.kind = .move) ∧ code.map Instruction.action? =
        rs.mapIdx fun k r => some (.assign (groupRegister 'o' (index+k)) (.operand (.register r))) := by
  intro rs
  induction rs with
  | nil =>
    intro index supply code yields bound
    obtain ⟨-,rfl,rfl⟩ := yields_pure.1 yields
    exact ⟨rfl,bound,by simp,rfl⟩
  | cons r rest ih =>
    intro index supply code yields _
    obtain ⟨bound,note,more,rfl,others⟩ := yields_stage_cons yields
    obtain ⟨rfl,few,moves,moved⟩ := ih others bound
    refine ⟨rfl,by rw [List.length_cons]; omega,by simpa using moves,?_⟩
    rw [List.map_cons,moved,List.mapIdx_cons,Instruction.action?_withNote,Instruction.action?_move]
    simp only [Nat.add_zero,List.cons.injEq]
    refine ⟨rfl,congrArg (List.mapIdx · rest) ?_⟩
    funext k x
    rw [show index+1+k = index+(k+1) by omega]

/-- Control is transferred, and the slot behind it filled. -/
theorem Renders.transfer {i : Instruction} {a : Action} (means : i.action? = some a) (tame : ∀ text, a ≠ .special text)
    (stays : ∀ target, a ≠ .call target) (writes : a.destination? = none) : Renders base supply [] [i,Machine.nop] supply :=
  (Renders.bare means tame stays writes).append (.bare Instruction.action?_nop nofun nofun rfl)

mutual

theorem renders_statement : ∀ {s : Statement} {supply left : RegisterSupply} {u : Unit} {code : List Instruction},
    Yields (tileStatement .sparc s) supply u code left → (∀ r ∈ s.registers, base.Knows r) → base ≤ supply →
      Renders base supply s.nodes code left
  | .branch op a b ifTrue ifFalse, supply, left, u, code, yields, names, le => by
    obtain ⟨_,first,s1,_,second,tiled,tiled',rfl⟩ := yields_branch yields
    have names_a : ∀ r ∈ a.registers, base.Knows r := fun r member => names r (List.mem_append_left _ member)
    have names_b : ∀ r ∈ b.registers, base.Knows r := fun r member => names r (List.mem_append_right _ member)
    obtain ⟨x,rfl,one,-⟩ := renders_expression tiled names_a le
    obtain ⟨y,rfl,two,-⟩ := renders_expression tiled' names_b (RegisterSupply.le_trans le one.grows)
    have compares : ((Machine.compare (.register x) (.register y)).withNote
        s!"compare ({(Operand.register x).text}, {(Operand.register y).text})").action? =
          some (.compare (.register x) (.register y)) := by simp
    have read := one.read_pair (n := .statement (.branch op a b ifTrue ifFalse)) two tiled tiled' rfl rfl (.branch compares)
      (fun _ => id) (.bare compares nofun nofun rfl) names_a names_b le
    have branches := read.append (.transfer (Instruction.action?_branch op ifTrue) nofun nofun rfl)
    have jumps := branches.append (.transfer (Instruction.action?_jump ifFalse) nofun nofun rfl)
    simpa [Statement.nodes] using jumps
  | .discard value, supply, left, u, code, yields, names, le => by
    obtain ⟨_,tiled⟩ := yields_discard yields
    obtain ⟨_,-,one,-⟩ := renders_expression tiled names le
    have discarded := one.append (.silent (n := .statement (.discard value)) (fun _ => id) rfl)
    rw [List.append_nil] at discarded
    exact discarded
  | .jump target, supply, left, u, code, yields, names, le => by
    obtain ⟨rfl,rfl⟩ := yields_jump yields
    have own : Renders base left [.statement (.jump target)] [] left := .silent (fun _ => id) rfl
    exact own.append (.transfer (Instruction.action?_jump target) nofun nofun rfl)
  | .label name, supply, left, u, code, yields, names, le => by
    obtain ⟨rfl,rfl⟩ := yields_label yields
    have own : Renders base left [.statement (.label name)] [] left := .silent (fun _ => id) rfl
    exact own.append (.bare (a := .label name) rfl nofun nofun rfl)
  | .move destination source, supply, left, u, code, yields, names, le => by
    have below : ∀ r ∈ source.registers, base.Knows r := fun r member => names r (List.mem_append_right _ member)
    cases destination with
    | register r =>
      obtain ⟨_,first,note,tiled,rfl⟩ := yields_registerMove yields
      obtain ⟨x,rfl,one,-⟩ := renders_expression tiled below le
      have means : ((Machine.move (.register x) (.register r)).withNote note).action? =
          some (.assign r (.operand (.register x))) := by simp
      have known : base.Knows r := names r (List.mem_append_left _ (List.mem_singleton.2 rfl))
      have own : Renders base left [.statement (.move (.register r) source)] [_] left :=
        ⟨RegisterSupply.le_refl left,.move means known,.none (by simp [Node.gathers])⟩
      have place : Renders base left [.expression (.register r)] [] left := .silent (fun _ => id) rfl
      exact one.append (own.append place)
    | memory address =>
      obtain ⟨_,first,s1,_,second,note,tiled,tiled',rfl⟩ := yields_memoryMove yields
      have names_address : ∀ r ∈ address.registers, base.Knows r := fun r member => names r (List.mem_append_left _ member)
      obtain ⟨x,rfl,one,-⟩ := renders_expression tiled below le
      obtain ⟨y,rfl,two,-⟩ := renders_expression tiled' names_address (RegisterSupply.le_trans le one.grows)
      have stores : ((Machine.store (.register x) (.register y)).withNote note).action? =
          some (.store (.direct (.register y)) (.register x)) := by simp
      have place : Renders base s1 [.expression (.memory address)] [] s1 := .silent (fun _ => id) rfl
      have read := one.read_pair (place.append two) tiled tiled' rfl rfl (.store stores) (fun _ => id)
        (.bare stores nofun nofun rfl) below names_address le
      have same : ((source.nodes ++ ([Node.expression (.memory address)] ++ address.nodes)) ++
          [Node.statement (.move (.memory address) source)]).Perm (Statement.move (.memory address) source).nodes := by
        rw [List.append_assoc]
        exact List.Perm.append_left _ (List.perm_append_singleton _ _)
      exact read.perm same
    | binary | call | constant | name | resultOf | relation => exact absurd yields (not_yields_move (by simp) (by simp))
  | .seq first second, supply, left, u, code, yields, names, le => by
    rw [tileStatement,yields_enter_bind] at yields
    obtain ⟨_,_,_,_,tiled,tiled',rfl⟩ := yields_bind.1 yields
    have one := renders_statement tiled (fun r member => names r (List.mem_append_left _ member)) le
    have two := renders_statement tiled' (fun r member => names r (List.mem_append_right _ member))
      (RegisterSupply.le_trans le one.grows)
    have whole := (one.append two).append (.silent (n := .statement (.seq first second)) (fun _ => id) rfl)
    simpa [Statement.nodes] using whole

theorem renders_expression : ∀ {e : Expression} {usage : Usage} {supply left : RegisterSupply} {value : Operand}
    {code : List Instruction}, Yields (tileExpression .sparc usage e) supply value code left →
      (∀ r ∈ e.registers, base.Knows r) → base ≤ supply →
        ∃ r, value = .register r ∧ Renders base supply e.nodes code left ∧ (usage = .value → Waits e supply r left)
  | .binary op a b, usage, supply, left, value, code, yields, names, le => by
    rw [tileExpression] at yields
    obtain ⟨_,first,s1,_,tiled,behind,rfl⟩ := yields_bind.1 yields
    obtain ⟨_,second,s2,third,tiled',combined,rfl⟩ := yields_bind.1 behind
    have names_a : ∀ r ∈ a.registers, base.Knows r := fun r member => names r (List.mem_append_left _ member)
    have names_b : ∀ r ∈ b.registers, base.Knows r := fun r member => names r (List.mem_append_right _ member)
    obtain ⟨x,rfl,one,-⟩ := renders_expression tiled names_a le
    obtain ⟨y,rfl,two,-⟩ := renders_expression tiled' names_b (RegisterSupply.le_trans le one.grows)
    have fresh := yields_combine combined
    obtain ⟨d,rfl,waits⟩ := Waits.fresh (e := .binary op a b) rfl (RegisterSupply.le_trans one.grows two.grows) fresh
    obtain ⟨i,means,-,rfl,rfl⟩ := id fresh
    have read := one.read_pair two tiled tiled' rfl rfl (.binary means) (fun _ => id) (.fresh fresh) names_a names_b le
    exact ⟨d,rfl,read,fun _ => waits⟩
  | .call function arguments, usage, supply, left, value, code, yields, names, le => by
    cases function with
    | name target =>
      obtain ⟨_,_,s1,moves,s2,_,tiled,staged,called,rfl⟩ := yields_call yields
      obtain ⟨pieces,rfl,rfl,evaluates,several⟩ := renders_arguments tiled names le
      obtain ⟨rfl,few,copies,moved⟩ := yields_stage staged (Nat.zero_le _)
      simp only [Nat.zero_add] at few moved
      have calls := Instruction.action?_call target
      have own : Emits base s2 [.expression (.call (.name target) arguments)] (moves ++ [Machine.call target]) :=
        .call few (by rw [List.length_map,evaluates.length_eq]) moved calls
      have label : Renders base supply [.expression (.name target)] [] supply := .silent (fun _ => id) rfl
      have read := Renders.read (n := .expression (.call (.name target) arguments)) (label.append several) rfl evaluates
        (.call few moved calls) own (by simpa using copies)
        (fun e member r among => names r (Expression.mem_allRegisters among member)) le (RegisterSupply.le_refl s2)
      have filled := (read.perm (List.perm_append_singleton _ _)).append (.bare Instruction.action?_nop nofun nofun rfl)
      rw [List.append_nil] at filled
      cases usage with
      | value =>
        obtain ⟨more,rfl,fresh⟩ := yields_callStaged called
        obtain ⟨d,rfl,waits⟩ := Waits.fresh (e := .call (.name target) arguments) rfl several.grows fresh
        have whole := filled.append (.fresh fresh)
        refine ⟨d,rfl,?_,fun _ => waits⟩
        simpa [Expression.nodes] using whole
      | discarded =>
        obtain ⟨rfl,rfl,rfl⟩ := yields_callStaged_discarded called
        refine ⟨_,rfl,?_,nofun⟩
        simpa [Expression.nodes] using filled
    | binary | call | constant | memory | resultOf | register | relation => exact absurd yields (not_yields_call (by simp))
  | .constant n, usage, supply, left, value, code, yields, names, le => by
    rw [tileExpression] at yields
    have fresh := yields_constant yields
    obtain ⟨d,rfl,waits⟩ := Waits.fresh (e := .constant n) rfl (RegisterSupply.le_refl supply) fresh
    have own : Renders base supply [.expression (.constant n)] [] supply := .silent (fun _ => id) rfl
    exact ⟨d,rfl,own.append (.fresh fresh),fun _ => waits⟩
  | .memory address, usage, supply, left, value, code, yields, names, le => by
    obtain ⟨_,first,s1,_,tiled,loaded,rfl⟩ := yields_memory yields
    obtain ⟨x,rfl,one,-⟩ := renders_expression tiled names le
    have own : Renders base supply [.expression (.memory address)] [] supply := .silent (fun _ => id) rfl
    cases usage with
    | value =>
      have fresh := yields_readCell loaded
      obtain ⟨d,rfl,waits⟩ := Waits.fresh (e := .memory address) rfl one.grows fresh
      have whole := (own.append one).append (.fresh fresh)
      rw [List.append_nil] at whole
      exact ⟨d,rfl,whole,fun _ => waits⟩
    | discarded =>
      obtain ⟨rfl,rfl,rfl⟩ := yields_pure.1 loaded
      rw [List.append_nil]
      exact ⟨x,rfl,own.append one,nofun⟩
  | .name label, usage, supply, left, value, code, yields, names, le => by
    rw [tileExpression] at yields
    have fresh := yields_addressOf yields
    obtain ⟨d,rfl,waits⟩ := Waits.fresh (e := .name label) rfl (RegisterSupply.le_refl supply) fresh
    have own : Renders base supply [.expression (.name label)] [] supply := .silent (fun _ => id) rfl
    exact ⟨d,rfl,own.append (.fresh fresh),fun _ => waits⟩
  | .resultOf statement e, usage, supply, left, value, code, yields, names, le => by
    rw [tileExpression] at yields
    obtain ⟨_,_,_,_,tiled,tiled',rfl⟩ := yields_bind.1 yields
    have one := renders_statement tiled (fun r member => names r (List.mem_append_left _ member)) le
    obtain ⟨x,rfl,two,waits⟩ := renders_expression tiled' (fun r member => names r (List.mem_append_right _ member))
      (RegisterSupply.le_trans le one.grows)
    have whole := (one.append two).append (.silent (n := .expression (.resultOf statement e)) (fun _ => id) rfl)
    rw [List.append_nil] at whole
    refine ⟨x,rfl,whole,fun value => ?_⟩
    obtain ⟨known,named | ⟨computed,unknown⟩⟩ := waits value
    · exact ⟨known,.inl named⟩
    · exact ⟨known,.inr ⟨computed,fun before => unknown (before.mono one.grows)⟩⟩
  | .register r, usage, supply, left, value, code, yields, names, le => by
    rw [tileExpression] at yields
    obtain ⟨rfl,rfl,rfl⟩ := yields_pure.1 yields
    have known : base.Knows r := names r (List.mem_singleton.2 rfl)
    exact ⟨r,rfl,.silent (fun _ => id) rfl,fun _ => ⟨known.mono le,.inl rfl⟩⟩
  | .relation _ _ _, usage, supply, left, value, code, yields, names, le => by
    rw [tileExpression] at yields
    exact absurd yields not_yields_fail

theorem renders_arguments : ∀ {es : List Expression} {supply left : RegisterSupply} {values : List Operand}
    {code : List Instruction}, Yields (tileArguments .sparc es) supply values code left →
      (∀ r ∈ Expression.allRegisters es, base.Knows r) → base ≤ supply →
        ∃ pieces : List Piece, values = (pieces.map Piece.register).map .register ∧
          code = pieces.flatMap Piece.lines ∧ Evaluates supply es pieces left ∧
            Renders base supply (Expression.allNodes es) code left
  | [], supply, left, values, code, yields, names, le => by
    rw [tileArguments] at yields
    obtain ⟨rfl,rfl,rfl⟩ := yields_pure.1 yields
    exact ⟨[],rfl,rfl,.nil,.nil⟩
  | e :: rest, supply, left, values, code, yields, names, le => by
    rw [tileArguments] at yields
    obtain ⟨_,first,s1,_,tiled,behind,rfl⟩ := yields_bind.1 yields
    obtain ⟨_,second,s2,_,tiled',returned,rfl⟩ := yields_bind.1 behind
    obtain ⟨rfl,rfl,rfl⟩ := yields_pure.1 returned
    obtain ⟨x,rfl,one,-⟩ := renders_expression tiled (fun r member => names r (List.mem_append_left _ member)) le
    obtain ⟨pieces,rfl,rfl,evaluates,two⟩ := renders_arguments tiled' (fun r member => names r (List.mem_append_right _ member))
      (RegisterSupply.le_trans le one.grows)
    rw [List.append_nil]
    exact ⟨⟨x,first⟩ :: pieces,rfl,rfl,.cons tiled evaluates,one.append two⟩

end

theorem renders_body : ∀ {body : List Statement} {supply left : RegisterSupply} {u : Unit} {code : List Instruction},
    Yields (tileBody .sparc body) supply u code left → (∀ r ∈ body.flatMap Statement.registers, base.Knows r) → base ≤ supply →
      Renders base supply (body.flatMap Statement.nodes) code left := by
  intro body
  induction body with
  | nil =>
    intro supply left u code yields _ _
    obtain ⟨-,rfl,rfl⟩ := yields_pure.1 yields
    exact .nil
  | cons s rest ih =>
    intro supply left u code yields names le
    rw [tileBody] at yields
    rw [List.flatMap_cons] at names
    obtain ⟨_,_,_,_,tiled,others,rfl⟩ := yields_bind.1 yields
    have one := renders_statement tiled (fun r member => names r (List.mem_append_left _ member)) le
    exact one.append (ih others (fun r member => names r (List.mem_append_right _ member)) (RegisterSupply.le_trans le one.grows))

end

end Selection

end SparcBackend
