import SparcBackend.Proofs.Ownership

/-!
One group of lines for each node of a body. Which lines these are depends on the node and on
what becomes of its value, which is settled by the nearest node above that is no value with
statements in front. The groups stand in the order in which the nodes are covered.
-/
namespace SparcBackend

/-- What becomes of the value of an expression. -/
inductive Context where
  | value
  /-- The expression is where a move puts its value. -/
  | destination
  | discarded
  /-- The expression names the procedure that is called. -/
  | target
deriving DecidableEq

/-- A statement, or an expression with what becomes of its value. -/
inductive Occurrence where
  | statement (s : Statement)
  | expression (context : Context) (e : Expression)

def Occurrence.node : Occurrence → Node
  | .statement s => .statement s
  | .expression _ e => .expression e

/-! ### Occurrences in the order of their lines -/

mutual

/-- A statement behind everything below it. -/
def Statement.occurrences : Statement → List Occurrence
  | .branch op left right ifTrue ifFalse =>
    left.occurrences .value ++ right.occurrences .value ++ [.statement (.branch op left right ifTrue ifFalse)]
  | .discard value => value.occurrences .discarded ++ [.statement (.discard value)]
  | .jump target => [.statement (.jump target)]
  | .label name => [.statement (.label name)]
  | .move destination source =>
    source.occurrences .value ++ destination.occurrences .destination ++ [.statement (.move destination source)]
  | .seq first second => first.occurrences ++ second.occurrences ++ [.statement (.seq first second)]

/-- An expression behind everything below it. What becomes of it becomes of the value behind
    its statements, if it has any. -/
def Expression.occurrences (context : Context) : Expression → List Occurrence
  | .binary op left right =>
    left.occurrences .value ++ right.occurrences .value ++ [.expression context (.binary op left right)]
  | .call function arguments =>
    function.occurrences .target ++ Expression.allOccurrences arguments ++ [.expression context (.call function arguments)]
  | .constant n => [.expression context (.constant n)]
  | .memory address => address.occurrences .value ++ [.expression context (.memory address)]
  | .name label => [.expression context (.name label)]
  | .resultOf statement value =>
    statement.occurrences ++ value.occurrences context ++ [.expression context (.resultOf statement value)]
  | .register r => [.expression context (.register r)]
  | .relation op left right =>
    left.occurrences .value ++ right.occurrences .value ++ [.expression context (.relation op left right)]

def Expression.allOccurrences : List Expression → List Occurrence
  | [] => []
  | e :: rest => e.occurrences .value ++ Expression.allOccurrences rest

end

mutual

theorem Statement.occurrences_perm : ∀ s : Statement, (s.occurrences.map Occurrence.node).Perm s.nodes
  | .branch op left right _ _ => by
    simp only [Statement.occurrences,Statement.nodes,List.map_append]
    exact ((left.occurrences_perm _).append (right.occurrences_perm _)).append_right _
  | .discard value => by
    simp only [Statement.occurrences,Statement.nodes,List.map_append]
    exact (value.occurrences_perm _).append_right _
  | .jump _ => .refl _
  | .label _ => .refl _
  | .move destination source => by
    simp only [Statement.occurrences,Statement.nodes,List.map_append,List.append_assoc]
    exact (source.occurrences_perm _).append ((List.perm_append_singleton _ _).trans ((destination.occurrences_perm _).cons _))
  | .seq first second => by
    simp only [Statement.occurrences,Statement.nodes,List.map_append]
    exact (first.occurrences_perm.append second.occurrences_perm).append_right _

/-- Every node occurs once. -/
theorem Expression.occurrences_perm : ∀ (context : Context) (e : Expression), ((e.occurrences context).map Occurrence.node).Perm e.nodes
  | _, .binary op left right => by
    simp only [Expression.occurrences,Expression.nodes,List.map_append]
    exact ((left.occurrences_perm _).append (right.occurrences_perm _)).append_right _
  | _, .call function arguments => by
    simp only [Expression.occurrences,Expression.nodes,List.map_append]
    exact (List.perm_append_singleton _ _).trans
      (((function.occurrences_perm _).append (Expression.allOccurrences_perm arguments)).cons _)
  | _, .constant _ => .refl _
  | _, .memory address => by
    simp only [Expression.occurrences,Expression.nodes,List.map_append]
    exact (List.perm_append_singleton _ _).trans ((address.occurrences_perm _).cons _)
  | _, .name _ => .refl _
  | _, .resultOf statement value => by
    simp only [Expression.occurrences,Expression.nodes,List.map_append]
    exact (statement.occurrences_perm.append (value.occurrences_perm _)).append_right _
  | _, .register _ => .refl _
  | _, .relation op left right => by
    simp only [Expression.occurrences,Expression.nodes,List.map_append]
    exact (List.perm_append_singleton _ _).trans (((left.occurrences_perm _).append (right.occurrences_perm _)).cons _)

theorem Expression.allOccurrences_perm : ∀ es : List Expression,
    ((Expression.allOccurrences es).map Occurrence.node).Perm (Expression.allNodes es)
  | [] => .refl _
  | e :: rest => by
    simp only [Expression.allOccurrences,Expression.allNodes,List.map_append]
    exact (e.occurrences_perm _).append (Expression.allOccurrences_perm rest)

end

/-! ### Groups -/

namespace Occurrence

/-- The mnemonics of the lines that a node has of its own. -/
def group : Occurrence → List String
  | .statement (.branch op ..) => ["cmp",Machine.branchMnemonic op,"nop","ba","nop"]
  | .statement (.jump _) => ["ba","nop"]
  | .statement (.move (.register _) _) => ["mov"]
  | .statement (.move (.memory _) _) => ["st"]
  | .statement _ => []
  | .expression _ (.binary op _ _) => (Machine.mnemonic? op).toList
  | .expression context (.call _ arguments) =>
    List.replicate arguments.length "mov" ++ ["call","nop"] ++ if context = .discarded then [] else ["mov"]
  | .expression _ (.constant _) => ["set"]
  | .expression context (.memory _) => if context = .discarded ∨ context = .destination then [] else ["ld"]
  | .expression context (.name _) => if context = .target then [] else ["set"]
  | .expression _ _ => []

/-- Whether a register is minted for the value of a node. -/
def mints : Occurrence → Bool
  | .expression _ (.binary ..) => true
  | .expression context (.call ..) => context ≠ .discarded
  | .expression _ (.constant _) => true
  | .expression context (.memory _) => context ≠ .discarded ∧ context ≠ .destination
  | .expression context (.name _) => context ≠ .target
  | _ => false

end Occurrence

namespace Selection
open RegisterSupply (Mints)
variable {supply mid left : RegisterSupply} {code more : List Instruction} {os others : List Occurrence}

/-- The mnemonics of the lines, in order; labels and comments have none. -/
def mnemonics (code : List Instruction) : List String := code.filterMap Instruction.opcode?

/-- What becomes of a value that is used. -/
def Usage.context : Usage → Context
  | .value => .value
  | .discarded => .discarded

/-- The lines are the groups of the occurrences, one after the other, and a register is minted
    for each occurrence that needs one. -/
structure Tiled (os : List Occurrence) (supply : RegisterSupply) (code : List Instruction) (left : RegisterSupply) : Prop where
  lines : mnemonics code = os.flatMap Occurrence.group
  mints : ∃ minted, Mints supply minted left ∧ minted.length = os.countP Occurrence.mints

namespace Tiled

theorem nil : Tiled [] supply [] supply := ⟨rfl,[],.nil,rfl⟩

theorem append (first : Tiled os supply code mid) (second : Tiled others mid more left) : Tiled (os ++ others) supply (code ++ more) left := by
  obtain ⟨minted,mints,length⟩ := first.mints
  obtain ⟨later,mints',length'⟩ := second.mints
  refine ⟨?_,minted ++ later,mints.append mints',?_⟩
  · rw [mnemonics,List.filterMap_append,List.flatMap_append]
    exact congrArg₂ (· ++ ·) first.lines second.lines
  · rw [List.length_append,List.countP_append,length,length']

/-- A node that mints nothing. -/
theorem plain {o : Occurrence} (lines : mnemonics code = o.group) (mints : o.mints = false) : Tiled [o] supply code supply :=
  ⟨by rw [lines,List.flatMap_singleton],[],.nil,by simp [mints]⟩

/-- A node for whose value a register is minted. -/
theorem fresh {o : Occurrence} (lines : mnemonics code = o.group) (mints : o.mints = true) : Tiled [o] supply code supply.create.2 :=
  ⟨by rw [lines,List.flatMap_singleton],[supply.create.1],.single supply,by simp [mints]⟩

/-- A node without lines of its own. -/
theorem silent {o : Occurrence} (tiled : Tiled os supply code left) (lines : o.group = []) (mints : o.mints = false) :
    Tiled (os ++ [o]) supply code left := by
  rw [← List.append_nil code]
  exact tiled.append (plain lines.symm mints)

end Tiled

/-! ### The lines of a node -/

section
variable {context : Context} {value : Operand}

theorem opcode?_withNote (i : Instruction) (note : String) : (i.withNote note).opcode? = i.opcode? := by
  rw [Instruction.opcode?,Instruction.template?_withNote,Instruction.opcode?]

theorem mnemonics_append : mnemonics (code ++ more) = mnemonics code ++ mnemonics more := List.filterMap_append

theorem mnemonics_cons (i : Instruction) : mnemonics (i :: code) = i.opcode?.toList ++ mnemonics code := by
  cases is : i.opcode? <;> simp only [mnemonics,List.filterMap_cons,is] <;> rfl

theorem mnemonics_withNote (i : Instruction) (note : String) : mnemonics [i.withNote note] = i.opcode?.toList := by
  rw [mnemonics_cons,opcode?_withNote]
  exact List.append_nil _

theorem opcode?_binary {op : BinaryOp} {x y : Operand} {d : Register} {i : Instruction}
    (selected : Machine.Target.sparc.binary? op x y d = some i) : i.opcode? = Machine.mnemonic? op := by
  cases op <;> cases selected <;> rfl

theorem tiled_combine {op : BinaryOp} {a b : Expression} {x y : Operand}
    (yields : Yields (Munch.combine .sparc op x y) supply value code left) :
    Tiled [.expression context (.binary op a b)] supply code left := by
  obtain ⟨i,note,selected,rfl,rfl,rfl⟩ := yields_combine_line yields
  refine .fresh ?_ rfl
  rw [mnemonics_withNote,opcode?_binary selected,Occurrence.group]

theorem tiled_constant {n : Int32} (yields : Yields (Munch.constant n.toInt) supply value code left) :
    Tiled [.expression context (.constant n)] supply code left := by
  obtain ⟨rfl,rfl,rfl⟩ := yields_fresh_emit.1 yields
  exact .fresh (mnemonics_withNote _ _) rfl

theorem tiled_addressOf {label : Label} {usage : Usage} (yields : Yields (Munch.addressOf label) supply value code left) :
    Tiled [.expression usage.context (.name label)] supply code left := by
  obtain ⟨rfl,rfl,rfl⟩ := yields_fresh_emit.1 yields
  cases usage <;> exact .fresh (mnemonics_withNote _ _) rfl

theorem tiled_readCell {address : Expression} {x : Operand} {usage : Usage}
    (yields : Yields (Munch.readCell usage x) supply value code left) :
    Tiled [.expression usage.context (.memory address)] supply code left := by
  cases usage with
  | value =>
    obtain ⟨rfl,rfl,rfl⟩ := yields_fresh_emit.1 yields
    exact .fresh (mnemonics_withNote _ _) rfl
  | discarded =>
    obtain ⟨rfl,rfl,rfl⟩ := yields_pure.1 yields
    exact .plain rfl rfl

theorem mnemonics_stage {u : Unit} : ∀ {values : List Operand} {index : Nat} {code : List Instruction},
    Yields (Munch.stage .sparc index values) supply u code left →
      left = supply ∧ mnemonics code = List.replicate values.length "mov" := by
  intro values
  induction values with
  | nil =>
    intro index code yields
    obtain ⟨-,rfl,rfl⟩ := yields_pure.1 yields
    exact ⟨rfl,rfl⟩
  | cons value rest ih =>
    intro index code yields
    obtain ⟨bound,note,more,rfl,others⟩ := yields_stage_cons yields
    obtain ⟨rfl,lines⟩ := ih others
    rw [mnemonics_cons,opcode?_withNote,lines,List.length_cons,List.replicate_succ]
    exact ⟨rfl,rfl⟩

/-- A call with its arguments in place. -/
theorem tiled_callStaged {function : Expression} {arguments : List Expression} {target : Label} {usage : Usage}
    (staged : mnemonics code = List.replicate arguments.length "mov")
    (yields : Yields (Munch.callStaged .sparc target usage) supply value more left) :
    Tiled [.expression usage.context (.call function arguments)] supply (code ++ more) left := by
  cases usage with
  | value =>
    obtain ⟨note,rfl,rfl,rfl⟩ := yields_callStaged_line yields
    refine .fresh ?_ rfl
    rw [mnemonics_append,staged,Occurrence.group,List.append_assoc]
    rfl
  | discarded =>
    obtain ⟨-,rfl,rfl⟩ := yields_callStaged_discarded yields
    refine .plain ?_ rfl
    rw [mnemonics_append,staged,Occurrence.group,List.append_assoc]
    rfl

end

mutual

theorem tiled_statement : ∀ {s : Statement} {supply left : RegisterSupply} {u : Unit} {code : List Instruction},
    Yields (tileStatement .sparc s) supply u code left → Tiled s.occurrences supply code left
  | .branch op a b ifTrue ifFalse, supply, left, u, code, yields => by
    obtain ⟨x,first,s1,y,second,tiled,tiled',rfl⟩ := yields_branch yields
    have operands := (tiled_expression tiled).append (tiled_expression tiled')
    rw [← List.append_assoc]
    refine operands.append (.plain ?_ rfl)
    cases op <;> rfl
  | .discard value, supply, left, u, code, yields => by
    obtain ⟨_,tiled⟩ := yields_discard yields
    exact (tiled_expression tiled).silent rfl rfl
  | .jump target, supply, left, u, code, yields => by
    obtain ⟨rfl,rfl⟩ := yields_jump yields
    exact .plain rfl rfl
  | .label name, supply, left, u, code, yields => by
    obtain ⟨rfl,rfl⟩ := yields_label yields
    exact .plain rfl rfl
  | .move destination source, supply, left, u, code, yields => by
    cases destination with
    | register r =>
      obtain ⟨x,first,note,tiled,rfl⟩ := yields_registerMove yields
      have places := (tiled_expression tiled).silent (o := .expression .destination (.register r)) rfl rfl
      exact places.append (.plain (mnemonics_withNote _ _) rfl)
    | memory address =>
      obtain ⟨x,first,s1,y,second,note,tiled,tiled',rfl⟩ := yields_memoryMove yields
      have places := ((tiled_expression tiled).append (tiled_expression tiled')).silent
        (o := .expression .destination (.memory address)) rfl rfl
      rw [← List.append_assoc,Statement.occurrences,Expression.occurrences,← List.append_assoc]
      exact places.append (.plain (mnemonics_withNote _ _) rfl)
    | binary | call | constant | name | resultOf | relation => exact absurd yields (not_yields_move (by simp) (by simp))
  | .seq first second, supply, left, u, code, yields => by
    rw [tileStatement,yields_enter_bind] at yields
    obtain ⟨_,one,mid,two,tiled,tiled',rfl⟩ := yields_bind.1 yields
    exact ((tiled_statement tiled).append (tiled_statement tiled')).silent rfl rfl

theorem tiled_expression : ∀ {e : Expression} {usage : Usage} {supply left : RegisterSupply} {value : Operand}
    {code : List Instruction}, Yields (tileExpression .sparc usage e) supply value code left →
      Tiled (e.occurrences usage.context) supply code left
  | .binary op a b, usage, supply, left, value, code, yields => by
    rw [tileExpression] at yields
    obtain ⟨x,first,s1,_,tiled,behind,rfl⟩ := yields_bind.1 yields
    obtain ⟨y,second,s2,third,tiled',combined,rfl⟩ := yields_bind.1 behind
    rw [← List.append_assoc]
    exact ((tiled_expression tiled).append (tiled_expression tiled')).append (tiled_combine combined)
  | .call function arguments, usage, supply, left, value, code, yields => by
    cases function with
    | name target =>
      obtain ⟨xs,first,s1,staging,s2,_,tiled,placed,called,rfl⟩ := yields_call yields
      obtain ⟨values,length⟩ := tiled_arguments tiled
      obtain ⟨rfl,moves⟩ := mnemonics_stage placed
      rw [length] at moves
      have named : Tiled [.expression .target (.name target)] supply [] supply := .plain rfl rfl
      exact (named.append values).append (tiled_callStaged moves called)
    | binary | call | constant | memory | resultOf | register | relation => exact absurd yields (not_yields_call (by simp))
  | .constant n, usage, supply, left, value, code, yields => by
    rw [tileExpression] at yields
    exact tiled_constant yields
  | .memory address, usage, supply, left, value, code, yields => by
    obtain ⟨x,first,s1,second,tiled,loaded,rfl⟩ := yields_memory yields
    exact (tiled_expression tiled).append (tiled_readCell loaded)
  | .name label, usage, supply, left, value, code, yields => by
    rw [tileExpression] at yields
    exact tiled_addressOf yields
  | .resultOf statement e, usage, supply, left, value, code, yields => by
    rw [tileExpression] at yields
    obtain ⟨_,first,s1,second,tiled,tiled',rfl⟩ := yields_bind.1 yields
    exact ((tiled_statement tiled).append (tiled_expression tiled')).silent rfl rfl
  | .register r, usage, supply, left, value, code, yields => by
    rw [tileExpression] at yields
    obtain ⟨rfl,rfl,rfl⟩ := yields_pure.1 yields
    exact .plain rfl rfl
  | .relation _ _ _, usage, supply, left, value, code, yields => by
    rw [tileExpression] at yields
    exact absurd yields not_yields_fail

theorem tiled_arguments : ∀ {es : List Expression} {supply left : RegisterSupply} {values : List Operand}
    {code : List Instruction}, Yields (tileArguments .sparc es) supply values code left →
      Tiled (Expression.allOccurrences es) supply code left ∧ values.length = es.length
  | [], supply, left, values, code, yields => by
    rw [tileArguments] at yields
    obtain ⟨rfl,rfl,rfl⟩ := yields_pure.1 yields
    exact ⟨.nil,rfl⟩
  | e :: rest, supply, left, values, code, yields => by
    rw [tileArguments] at yields
    obtain ⟨x,first,s1,_,tiled,behind,rfl⟩ := yields_bind.1 yields
    obtain ⟨xs,second,s2,_,tiled',returned,rfl⟩ := yields_bind.1 behind
    obtain ⟨rfl,rfl,rfl⟩ := yields_pure.1 returned
    obtain ⟨others,length⟩ := tiled_arguments tiled'
    rw [List.append_nil]
    exact ⟨(tiled_expression tiled).append others,congrArg Nat.succ length⟩

end

theorem tiled_body : ∀ {body : List Statement} {supply left : RegisterSupply} {u : Unit} {code : List Instruction},
    Yields (tileBody .sparc body) supply u code left → Tiled (body.flatMap Statement.occurrences) supply code left := by
  intro body
  induction body with
  | nil =>
    intro supply left u code yields
    obtain ⟨-,rfl,rfl⟩ := yields_pure.1 yields
    exact .nil
  | cons s rest ih =>
    intro supply left u code yields
    rw [tileBody] at yields
    obtain ⟨_,one,mid,two,tiled,others,rfl⟩ := yields_bind.1 yields
    exact (tiled_statement tiled).append (ih others)

/-- Without a frame, the lines of a method are the groups of the nodes of its body. -/
theorem tiled_select {p : Procedure} {f : CodeFragment} (accepted : (select .sparc supply p false).outcome = .ok f) :
    Tiled (p.body.flatMap Statement.occurrences) (supply.adoptAll (virtualRegisters p.body)) f.code f.supply := by
  obtain ⟨code,yields,rfl⟩ := yields_of_select accepted
  exact tiled_body yields

end Selection

end SparcBackend
