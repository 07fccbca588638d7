import SparcBackend.Proofs.Selection.Expressions
import SparcBackend.Proofs.Selection.Grammar

/-!
Where the operands of a node come together. The operands of an operator, a branch, a call
or a move into memory are covered one after another, and behind the last of them stand the
lines that read them. In code that goes on, every such node keeps its own place.
-/
namespace SparcBackend
open Machine (groupRegister)

namespace Node

/-- Whether a node reads the values of several expressions: a branch, an operator, a call
    or a move into memory. -/
def gathers : Node → Bool
  | .statement (.branch ..) | .statement (.move (.memory _) _) | .expression (.binary ..) | .expression (.call ..) => true
  | _ => false

/-- What such a node reads, in the order in which it is evaluated. -/
def operands : Node → List Expression
  | .statement (.branch _ left right _ _) => [left,right]
  | .statement (.move (.memory address) source) => [source,address]
  | .expression (.binary _ left right) => [left,right]
  | .expression (.call _ arguments) => arguments
  | _ => []

end Node

namespace Selection

/-- The lines that cover an operand, and the register in which its value waits behind them. -/
structure Piece where
  register : Register
  lines : List Instruction

/-- The operands of a node, covered, and the lines that read them. -/
structure Gathering where
  supply : RegisterSupply
  left : RegisterSupply
  /-- The line at which the first operand begins. -/
  line : Nat
  pieces : List Piece
  reading : List Instruction

/-- Expressions are covered for their values, the first one first. -/
inductive Evaluates : RegisterSupply → List Expression → List Piece → RegisterSupply → Prop
  | nil {supply : RegisterSupply} : Evaluates supply [] [] supply
  | cons {supply mid left : RegisterSupply} {e : Expression} {es : List Expression} {piece : Piece} {pieces : List Piece}
      (tiled : Yields (tileExpression .sparc .value e) supply (.register piece.register) piece.lines mid)
      (rest : Evaluates mid es pieces left) : Evaluates supply (e :: es) (piece :: pieces) left

/-- Lines read the registers in which the operands of a node wait. -/
inductive Reads : Node → List Register → List Instruction → Prop
  | branch {op : RelOp} {left right : Expression} {ifTrue ifFalse : Label} {x y : Register} {i : Instruction}
      (compares : i.action? = some (.compare (.register x) (.register y))) :
      Reads (.statement (.branch op left right ifTrue ifFalse)) [x,y] [i]
  | store {address source : Expression} {x y : Register} {i : Instruction}
      (stores : i.action? = some (.store (.direct (.register y)) (.register x))) :
      Reads (.statement (.move (.memory address) source)) [x,y] [i]
  | binary {op : BinaryOp} {left right : Expression} {d x y : Register} {i : Instruction}
      (computes : i.action? = some (.assign d (.binary op (.register x) (.register y)))) :
      Reads (.expression (.binary op left right)) [x,y] [i]
  | call {target : Label} {arguments : List Expression} {rs : List Register} {moves : List Instruction} {i : Instruction}
      (few : rs.length ≤ Machine.groupSize)
      (moved : moves.map Instruction.action? = rs.mapIdx fun k r => some (.assign (groupRegister 'o' k) (.operand (.register r))))
      (called : i.action? = some (.call target)) : Reads (.expression (.call (.name target) arguments)) rs (moves ++ [i])

namespace Gathering
variable (q : Gathering)

/-- The first line that reads an operand. -/
def reader : Nat := q.line + (q.pieces.flatMap Piece.lines).length

/-- The operands of a node are covered and read at a place in some code. -/
structure Serves (n : Node) (code : List Instruction) : Prop where
  evaluates : Evaluates q.supply n.operands q.pieces q.left
  reads : Reads n (q.pieces.map Piece.register) q.reading
  stands : ∃ before after, code = before ++ (q.pieces.flatMap Piece.lines ++ q.reading) ++ after ∧ before.length = q.line

end Gathering

/-- Every node that reads several values does so at a place of its own, of which something
    holds. -/
def Gathers (nodes : List Node) (code : List Instruction) (Good : Node → Gathering → Prop) : Prop :=
  ∃ gathered : List (Node × Gathering), (gathered.map Prod.fst).Perm (nodes.filter Node.gathers) ∧
    (gathered.Pairwise fun one other => one.2.reader < other.2.reader) ∧
      ∀ n q, (n,q) ∈ gathered → q.Serves n code ∧ Good n q

section
variable {supply mid left : RegisterSupply} {nodes others : List Node} {code more : List Instruction}

/-- Two operands, one after the other. -/
theorem Evaluates.pair {a b : Expression} {x y : Register}
    (first : Yields (tileExpression .sparc .value a) supply (.register x) code mid)
    (second : Yields (tileExpression .sparc .value b) mid (.register y) more left) :
    Evaluates supply [a,b] [⟨x,code⟩,⟨y,more⟩] left :=
  .cons first (.cons second .nil)

theorem Evaluates.length_eq {es : List Expression} {pieces : List Piece} (evaluates : Evaluates supply es pieces left) :
    pieces.length = es.length := by
  induction evaluates with
  | nil => rfl
  | cons _ _ ih => rw [List.length_cons,List.length_cons,ih]

/-! ### Gatherings in code that goes on -/

/-- The lines stand somewhere further down. -/
def Gathering.shift (q : Gathering) (lines : Nat) : Gathering := { q with line := lines+q.line }

theorem Gathering.reader_shift (q : Gathering) (lines : Nat) : (q.shift lines).reader = lines+q.reader :=
  Nat.add_assoc lines q.line _

theorem Gathering.Serves.append {q : Gathering} {n : Node} (serves : q.Serves n code) (before after : List Instruction) :
    (q.shift before.length).Serves n (before ++ code ++ after) := by
  obtain ⟨evaluates,reads,front,rest,rfl,length⟩ := serves
  refine ⟨evaluates,reads,before ++ front,rest ++ after,by simp [Gathering.shift],?_⟩
  rw [List.length_append,length]
  rfl

theorem Gathering.Serves.append_right {q : Gathering} {n : Node} (serves : q.Serves n code) (more : List Instruction) :
    q.Serves n (code ++ more) := by
  have whole := serves.append [] more
  have same : q.shift 0 = q := by simp [Gathering.shift]
  rw [List.length_nil,same] at whole
  exact whole

theorem Reads.length_pos {n : Node} {rs : List Register} {reading : List Instruction} (reads : Reads n rs reading) :
    0 < reading.length := by
  cases reads <;> simp

theorem Gathering.Serves.reader_lt {q : Gathering} {n : Node} (serves : q.Serves n code) : q.reader < code.length := by
  obtain ⟨-,reads,front,rest,rfl,length⟩ := serves
  have reading := reads.length_pos
  simp only [Gathering.reader,List.length_append,← length]
  omega

section
variable {Good Better : Node → Gathering → Prop}

theorem Gathers.imp (gathers : Gathers nodes code Good) (better : ∀ n q, q.Serves n code → Good n q → Better n q) :
    Gathers nodes code Better := by
  obtain ⟨gathered,all,ordered,served⟩ := gathers
  refine ⟨gathered,all,ordered,fun n q member => ?_⟩
  obtain ⟨serves,good⟩ := served n q member
  exact ⟨serves,better n q serves good⟩

theorem Gathers.perm (gathers : Gathers nodes code Good) (same : nodes.Perm others) : Gathers others code Good := by
  obtain ⟨gathered,all,rest⟩ := gathers
  exact ⟨gathered,all.trans (same.filter _),rest⟩

/-- Nodes that do not read several values need no place. -/
theorem Gathers.none (lone : ∀ n ∈ nodes, n.gathers = false) : Gathers nodes code Good := by
  refine ⟨[],?_,List.Pairwise.nil,by simp⟩
  have empty : nodes.filter Node.gathers = [] := List.filter_eq_nil_iff.2 fun n member => by simp [lone n member]
  rw [empty]
  exact List.Perm.nil

theorem Gathers.append (one : Gathers nodes code Good) (two : Gathers others more Good)
    (shift : ∀ n q lines, Good n q → Good n (q.shift lines)) : Gathers (nodes ++ others) (code ++ more) Good := by
  obtain ⟨gathered,all,ordered,served⟩ := one
  obtain ⟨gathered',all',ordered',served'⟩ := two
  refine ⟨gathered ++ gathered'.map fun x => (x.1,x.2.shift code.length),?_,?_,?_⟩
  · rw [List.map_append,List.map_map,List.filter_append]
    exact all.append all'
  · refine List.pairwise_append.2 ⟨ordered,?_,?_⟩
    · refine List.pairwise_map.2 (ordered'.imp fun {x y} before => ?_)
      simp only [Gathering.reader_shift]
      omega
    · intro x member y behind
      obtain ⟨z,-,rfl⟩ := List.mem_map.1 behind
      have inside := (served x.1 x.2 member).1.reader_lt
      simp only [Gathering.reader_shift]
      omega
  · intro n q member
    rcases List.mem_append.1 member with early | late
    · obtain ⟨serves,good⟩ := served n q early
      exact ⟨serves.append_right more,good⟩
    · obtain ⟨⟨m,x⟩,among,is⟩ := List.mem_map.1 late
      cases is
      obtain ⟨serves,good⟩ := served' m x among
      have whole := serves.append code []
      rw [List.append_nil] at whole
      exact ⟨whole,shift m x _ good⟩

/-- The operands of a node are there, with what is below them, and are read. -/
theorem Gathers.read {n : Node} {q : Gathering} (gathers : Gathers nodes (q.pieces.flatMap Piece.lines) Good)
    (several : n.gathers = true) (top : q.line = 0) (evaluates : Evaluates q.supply n.operands q.pieces q.left)
    (reads : Reads n (q.pieces.map Piece.register) q.reading) (good : Good n q) :
    Gathers (nodes ++ [n]) (q.pieces.flatMap Piece.lines ++ q.reading) Good := by
  obtain ⟨gathered,all,ordered,served⟩ := gathers
  refine ⟨gathered ++ [(n,q)],?_,?_,?_⟩
  · rw [List.map_append,List.filter_append]
    refine all.append ?_
    rw [List.filter_cons_of_pos several]
    exact List.Perm.refl _
  · refine List.pairwise_append.2 ⟨ordered,List.pairwise_singleton _ _,?_⟩
    intro x member y last
    cases List.mem_singleton.1 last
    have inside := (served x.1 x.2 member).1.reader_lt
    simp only [Gathering.reader,top] at inside ⊢
    omega
  · intro m x member
    rcases List.mem_append.1 member with early | last
    · obtain ⟨serves,good⟩ := served m x early
      exact ⟨serves.append_right q.reading,good⟩
    · cases List.mem_singleton.1 last
      exact ⟨⟨evaluates,reads,[],[],by simp,top.symm⟩,good⟩

end

/-- A frame moves the places and nothing else. -/
theorem Gathers.frame {m : Method} {framed : List Instruction} {Good : Node → Gathering → Prop} (gathers : Gathers nodes code Good)
    (shift : ∀ n q lines, Good n q → Good n (q.shift lines)) (is : frame? m code = some framed) : Gathers nodes framed Good := by
  obtain ⟨prologue,-,rfl⟩ := Option.map_eq_some_iff.1 is
  have outside (lines : List Instruction) : Gathers [] lines Good := .none (by simp)
  have whole := ((outside prologue).append gathers shift).append (outside (Machine.epilogue m)) shift
  rw [List.append_nil] at whole
  exact whole

end

end Selection

end SparcBackend
