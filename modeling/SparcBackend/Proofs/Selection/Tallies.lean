import SparcBackend.Proofs.Selection.Occurrences

/-!
How many lines of each kind a body has, read off its nodes. A cell is read and the result
of a call kept wherever the value is wanted, however many statements stand in front of it.
-/
namespace SparcBackend

namespace Occurrence

/-! ### Kinds of nodes -/

def isBranch : Occurrence → Bool
  | .statement (.branch ..) => true
  | _ => false

def isJump : Occurrence → Bool
  | .statement (.jump _) => true
  | _ => false

def isRegisterMove : Occurrence → Bool
  | .statement (.move (.register _) _) => true
  | _ => false

def isMemoryMove : Occurrence → Bool
  | .statement (.move (.memory _) _) => true
  | _ => false

def isOperator : Occurrence → Bool
  | .expression _ (.binary ..) => true
  | _ => false

def isConstant : Occurrence → Bool
  | .expression _ (.constant _) => true
  | _ => false

/-- A name that is not called. -/
def isValueName : Occurrence → Bool
  | .expression context (.name _) => context ≠ .target
  | _ => false

/-- A cell whose contents are wanted. -/
def isRead : Occurrence → Bool
  | .expression context (.memory _) => context ≠ .discarded ∧ context ≠ .destination
  | _ => false

def isCall : Occurrence → Bool
  | .expression _ (.call ..) => true
  | _ => false

/-- A call whose result is wanted. -/
def isKeptCall : Occurrence → Bool
  | .expression context (.call ..) => context ≠ .discarded
  | _ => false

/-- The arguments of a call. -/
def arguments : Occurrence → List Expression
  | .expression _ (.call _ arguments) => arguments
  | _ => []

end Occurrence

namespace Selection
open Occurrence

def operatorMnemonics : List String := BinaryOp.all.filterMap Machine.mnemonic?

/-- The numbers of lines with certain mnemonics and of minted registers, by the nodes they are for. -/
structure Tallied (os : List Occurrence) (lines : List String) (minted : Nat) : Prop where
  calls : lines.count "call" = os.countP isCall
  stores : lines.count "st" = os.countP isMemoryMove
  loads : lines.count "ld" = os.countP isRead
  compares : lines.count "cmp" = os.countP isBranch
  branches : lines.countP (Machine.branchMnemonics.contains ·) = os.countP isBranch
  jumps : lines.count "ba" = os.countP isBranch + os.countP isJump
  sets : lines.count "set" = os.countP isConstant + os.countP isValueName
  operators : lines.countP (operatorMnemonics.contains ·) = os.countP isOperator
  moves : lines.count "mov" = os.countP isRegisterMove + (os.flatMap arguments).length + os.countP isKeptCall
  fillers : lines.count "nop" = lines.countP (Machine.branchMnemonics.contains ·) + lines.count "ba" + lines.count "call"
  registers : minted = os.countP isOperator + os.countP isConstant + os.countP isValueName + os.countP isRead + os.countP isKeptCall

namespace Tallied
variable {os others : List Occurrence} {lines more : List String} {minted later : Nat}

theorem nil : Tallied [] [] 0 := by constructor <;> rfl

theorem append (first : Tallied os lines minted) (second : Tallied others more later) :
    Tallied (os ++ others) (lines ++ more) (minted + later) := by
  constructor <;> simp only [List.count_append,List.countP_append,List.flatMap_append,List.length_append]
  · rw [first.calls,second.calls]
  · rw [first.stores,second.stores]
  · rw [first.loads,second.loads]
  · rw [first.compares,second.compares]
  · rw [first.branches,second.branches]
  · rw [first.jumps,second.jumps]
    omega
  · rw [first.sets,second.sets]
    omega
  · rw [first.operators,second.operators]
  · rw [first.moves,second.moves]
    omega
  · rw [first.fillers,second.fillers]
    omega
  · rw [first.registers,second.registers]
    omega

theorem branch (op : RelOp) (left right : Expression) (ifTrue ifFalse : Label) :
    Tallied [.statement (.branch op left right ifTrue ifFalse)] ["cmp",Machine.branchMnemonic op,"nop","ba","nop"] 0 := by
  cases op <;> constructor <;> rfl

theorem binary {op : BinaryOp} (supported : op ≠ .div) (context : Context) (left right : Expression) :
    Tallied [.expression context (.binary op left right)] (Machine.mnemonic? op).toList 1 := by
  cases op with
  | div => exact absurd rfl supported
  | _ => constructor <;> rfl

/-- Every argument is one move more. -/
theorem call (context : Context) (function : Expression) (arguments : List Expression) :
    Tallied [.expression context (.call function arguments)] (Occurrence.group (.expression context (.call function arguments)))
      ([.expression context (.call function arguments)].countP Occurrence.mints) := by
  induction arguments with
  | nil => cases context <;> constructor <;> rfl
  | cons e rest ih =>
    refine ⟨ih.calls,ih.stores,ih.loads,ih.compares,ih.branches,ih.jumps,ih.sets,ih.operators,?_,ih.fillers,ih.registers⟩
    have moves : List.count "mov" (Occurrence.group (.expression context (.call function (e :: rest)))) =
        List.count "mov" (Occurrence.group (.expression context (.call function rest))) + 1 := List.count_cons_self
    have kept : List.countP isKeptCall [.expression context (.call function (e :: rest))] =
        List.countP isKeptCall [.expression context (.call function rest)] := rfl
    have unmoved (arguments : List Expression) : List.countP isRegisterMove [.expression context (.call function arguments)] = 0 := rfl
    rw [moves,ih.moves,kept,unmoved,unmoved]
    simp only [List.flatMap_singleton,Occurrence.arguments,List.length_cons]
    omega

/-- The lines of a legal node. -/
theorem group : ∀ {o : Occurrence}, o.node.IsLegal → Tallied [o] o.group ([o].countP Occurrence.mints)
  | .statement (.branch op left right ifTrue ifFalse), _ => branch op left right ifTrue ifFalse
  | .statement (.discard _), _ => by constructor <;> rfl
  | .statement (.jump _), _ => by constructor <;> rfl
  | .statement (.label _), _ => by constructor <;> rfl
  | .statement (.move destination _), _ => by cases destination <;> constructor <;> rfl
  | .statement (.seq _ _), _ => by constructor <;> rfl
  | .expression context (.binary op left right), supported => binary supported context left right
  | .expression context (.call function arguments), _ => call context function arguments
  | .expression _ (.constant _), _ => by constructor <;> rfl
  | .expression context (.memory _), _ => by cases context <;> constructor <;> rfl
  | .expression context (.name _), _ => by cases context <;> constructor <;> rfl
  | .expression _ (.resultOf _ _), _ => by constructor <;> rfl
  | .expression _ (.register _), _ => by constructor <;> rfl
  | .expression _ (.relation _ _ _), _ => by constructor <;> rfl

theorem groups (legal : ∀ o ∈ os, o.node.IsLegal) : Tallied os (os.flatMap Occurrence.group) (os.countP Occurrence.mints) := by
  induction os with
  | nil => exact nil
  | cons o rest ih =>
    rw [← List.singleton_append,List.flatMap_append,List.flatMap_singleton,List.countP_append]
    exact (group (legal o List.mem_cons_self)).append (ih fun other member => legal other (List.mem_cons_of_mem o member))

end Tallied

theorem legal_of_select {supply : RegisterSupply} {p : Procedure} {f : CodeFragment} (accepted : (select .sparc supply p false).outcome = .ok f) :
    ∀ o ∈ p.body.flatMap Statement.occurrences, o.node.IsLegal := by
  intro o member
  obtain ⟨s,inside,below⟩ := List.mem_flatMap.1 member
  have occurs : o.node ∈ s.nodes := s.occurrences_perm.subset (List.mem_map_of_mem below)
  exact (select_iff_legal supply p).1.1 ⟨f,accepted⟩ _ (List.mem_flatMap.2 ⟨s,inside,occurs⟩)

end Selection

open Selection

/-- Every node of an accepted body has one group of lines of its own. So the lines with each
    mnemonic and the registers minted are as many as the nodes they are for. -/
theorem select_tallied {supply : RegisterSupply} {p : Procedure} {f : CodeFragment}
    (accepted : (select .sparc supply p false).outcome = .ok f) : ∃ minted,
      RegisterSupply.Mints (supply.adoptAll (virtualRegisters p.body)) minted f.supply ∧
        mnemonics f.code = (p.body.flatMap Statement.occurrences).flatMap Occurrence.group ∧
        Tallied (p.body.flatMap Statement.occurrences) (mnemonics f.code) minted.length := by
  have tiled := tiled_select accepted
  obtain ⟨minted,mints,length⟩ := tiled.mints
  refine ⟨minted,mints,tiled.lines,?_⟩
  rw [tiled.lines,length]
  exact Tallied.groups (legal_of_select accepted)

/-- A cell behind a label that nobody reads, whose address is the contents of another one; a
    cell behind a call that is stored; and a branch on what a call returns. -/
def unread : Procedure where
  className := "Test"
  methodName := "unread"
  body := [.discard (.resultOf (.label ⟨"here"⟩) (.memory (.memory (.named "%i0")))),
    .move (.memory (.named "%i0")) (.resultOf (.discard (.callNamed "f" [.constant 1])) (.memory (.named "%i1"))),
    .branch .lt (.named "%i2") (.callNamed "g" [.named "%i2"]) ⟨"here"⟩ ⟨"end"⟩,
    .label ⟨"end"⟩]

theorem select_tallied_unread : ∃ f, (select .sparc {} unread false).outcome = .ok f ∧
    mnemonics f.code = ["ld","set","mov","call","nop","ld","st","mov","call","nop","mov","cmp","bl","nop","ba","nop"] ∧
    ∃ minted, RegisterSupply.Mints (({} : RegisterSupply).adoptAll (virtualRegisters unread.body)) minted f.supply ∧
      mnemonics f.code = (unread.body.flatMap Statement.occurrences).flatMap Occurrence.group ∧
      Tallied (unread.body.flatMap Statement.occurrences) (mnemonics f.code) minted.length := by
  obtain ⟨f,accepted⟩ : ∃ f, (select .sparc {} unread false).outcome = .ok f := ⟨_,rfl⟩
  refine ⟨f,accepted,?_,select_tallied accepted⟩
  cases accepted
  rfl

end SparcBackend
