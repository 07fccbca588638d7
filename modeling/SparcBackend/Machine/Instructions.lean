import SparcBackend.Asm.Instruction
import SparcBackend.Ir.Operator

/-!
The templates of the instructions that are selected, and the kind of an instruction, which its
mnemonic decides.
-/
namespace SparcBackend.Machine

/-! ### Templates -/

def loadImmediate (value : Int) (destination : Register) : Instruction :=
  .plain "set `s0, `d0" [.register destination] [.immediate value]

def loadAddress (label : Label) (destination : Register) : Instruction :=
  .plain "set `s0, `d0" [.register destination] [.address label]

/-- The mnemonic of an operator. Division has none: its instruction needs a second register set up. -/
def mnemonic? : BinaryOp → Option String
  | .plus => some "add"
  | .minus => some "sub"
  | .mul => some "smul"
  | .and => some "and"
  | .or => some "or"
  | .xor => some "xor"
  | .lshift => some "sll"
  | .rshift => some "srl"
  | .arshift => some "sra"
  | .div => none

def binary? (op : BinaryOp) (left right : Operand) (destination : Register) : Option Instruction :=
  (mnemonic? op).map fun mnemonic =>
    .plain (mnemonic ++ " `s0, `s1, `d0") [.register destination] [left,right]

def compare (left right : Operand) : Instruction :=
  .plain "cmp `s0, `s1" [] [left,right]

/-- The mnemonic of the branch that is taken when a relation holds. -/
def branchMnemonic : RelOp → String
  | .eq => "be"
  | .ne => "bne"
  | .lt => "bl"
  | .gt => "bg"
  | .le => "ble"
  | .ge => "bge"
  | .ult => "blu"
  | .ugt => "bgu"
  | .ule => "bleu"
  | .uge => "bgeu"

def branch (op : RelOp) (target : Label) : Instruction :=
  .transfer (branchMnemonic op ++ " `j0") target

def jump (target : Label) : Instruction :=
  .transfer "ba `j0" target

def call (target : Label) : Instruction :=
  .transfer "call `j0" target

/-- Does nothing, behind an instruction that takes effect one instruction late. -/
def nop : Instruction :=
  (Instruction.plain "nop" [] []).withNote "(do nothing in delay slot)"

def load (address destination : Operand) : Instruction :=
  .plain "ld [`s0], `d0" [destination] [address]

/-- Writes the memory cell at an address. The address stands among the written slots, so that its
register lives up to the store. -/
def store (source address : Operand) : Instruction :=
  .plain "st `s0, [`d0]" [address] [source]

def move (source destination : Operand) : Instruction :=
  .move "mov `s0, `d0" destination source none

/-- Whether an offset is added to a base or taken from it. -/
inductive OffsetSign where
  | plus
  | minus
deriving DecidableEq, Repr

def OffsetSign.symbol : OffsetSign → String
  | .plus => "+"
  | .minus => "-"

def offsetLoad (base offset : Operand) (sign : OffsetSign) (destination : Operand) : Instruction :=
  .plain ("ld [`s0" ++ sign.symbol ++ "`s1], `d0") [destination] [base,offset]

def offsetStore (source base offset : Operand) (sign : OffsetSign) : Instruction :=
  .plain ("st `s0, [`d0" ++ sign.symbol ++ "`d1]") [base,offset] [source]

/-! ### Kinds -/

/-- What an instruction does, as far as its neighbours care. -/
inductive Kind where
  | add
  | sub
  /-- Goes to a label in any case. -/
  | jump
  /-- Goes to a label or on. -/
  | branch
  | call
  | loadImmediate
  | move
  | load
  | store
  | compare
  | nop
  | other
deriving DecidableEq, Repr

def Kind.operator? : Kind → Option BinaryOp
  | .add => some .plus
  | .sub => some .minus
  | _ => none

def branchMnemonics : List String :=
  RelOp.all.map branchMnemonic

def Kind.ofMnemonic (mnemonic : String) : Kind :=
  if mnemonic = "add" then .add
  else if mnemonic = "sub" then .sub
  else if mnemonic = "ba" then .jump
  else if mnemonic = "call" then .call
  else if mnemonic = "set" then .loadImmediate
  else if mnemonic = "mov" then .move
  else if mnemonic = "ld" then .load
  else if mnemonic = "st" then .store
  else if mnemonic = "cmp" then .compare
  else if mnemonic = "nop" then .nop
  else if branchMnemonics.contains mnemonic then .branch
  else .other

end Machine

/-- The kind of an instruction; labels, comments and templates without a word are of no special kind. -/
def Instruction.kind (i : Instruction) : Machine.Kind :=
  i.opcode?.elim .other Machine.Kind.ofMnemonic

/-- The kind depends on the template alone. -/
theorem Instruction.kind_eq_of_template? {i j : Instruction} (same : i.template? = j.template?) :
    i.kind = j.kind := by
  simp only [kind,opcode?,same]

@[simp] theorem Instruction.kind_withNote (i : Instruction) (note : String) :
    (i.withNote note).kind = i.kind :=
  kind_eq_of_template? (by simp)

@[simp] theorem Instruction.kind_withDefs (i : Instruction) (defs : List Operand) :
    (i.withDefs defs).kind = i.kind :=
  kind_eq_of_template? (by simp)

@[simp] theorem Instruction.kind_withUses (i : Instruction) (uses : List Operand) :
    (i.withUses uses).kind = i.kind :=
  kind_eq_of_template? (by simp)

@[simp] theorem Instruction.kind_renameInNote (old value : String) (i : Instruction) :
    (i.renameInNote old value).kind = i.kind :=
  kind_eq_of_template? (by simp)

@[simp] theorem Instruction.kind_replaceUse (i : Instruction) (r : Register) (value : Operand) :
    (i.replaceUse r value).kind = i.kind :=
  kind_eq_of_template? (by simp)

namespace Machine

@[simp] theorem kind_move (source destination : Operand) : (move source destination).kind = .move := rfl

@[simp] theorem kind_offsetLoad (base offset : Operand) (sign : OffsetSign) (destination : Operand) :
    (offsetLoad base offset sign destination).kind = .load := by
  cases sign <;> rfl

@[simp] theorem kind_offsetStore (source base offset : Operand) (sign : OffsetSign) :
    (offsetStore source base offset sign).kind = .store := by
  cases sign <;> rfl

end Machine

end SparcBackend
