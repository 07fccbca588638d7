import Mathlib.Tactic.Common
import SparcBackend.Machine.Instructions

/-!
What an instruction asks the machine to do. The template decides the operation and the
operand lists fill it in; an instruction whose template is unknown or whose lists do
not fit asks for nothing that has a meaning. The instructions of a frame (`save`,
`restore`, `ret`, `clr`) have no operand lists and keep their text.

The kind that the mnemonic of an instruction gives it fits its action, so that what is
known of the kind is known of the shape (`HasAction`).
-/
namespace SparcBackend

namespace Operand

theorem asRegister?_eq_some {operand : Operand} {r : Register} : operand.asRegister? = some r ↔ operand = .register r := by
  cases operand <;> simp [asRegister?]

theorem mem_registers {operands : List Operand} {r : Register} :
    r ∈ operands.filterMap asRegister? ↔ .register r ∈ operands := by
  simp [List.mem_filterMap,asRegister?_eq_some]

end Operand

namespace Instruction

theorem defines_iff {i : Instruction} {r : Register} : i.defines r = true ↔ .register r ∈ i.defs := by
  rw [defines,List.contains_iff_mem,defRegisters,Operand.mem_registers]

theorem reads_iff {i : Instruction} {r : Register} : i.reads r = true ↔ .register r ∈ i.uses := by
  rw [reads,List.contains_iff_mem,useRegisters,Operand.mem_registers]

/-- Whether the instruction puts a value into a register: what a store lists as written
    is its address. -/
def writes (i : Instruction) (r : Register) : Bool := i.kind ≠ .store && i.defines r

/-- Whether the instruction looks at a register, as a value or as part of the address of
    a store. -/
def consumes (i : Instruction) (r : Register) : Bool := i.reads r || (i.kind = .store && i.defines r)

/-- A register stands in a slot of an instruction that looks at it or writes it. -/
theorem mem_registers {i : Instruction} {r : Register} : r ∈ i.registers ↔ i.consumes r = true ∨ i.writes r = true := by
  have slots : r ∈ i.registers ↔ i.defines r = true ∨ i.reads r = true := by
    simp only [registers,List.mem_append,defines,reads,List.contains_iff_mem]
  rw [slots]
  simp only [consumes,writes,Bool.or_eq_true,Bool.and_eq_true,decide_eq_true_eq]
  by_cases store : i.kind = .store <;> simp [store,or_comm]

end Instruction

namespace Machine

/-- What the templates compute. -/
inductive Operation where
  | set
  | arithmetic (op : BinaryOp)
  | compare
  | branch (op : RelOp)
  | jump
  | call
  | nop
  | load
  | store
  | move
  | offsetLoad (sign : OffsetSign)
  | offsetStore (sign : OffsetSign)
deriving DecidableEq

/-- The templates and what they compute. -/
def templates : List (String × Operation) :=
  [("set `s0, `d0",.set),
    ("add `s0, `s1, `d0",.arithmetic .plus),
    ("sub `s0, `s1, `d0",.arithmetic .minus),
    ("smul `s0, `s1, `d0",.arithmetic .mul),
    ("and `s0, `s1, `d0",.arithmetic .and),
    ("or `s0, `s1, `d0",.arithmetic .or),
    ("xor `s0, `s1, `d0",.arithmetic .xor),
    ("sll `s0, `s1, `d0",.arithmetic .lshift),
    ("srl `s0, `s1, `d0",.arithmetic .rshift),
    ("sra `s0, `s1, `d0",.arithmetic .arshift),
    ("cmp `s0, `s1",.compare),
    ("be `j0",.branch .eq),
    ("bne `j0",.branch .ne),
    ("bl `j0",.branch .lt),
    ("bg `j0",.branch .gt),
    ("ble `j0",.branch .le),
    ("bge `j0",.branch .ge),
    ("blu `j0",.branch .ult),
    ("bgu `j0",.branch .ugt),
    ("bleu `j0",.branch .ule),
    ("bgeu `j0",.branch .uge),
    ("ba `j0",.jump),
    ("call `j0",.call),
    ("nop",.nop),
    ("ld [`s0], `d0",.load),
    ("st `s0, [`d0]",.store),
    ("mov `s0, `d0",.move),
    ("ld [`s0+`s1], `d0",.offsetLoad .plus),
    ("ld [`s0-`s1], `d0",.offsetLoad .minus),
    ("st `s0, [`d0+`d1]",.offsetStore .plus),
    ("st `s0, [`d0-`d1]",.offsetStore .minus)]

def Operation.kind : Operation → Kind
  | .set => .loadImmediate
  | .arithmetic .plus => .add
  | .arithmetic .minus => .sub
  | .arithmetic _ => .other
  | .compare => .compare
  | .branch _ => .branch
  | .jump => .jump
  | .call => .call
  | .nop => .nop
  | .load => .load
  | .store => .store
  | .move => .move
  | .offsetLoad _ => .load
  | .offsetStore _ => .store

def OffsetSign.operator : OffsetSign → BinaryOp
  | .plus => .plus
  | .minus => .minus

inductive Address where
  | direct (base : Operand)
  | offset (base : Operand) (sign : OffsetSign) (displacement : Operand)
deriving DecidableEq

inductive Source where
  | operand (value : Operand)
  | binary (op : BinaryOp) (left right : Operand)
  | load (address : Address)
deriving DecidableEq

/-- What an instruction does. -/
inductive Action where
  | assign (destination : Register) (source : Source)
  | store (address : Address) (value : Operand)
  | compare (left right : Operand)
  | branch (op : RelOp) (target : Label)
  | jump (target : Label)
  | call (target : Label)
  | label (name : Label)
  | skip
  | special (text : String)
deriving DecidableEq

/-- The operation with its operands; `none` where the lists do not fit. -/
def Operation.action? (op : Operation) (defs uses : List Operand) (jumps : List Label) : Option Action :=
  match op, defs, uses, jumps with
  | .set, [.register d], [value], [] => some (.assign d (.operand value))
  | .move, [.register d], [value], [] => some (.assign d (.operand value))
  | .arithmetic op, [.register d], [left,right], [] => some (.assign d (.binary op left right))
  | .load, [.register d], [base], [] => some (.assign d (.load (.direct base)))
  | .offsetLoad sign, [.register d], [base,displacement], [] =>
    some (.assign d (.load (.offset base sign displacement)))
  | .store, [base], [value], [] => some (.store (.direct base) value)
  | .offsetStore sign, [base,displacement], [value], [] => some (.store (.offset base sign displacement) value)
  | .compare, [], [left,right], [] => some (.compare left right)
  | .branch op, [], [], [target] => some (.branch op target)
  | .jump, [], [], [target] => some (.jump target)
  | .call, [], [], [target] => some (.call target)
  | .nop, [], [], [] => some .skip
  | _, _, _, _ => none

/-- The kind of a template. -/
def kindOfTemplate (template : String) : Kind :=
  (Text.firstWord? template).elim .other Kind.ofMnemonic

/-- The action of a template with operand lists. A template without operands that is of
    no special kind stands for itself. -/
def Action.ofParts? (template : String) (defs uses : List Operand) (jumps : List Label) : Option Action :=
  match templates.lookup template with
  | some op => op.action? defs uses jumps
  | none =>
    if kindOfTemplate template = .other ∧ defs = [] ∧ uses = [] ∧ jumps = [] then some (.special template)
    else none

def Address.operands : Address → List Operand
  | .direct base => [base]
  | .offset base _ displacement => [base,displacement]

def Source.operands : Source → List Operand
  | .operand value => [value]
  | .binary _ left right => [left,right]
  | .load address => address.operands

def Action.operands : Action → List Operand
  | .assign _ source => source.operands
  | .store address value => value :: address.operands
  | .compare left right => [left,right]
  | _ => []

/-- What an action looks at besides the address of a store. -/
def Action.values : Action → List Operand
  | .assign _ source => source.operands
  | .store _ value => [value]
  | .compare left right => [left,right]
  | _ => []

/-- The address of a store. -/
def Action.place : Action → List Operand
  | .store address _ => address.operands
  | _ => []

theorem Action.operands_eq (a : Action) : a.operands = a.values ++ a.place := by
  cases a <;> simp [operands,values,place]

/-- The register that an action puts a value into. -/
def Action.destination? : Action → Option Register
  | .assign d _ => some d
  | _ => none

def Action.isStore : Action → Bool
  | .store .. => true
  | _ => false

/-- Whether control goes on with the next line. -/
def Action.isStraight : Action → Bool
  | .branch .. | .jump _ | .special _ => false
  | _ => true

/-! ### Other operands in the same place -/

def Address.mapOperands (f : Operand → Operand) : Address → Address
  | .direct base => .direct (f base)
  | .offset base sign displacement => .offset (f base) sign (f displacement)

def Source.mapOperands (f : Operand → Operand) : Source → Source
  | .operand value => .operand (f value)
  | .binary op left right => .binary op (f left) (f right)
  | .load address => .load (address.mapOperands f)

/-- The action with other values read. The address of a store stands among the written
    slots and stays. -/
def Action.mapUses (f : Operand → Operand) : Action → Action
  | .assign d source => .assign d (source.mapOperands f)
  | .store address value => .store address (f value)
  | .compare left right => .compare (f left) (f right)
  | a => a

theorem Action.destination?_mapUses (a : Action) (f : Operand → Operand) : (a.mapUses f).destination? = a.destination? := by
  cases a <;> rfl

theorem Source.operands_mapOperands (f : Operand → Operand) (source : Source) :
    (source.mapOperands f).operands = source.operands.map f := by
  cases source with
  | load address => cases address <;> rfl
  | operand | binary => rfl

theorem Action.values_mapUses (f : Operand → Operand) (a : Action) : (a.mapUses f).values = a.values.map f := by
  cases a with
  | assign d source => exact Source.operands_mapOperands f source
  | _ => rfl

theorem Action.place_mapUses (f : Operand → Operand) (a : Action) : (a.mapUses f).place = a.place := by
  cases a <;> rfl

theorem Operation.action?_mapUses {op : Operation} (f : Operand → Operand) {defs uses : List Operand} {jumps : List Label}
    {a : Action} (fits : op.action? defs uses jumps = some a) : op.action? defs (uses.map f) jumps = some (a.mapUses f) := by
  unfold Operation.action? at fits
  split at fits <;> first | (cases fits; rfl) | cases fits

theorem Operation.action?_retarget {op : Operation} {d : Register} (x : Register) {uses : List Operand} {jumps : List Label}
    {source : Source} (fits : op.action? [.register d] uses jumps = some (.assign d source)) :
    op.action? [.register x] uses jumps = some (.assign x source) := by
  generalize is : [Operand.register d] = defs at fits
  unfold Operation.action? at fits
  split at fits <;> first | (cases fits; cases is; rfl) | cases fits

theorem Operation.action?_operands {operation : Operation} {d : Register} {left right : Operand} {op : BinaryOp}
    (left' right' : Operand)
    (fits : operation.action? [.register d] [left,right] [] = some (.assign d (.binary op left right))) :
    operation.action? [.register d] [left',right'] [] = some (.assign d (.binary op left' right')) := by
  cases operation with
  | arithmetic other => cases fits; rfl
  | _ => cases fits

/-- An action with an operand list that is not empty is that of an operation. -/
theorem Action.ofParts?_eq_some {template : String} {defs uses : List Operand} {jumps : List Label} {a : Action} :
    Action.ofParts? template defs uses jumps = some a ↔
      (∃ op, templates.lookup template = some op ∧ op.action? defs uses jumps = some a) ∨
        templates.lookup template = none ∧ kindOfTemplate template = .other ∧ defs = [] ∧ uses = [] ∧ jumps = [] ∧
          a = .special template := by
  unfold Action.ofParts?
  cases templates.lookup template with
  | some op => simp
  | none => simp [eq_comm,and_assoc]

end Machine

open Machine (Action Operation Kind OffsetSign templates kindOfTemplate)

namespace Instruction

/-- What an instruction does; `none` if that has no meaning. -/
def action? : Instruction → Option Action
  | .label name => some (.label name)
  | .comment _ => some .skip
  | .operation template defs uses jumps _ => Action.ofParts? template defs uses jumps
  | .move template destination source _ => Action.ofParts? template [destination] [source] []

/-- What the kind and the operand lists of an instruction say of its action. -/
inductive HasAction (i : Instruction) : Action → Prop where
  | label {name : Label} (is : i = .label name) : HasAction i (.label name)
  | comment {text : String} (is : i = .comment text) : HasAction i .skip
  | set {d : Register} {value : Operand} (kind : i.kind = .loadImmediate) (defs : i.defs = [.register d])
      (uses : i.uses = [value]) (jumps : i.jumps = []) : HasAction i (.assign d (.operand value))
  | move {d : Register} {value : Operand} (kind : i.kind = .move) (defs : i.defs = [.register d])
      (uses : i.uses = [value]) (jumps : i.jumps = []) : HasAction i (.assign d (.operand value))
  | arithmetic {op : BinaryOp} {d : Register} {left right : Operand} (kind : i.kind = (Operation.arithmetic op).kind)
      (defs : i.defs = [.register d]) (uses : i.uses = [left,right]) (jumps : i.jumps = []) :
      HasAction i (.assign d (.binary op left right))
  | load {d : Register} {base : Operand} (kind : i.kind = .load) (defs : i.defs = [.register d])
      (uses : i.uses = [base]) (jumps : i.jumps = []) : HasAction i (.assign d (.load (.direct base)))
  | offsetLoad {d : Register} {base displacement : Operand} {sign : OffsetSign} (kind : i.kind = .load)
      (defs : i.defs = [.register d]) (uses : i.uses = [base,displacement]) (jumps : i.jumps = []) :
      HasAction i (.assign d (.load (.offset base sign displacement)))
  | store {base value : Operand} (kind : i.kind = .store) (defs : i.defs = [base]) (uses : i.uses = [value])
      (jumps : i.jumps = []) : HasAction i (.store (.direct base) value)
  | offsetStore {base displacement value : Operand} {sign : OffsetSign} (kind : i.kind = .store)
      (defs : i.defs = [base,displacement]) (uses : i.uses = [value]) (jumps : i.jumps = []) :
      HasAction i (.store (.offset base sign displacement) value)
  | compare {left right : Operand} (kind : i.kind = .compare) (defs : i.defs = []) (uses : i.uses = [left,right])
      (jumps : i.jumps = []) : HasAction i (.compare left right)
  | branch {op : RelOp} {target : Label} (kind : i.kind = .branch) (defs : i.defs = []) (uses : i.uses = [])
      (jumps : i.jumps = [target]) : HasAction i (.branch op target)
  | jump {target : Label} (kind : i.kind = .jump) (defs : i.defs = []) (uses : i.uses = [])
      (jumps : i.jumps = [target]) : HasAction i (.jump target)
  | call {target : Label} (kind : i.kind = .call) (defs : i.defs = []) (uses : i.uses = [])
      (jumps : i.jumps = [target]) : HasAction i (.call target)
  | nop (kind : i.kind = .nop) (defs : i.defs = []) (uses : i.uses = []) (jumps : i.jumps = []) :
      HasAction i .skip
  | special {text : String} (kind : i.kind = .other) (defs : i.defs = []) (uses : i.uses = [])
      (jumps : i.jumps = []) : HasAction i (.special text)

theorem action?_eq_ofParts {i : Instruction} {template : String} (named : i.template? = some template) :
    i.action? = Action.ofParts? template i.defs i.uses i.jumps := by
  cases i with
  | operation => cases named; rfl
  | move => cases named; rfl
  | label => cases named
  | comment => cases named

theorem kind_eq_of_template {i : Instruction} {template : String} (named : i.template? = some template) :
    i.kind = kindOfTemplate template := by
  simp [kind,opcode?,kindOfTemplate,named]

theorem kindOfTemplate_of_mem : ∀ entry ∈ templates, kindOfTemplate entry.1 = entry.2.kind := by
  decide +kernel

private theorem hasAction_of_fits {i : Instruction} {op : Operation} {a : Action} (kind : i.kind = op.kind)
    (fits : op.action? i.defs i.uses i.jumps = some a) : HasAction i a := by
  generalize isDefs : i.defs = defs at fits
  generalize isUses : i.uses = uses at fits
  generalize isJumps : i.jumps = jumps at fits
  unfold Operation.action? at fits
  split at fits
  · cases fits; exact .set kind isDefs isUses isJumps
  · cases fits; exact .move kind isDefs isUses isJumps
  · cases fits; exact .arithmetic kind isDefs isUses isJumps
  · cases fits; exact .load kind isDefs isUses isJumps
  · cases fits; exact .offsetLoad kind isDefs isUses isJumps
  · cases fits; exact .store kind isDefs isUses isJumps
  · cases fits; exact .offsetStore kind isDefs isUses isJumps
  · cases fits; exact .compare kind isDefs isUses isJumps
  · cases fits; exact .branch kind isDefs isUses isJumps
  · cases fits; exact .jump kind isDefs isUses isJumps
  · cases fits; exact .call kind isDefs isUses isJumps
  · cases fits; exact .nop kind isDefs isUses isJumps
  · cases fits

/-- Every meaning an instruction can have. -/
theorem hasAction {i : Instruction} {a : Action} (means : i.action? = some a) : HasAction i a := by
  cases named : i.template? with
  | none =>
    cases i with
    | operation => cases named
    | move => cases named
    | label name => cases means; exact .label rfl
    | comment text => cases means; exact .comment rfl
  | some template =>
    rw [action?_eq_ofParts named] at means
    have kind := kind_eq_of_template named
    unfold Action.ofParts? at means
    split at means
    · rename_i op found
      obtain ⟨before,after,split,_⟩ := List.lookup_eq_some_iff.1 found
      have member : (template,op) ∈ templates := by simp [split]
      exact hasAction_of_fits (kind.trans (kindOfTemplate_of_mem _ member)) means
    · split at means
      · rename_i plain
        cases means
        exact .special (kind.trans plain.1) plain.2.1 plain.2.2.1 plain.2.2.2
      · cases means

/-- Only labels have labels as their action. -/
theorem label?_eq_none {i : Instruction} {a : Action} (means : i.action? = some a) (other : ∀ name, a ≠ .label name) :
    i.label? = none := by
  cases i with
  | label name =>
    cases means
    exact absurd rfl (other name)
  | operation | move | comment => rfl

@[simp] theorem kind_label (name : Label) : (Instruction.label name).kind = .other := rfl

@[simp] theorem kind_comment (text : String) : (Instruction.comment text).kind = .other := rfl

section
variable {i : Instruction} {a : Action}

/-- The operands an action looks at are those its instruction consumes. -/
theorem consumes_iff (means : i.action? = some a) (r : Register) :
    i.consumes r = true ↔ .register r ∈ a.operands := by
  simp only [consumes,Bool.or_eq_true,Bool.and_eq_true,decide_eq_true_eq,defines_iff,reads_iff]
  cases hasAction means with
  | label is => simp [is,uses,defs,Action.operands]
  | comment is => simp [is,uses,defs,Action.operands]
  | @arithmetic op d left right kind defs uses jumps =>
    have other : i.kind ≠ .store := by rw [kind]; cases op <;> simp [Operation.kind]
    simp [other,defs,uses,Action.operands,Machine.Source.operands]
  | store kind defs uses jumps => simp [kind,defs,uses,Action.operands,Machine.Address.operands]
  | offsetStore kind defs uses jumps => simp [kind,defs,uses,Action.operands,Machine.Address.operands]
  | set kind defs uses jumps | move kind defs uses jumps | load kind defs uses jumps | offsetLoad kind defs uses jumps
  | compare kind defs uses jumps | branch kind defs uses jumps | jump kind defs uses jumps
  | call kind defs uses jumps | nop kind defs uses jumps | special kind defs uses jumps =>
    simp [kind,defs,uses,Action.operands,Machine.Source.operands,Machine.Address.operands]

theorem uses_eq (means : i.action? = some a) : i.uses = a.values := by
  cases hasAction means with
  | label is | comment is => simp [is,uses,Action.values]
  | _ => simp_all [Action.values,Machine.Source.operands,Machine.Address.operands]

theorem defs_eq (means : i.action? = some a) : i.defs = a.destination?.toList.map .register ++ a.place := by
  cases hasAction means with
  | label is | comment is => simp [is,defs,Action.destination?,Action.place]
  | _ => simp_all [Action.destination?,Action.place,Machine.Address.operands]

/-- The register an action puts a value into is the one its instruction writes. -/
theorem writes_iff (means : i.action? = some a) (r : Register) :
    i.writes r = true ↔ a.destination? = some r := by
  simp only [writes,Bool.and_eq_true,decide_eq_true_eq,defines_iff]
  cases hasAction means with
  | label is => simp [is,defs,Action.destination?]
  | comment is => simp [is,defs,Action.destination?]
  | @arithmetic op d left right kind defs uses jumps =>
    have other : i.kind ≠ .store := by rw [kind]; cases op <;> simp [Operation.kind]
    simp [other,defs,Action.destination?,eq_comm]
  | set kind defs uses jumps | move kind defs uses jumps | load kind defs uses jumps | offsetLoad kind defs uses jumps
  | store kind defs uses jumps | offsetStore kind defs uses jumps
  | compare kind defs uses jumps | branch kind defs uses jumps | jump kind defs uses jumps
  | call kind defs uses jumps | nop kind defs uses jumps | special kind defs uses jumps =>
    simp [kind,defs,Action.destination?,eq_comm]

theorem writes_eq_false_iff (means : i.action? = some a) (r : Register) : i.writes r = false ↔ a.destination? ≠ some r := by
  rw [← Bool.not_eq_true,writes_iff means]

/-- Only stores write memory. -/
theorem kind_eq_store_iff (means : i.action? = some a) : i.kind = .store ↔ ∃ address value, a = .store address value := by
  cases hasAction means with
  | label is => simp [is]
  | comment is => simp [is]
  | @arithmetic op d left right kind =>
    have other : i.kind ≠ .store := by rw [kind]; cases op <;> simp [Operation.kind]
    simp [other]
  | set kind | move kind | load kind | offsetLoad kind | store kind | offsetStore kind | compare kind | branch kind | jump kind
  | call kind | nop kind | special kind => simp [kind]

theorem kind_ne_store (means : i.action? = some a) (other : a.isStore = false) : i.kind ≠ .store := by
  intro store
  obtain ⟨address,value,rfl⟩ := (kind_eq_store_iff means).1 store
  cases other

end

/-! ### What is known of an instruction by its kind -/

/-- What an instruction of some kind does. -/
theorem action_of_kind {i : Instruction} {a : Action} (means : i.action? = some a) : match i.kind with
    | .add => ∃ d l r, i.defs = [.register d] ∧ i.uses = [l,r] ∧ i.jumps = [] ∧ a = .assign d (.binary .plus l r)
    | .sub => ∃ d l r, i.defs = [.register d] ∧ i.uses = [l,r] ∧ i.jumps = [] ∧ a = .assign d (.binary .minus l r)
    | .loadImmediate => ∃ d v, i.defs = [.register d] ∧ i.uses = [v] ∧ a = .assign d (.operand v)
    | .move => ∃ d v, i.defs = [.register d] ∧ i.uses = [v] ∧ a = .assign d (.operand v)
    | .compare => ∃ l r, i.defs = [] ∧ i.uses = [l,r] ∧ a = .compare l r
    | .jump => ∃ target, i.jumps = [target] ∧ a = .jump target
    | .call => ∃ target, a = .call target
    | .nop => a = .skip
    | _ => True := by
  cases hasAction means with
  | @arithmetic op d l r kind defs uses jumps => cases op <;> simp_all [Operation.kind]
  | _ => simp_all

section
variable {i j : Instruction} {template : String} (named : i.template? = some template) (same : j.template? = some template)
include named same

/-- Other values are read in the same places. -/
theorem action?_mapUses {a : Action} (f : Operand → Operand) (defs : j.defs = i.defs) (uses : j.uses = i.uses.map f)
    (jumps : j.jumps = i.jumps) (means : i.action? = some a) : j.action? = some (a.mapUses f) := by
  rw [action?_eq_ofParts named,Action.ofParts?_eq_some] at means
  rw [action?_eq_ofParts same,Action.ofParts?_eq_some,defs,uses,jumps]
  rcases means with ⟨op,found,fits⟩ | ⟨missing,plain,noDefs,noUses,noJumps,rfl⟩
  · exact .inl ⟨op,found,op.action?_mapUses f fits⟩
  · exact .inr ⟨missing,plain,noDefs,by simp [noUses],noJumps,rfl⟩

/-- The value goes to another register. -/
theorem action?_retarget {d x : Register} {source : Machine.Source} (defs : j.defs = [.register x]) (uses : j.uses = i.uses)
    (jumps : j.jumps = i.jumps) (means : i.action? = some (.assign d source)) : j.action? = some (.assign x source) := by
  have wrote : i.defs = [.register d] := by
    cases hasAction means <;> assumption
  rw [action?_eq_ofParts named,Action.ofParts?_eq_some,wrote] at means
  rw [action?_eq_ofParts same,Action.ofParts?_eq_some,defs,uses,jumps]
  rcases means with ⟨op,found,fits⟩ | ⟨-,-,absurdity,-⟩
  · exact .inl ⟨op,found,Operation.action?_retarget x fits⟩
  · cases absurdity

/-- An operator is applied to other operands. -/
theorem action?_operands {d : Register} {op : BinaryOp} {left right left' right' : Operand} (defs : j.defs = i.defs)
    (uses : j.uses = [left',right']) (jumps : j.jumps = i.jumps) (means : i.action? = some (.assign d (.binary op left right))) :
    j.action? = some (.assign d (.binary op left' right')) := by
  obtain ⟨wrote,read,jumped⟩ : i.defs = [.register d] ∧ i.uses = [left,right] ∧ i.jumps = [] := by
    cases hasAction means
    exact ⟨by assumption,by assumption,by assumption⟩
  rw [action?_eq_ofParts named,Action.ofParts?_eq_some,wrote,read,jumped] at means
  rw [action?_eq_ofParts same,Action.ofParts?_eq_some,defs,uses,jumps,wrote,jumped]
  rcases means with ⟨operation,found,fits⟩ | ⟨-,-,absurdity,-⟩
  · exact .inl ⟨operation,found,Operation.action?_operands left' right' fits⟩
  · cases absurdity

end

/-! ### The actions of the instruction set -/

@[simp] theorem action?_withNote (i : Instruction) (note : String) : (i.withNote note).action? = i.action? := by
  cases i <;> rfl

@[simp] theorem action?_loadImmediate (value : Int) (d : Register) :
    (Machine.loadImmediate value d).action? = some (.assign d (.operand (.immediate value))) := rfl

@[simp] theorem action?_loadAddress (label : Label) (d : Register) :
    (Machine.loadAddress label d).action? = some (.assign d (.operand (.address label))) := rfl

theorem action?_binary {op : BinaryOp} {left right : Operand} {d : Register} {i : Instruction}
    (selected : Machine.binary? op left right d = some i) : i.action? = some (.assign d (.binary op left right)) := by
  cases op <;> cases selected <;> rfl

@[simp] theorem action?_compare (left right : Operand) :
    (Machine.compare left right).action? = some (.compare left right) := rfl

@[simp] theorem action?_branch (op : RelOp) (target : Label) :
    (Machine.branch op target).action? = some (.branch op target) := by
  cases op <;> rfl

@[simp] theorem action?_jump (target : Label) : (Machine.jump target).action? = some (.jump target) := rfl

@[simp] theorem action?_call (target : Label) : (Machine.call target).action? = some (.call target) := rfl

@[simp] theorem action?_nop : Machine.nop.action? = some .skip := rfl

@[simp] theorem action?_load (address : Operand) (d : Register) :
    (Machine.load address (.register d)).action? = some (.assign d (.load (.direct address))) := rfl

@[simp] theorem action?_store (value address : Operand) :
    (Machine.store value address).action? = some (.store (.direct address) value) := rfl

@[simp] theorem action?_move (value : Operand) (d : Register) :
    (Machine.move value (.register d)).action? = some (.assign d (.operand value)) := rfl

/-- No template of the instruction set opens a frame, and its mnemonic is of no special kind. -/
theorem action?_save (size : Nat) :
    (Instruction.plain s!"save %sp, -{size}, %sp" [] []).action? = some (.special s!"save %sp, -{size}, %sp") := by
  obtain ⟨rest,text⟩ : ∃ rest, (s!"save %sp, -{size}, %sp").toList = "save ".toList ++ rest :=
    ⟨"%sp, -".toList ++ ((toString size).toList ++ ", %sp".toList),by simp [String.toList_append,toString]⟩
  generalize s!"save %sp, -{size}, %sp" = template at text
  have others : ∀ entry ∈ Machine.templates, entry.1.toList.take 5 ≠ "save ".toList := by decide +kernel
  have missing : Machine.templates.lookup template = none := by
    rw [List.lookup_eq_none_iff]
    intro entry member
    rw [bne_iff_ne]
    rintro rfl
    refine others entry member ?_
    rw [text]
    rfl
  have word : Text.firstWord? template = some "save" := by
    unfold Text.firstWord?
    rw [text]
    rfl
  have plain : Machine.kindOfTemplate template = .other := by
    simp only [Machine.kindOfTemplate,word,Option.elim_some]
    decide +kernel
  exact Action.ofParts?_eq_some.2 (.inr ⟨missing,plain,rfl,rfl,rfl,rfl⟩)

end Instruction

end SparcBackend
