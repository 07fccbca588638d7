import SparcBackend.Ir.Name
import SparcBackend.Ir.Operator

/-!
The trees in which the body of a method arrives, their compact text, and the registers that they
mention in tree order.
-/
namespace SparcBackend

mutual

/-- A statement is executed for its effect. -/
inductive Statement where
  /-- Goes to `ifTrue` when the relation holds of the two values and to `ifFalse` when not. -/
  | branch (op : RelOp) (left right : Expression) (ifTrue ifFalse : Label)
  /-- Evaluates an expression and throws the value away. -/
  | discard (value : Expression)
  | jump (target : Label)
  | label (name : Label)
  /-- Puts the value of `source` into a register or a memory cell. -/
  | move (destination source : Expression)
  | seq (first second : Statement)

/-- An expression has a 32-bit word as its value. -/
inductive Expression where
  | binary (op : BinaryOp) (left right : Expression)
  /-- Calls the procedure that `function` names. -/
  | call (function : Expression) (arguments : List Expression)
  | constant (value : Int32)
  /-- The memory cell at an address. -/
  | memory (address : Expression)
  /-- The address of a label. -/
  | name (label : Label)
  /-- The value of `value` after `statement` has been executed. -/
  | resultOf (statement : Statement) (value : Expression)
  | register (register : Register)
  /-- A comparison as a value, which only a branch may contain. -/
  | relation (op : RelOp) (left right : Expression)

end

/-! ### Text -/

mutual

def Statement.text : Statement → String
  | .branch op left right ifTrue ifFalse =>
    s!"CJUMP({op.name}, {left.text}, {right.text}, {ifTrue.name}, {ifFalse.name})"
  | .discard value => s!"EXP({value.text})"
  | .jump target => s!"JUMP({target.name})"
  | .label name => s!"LABEL {name.name}"
  | .move destination source => s!"MOVE({destination.text}, {source.text})"
  | .seq first second => s!"SEQ({first.text}, {second.text})"

def Expression.text : Expression → String
  | .binary op left right => s!"BINOP({op.name}, {left.text}, {right.text})"
  | .call function arguments =>
    "CALL(" ++ function.text ++ ", [" ++ ", ".intercalate (Expression.texts arguments) ++ "])"
  | .constant value => "CONST " ++ toString value.toInt
  | .memory address => s!"MEM({address.text})"
  | .name label => s!"NAME {label.name}"
  | .resultOf statement value => s!"ESEQ({statement.text}, {value.text})"
  | .register register => s!"TEMP {register.name}"
  | .relation op left right => s!"RELOP({op.name}, {left.text}, {right.text})"

def Expression.texts : List Expression → List String
  | [] => []
  | e :: rest => e.text :: Expression.texts rest

end

/-! ### Registers -/

mutual

/-- The registers of a statement in tree order, a destination before its source. -/
def Statement.registers : Statement → List Register
  | .branch _ left right _ _ => left.registers ++ right.registers
  | .discard value => value.registers
  | .jump _ => []
  | .label _ => []
  | .move destination source => destination.registers ++ source.registers
  | .seq first second => first.registers ++ second.registers

def Expression.registers : Expression → List Register
  | .binary _ left right => left.registers ++ right.registers
  | .call function arguments => function.registers ++ Expression.allRegisters arguments
  | .constant _ => []
  | .memory address => address.registers
  | .name _ => []
  | .resultOf statement value => statement.registers ++ value.registers
  | .register register => [register]
  | .relation _ left right => left.registers ++ right.registers

def Expression.allRegisters : List Expression → List Register
  | [] => []
  | e :: rest => e.registers ++ Expression.allRegisters rest

end

namespace Statement

/-- The statements one after the other, nested to the right; `none` of no statements. -/
def sequence? : List Statement → Option Statement
  | [] => none
  | s :: rest =>
    match sequence? rest with
    | none => some s
    | some tail => some (.seq s tail)

end Statement

namespace Expression

/-- The register that an access to a machine resource names directly. -/
def asRegister? : Expression → Option Register
  | .register r => some r
  | _ => none

/-- A call of the procedure with a label. -/
def callNamed (function : String) (arguments : List Expression) : Expression :=
  .call (.name ⟨function⟩) arguments

def named (name : String) : Expression :=
  .register ⟨name⟩

end Expression

end SparcBackend
