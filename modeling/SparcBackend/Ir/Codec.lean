import SparcBackend.Ir.Program
import SparcBackend.Json.Parser
import SparcBackend.Json.Printer
import SparcBackend.Json.Record

/-!
`Program.toJson` writes every field of every tree in the order of its declaration;
`Program.ofJson?` reads that form and the variations that records and variants allow. Reading is
limited in its nesting, writing is not, so a tree that nests too deeply is written and not read.
-/
namespace SparcBackend
open Json (fields? items? unitTag?)

/-- A variant with its content. -/
def Json.tagged (tag : String) (content : Json) : Json :=
  .ofMembers [(tag,content)]

/-! ### Operators -/

def BinaryOp.tag : BinaryOp → String
  | .plus => "plus"
  | .minus => "minus"
  | .mul => "mul"
  | .div => "div"
  | .and => "and"
  | .or => "or"
  | .xor => "xor"
  | .lshift => "lshift"
  | .rshift => "rshift"
  | .arshift => "arshift"

def RelOp.tag : RelOp → String
  | .eq => "eq"
  | .ne => "ne"
  | .lt => "lt"
  | .gt => "gt"
  | .le => "le"
  | .ge => "ge"
  | .ult => "ult"
  | .ugt => "ugt"
  | .ule => "ule"
  | .uge => "uge"

def BinaryOp.ofJson? (budget : Nat) (value : Json) : Option BinaryOp := do
  let tag ← unitTag? budget value
  BinaryOp.all.find? fun op => op.tag = tag

def RelOp.ofJson? (budget : Nat) (value : Json) : Option RelOp := do
  let tag ← unitTag? budget value
  RelOp.all.find? fun op => op.tag = tag

def Register.ofJson? (value : Json) : Option Register :=
  value.toText?.map Register.mk

def Label.ofJson? (value : Json) : Option Label :=
  value.toText?.map Label.mk

/-! ### Trees -/

mutual

def Statement.toJson : Statement → Json
  | .branch op left right ifTrue ifFalse =>
    .tagged "cjump" (.ofMembers [("op",.ofString op.tag),("left",left.toJson),("right",right.toJson),
      ("if_true",.ofString ifTrue.name),("if_false",.ofString ifFalse.name)])
  | .discard value => .tagged "eval" value.toJson
  | .jump target => .tagged "jump" (.ofString target.name)
  | .label name => .tagged "label" (.ofString name.name)
  | .move destination source =>
    .tagged "move" (.ofMembers [("dst",destination.toJson),("src",source.toJson)])
  | .seq first second => .tagged "seq" (.array [first.toJson,second.toJson])

def Expression.toJson : Expression → Json
  | .binary op left right =>
    .tagged "bin_op" (.ofMembers [("op",.ofString op.tag),("left",left.toJson),("right",right.toJson)])
  | .call function arguments =>
    .tagged "call" (.ofMembers [("func",function.toJson),("args",.array (Expression.toJsons arguments))])
  | .constant value => .tagged "const" (.ofInt value.toInt)
  | .memory address => .tagged "mem" address.toJson
  | .name label => .tagged "name" (.ofString label.name)
  | .resultOf statement value =>
    .tagged "result_of" (.ofMembers [("stm",statement.toJson),("exp",value.toJson)])
  | .register register => .tagged "temp" (.ofString register.name)
  | .relation op left right =>
    .tagged "relop" (.ofMembers [("op",.ofString op.tag),("left",left.toJson),("right",right.toJson)])

def Expression.toJsons : List Expression → List Json
  | [] => []
  | e :: rest => e.toJson :: Expression.toJsons rest

end

mutual

/-- Reads a statement: an object with one member, whose content may nest as far as `budget` allows. -/
def Statement.ofJson? : Nat → Json → Option Statement
  | budget + 1, .object [(some tag,content)] =>
    match tag with
    | "eval" => (Expression.ofJson? budget content).map .discard
    | "jump" => (Label.ofJson? content).map .jump
    | "label" => (Label.ofJson? content).map .label
    | "cjump" =>
      match budget with
      | 0 => none
      | inner + 1 => do
        let [some op,some left,some right,some ifTrue,some ifFalse] ←
          fields? ["op","left","right","if_true","if_false"] content | none
        return .branch (← RelOp.ofJson? inner op) (← Expression.ofJson? inner left)
          (← Expression.ofJson? inner right) (← Label.ofJson? ifTrue) (← Label.ofJson? ifFalse)
    | "move" =>
      match budget with
      | 0 => none
      | inner + 1 => do
        let [some destination,some source] ← fields? ["dst","src"] content | none
        return .move (← Expression.ofJson? inner destination) (← Expression.ofJson? inner source)
    | "seq" =>
      match budget, content with
      | inner + 1, .array [first,second] =>
        return .seq (← Statement.ofJson? inner first) (← Statement.ofJson? inner second)
      | _, _ => none
    | _ => none
  | _, _ => none

/-- Reads an expression: an object with one member, whose content may nest as far as `budget` allows. -/
def Expression.ofJson? : Nat → Json → Option Expression
  | budget + 1, .object [(some tag,content)] =>
    match tag with
    | "const" => content.toInt32?.map .constant
    | "mem" => (Expression.ofJson? budget content).map .memory
    | "name" => (Label.ofJson? content).map .name
    | "temp" => (Register.ofJson? content).map .register
    | "bin_op" =>
      match budget with
      | 0 => none
      | inner + 1 => do
        let [some op,some left,some right] ← fields? ["op","left","right"] content | none
        return .binary (← BinaryOp.ofJson? inner op) (← Expression.ofJson? inner left)
          (← Expression.ofJson? inner right)
    | "relop" =>
      match budget with
      | 0 => none
      | inner + 1 => do
        let [some op,some left,some right] ← fields? ["op","left","right"] content | none
        return .relation (← RelOp.ofJson? inner op) (← Expression.ofJson? inner left)
          (← Expression.ofJson? inner right)
    | "call" =>
      match budget with
      | inner + 2 => do
        let [some function,some (.array items)] ← fields? ["func","args"] content | none
        return .call (← Expression.ofJson? (inner + 1) function) (← items.mapM (Expression.ofJson? inner))
      | _ => none
    | "result_of" =>
      match budget with
      | 0 => none
      | inner + 1 => do
        let [some statement,some value] ← fields? ["stm","exp"] content | none
        return .resultOf (← Statement.ofJson? inner statement) (← Expression.ofJson? inner value)
    | _ => none
  | _, _ => none

end

/-! ### Programs -/

def Procedure.toJson (p : Procedure) : Json :=
  .ofMembers [("class_name",.ofString p.className),("method_name",.ofString p.methodName),
    ("is_entry",.bool p.isEntry),("locals",.ofNat p.locals.toNat),
    ("body",.array (p.body.map Statement.toJson))]

/-- Reads a procedure. Only the entry mark and the number of locals may be absent. -/
def Procedure.ofJson? : Nat → Json → Option Procedure
  | 0, _ => none
  | budget + 1, value => do
    let [some className,some methodName,isEntry,locals,some body] ←
      fields? ["class_name","method_name","is_entry","locals","body"] value | none
    return {
      className := ← className.toText?
      methodName := ← methodName.toText?
      isEntry := ← isEntry.elim (some false) Json.toBool?
      locals := ← locals.elim (some 0) Json.toUInt64?
      body := ← items? Statement.ofJson? budget body }

namespace Program

def toJson (program : Program) : Json :=
  .ofMembers [("fragments",.array (program.procedures.map Procedure.toJson))]

def ofJson? (value : Json) : Option Program := do
  let [some procedures] ← fields? ["fragments"] value | none
  return { procedures := ← items? Procedure.ofJson? (Json.nestingLimit - 1) procedures }

def print (program : Program) : String :=
  program.toJson.pretty

def parse? (text : String) : Option Program := do
  ofJson? (← Json.parse? text)

end Program

namespace OwningProgram

/-- What procedures own is not written. -/
def print (program : OwningProgram) : String :=
  program.program.print

/-- Procedures that were read own nothing. -/
def parse? (text : String) : Option OwningProgram :=
  (Program.parse? text).map Program.owning

end OwningProgram

end SparcBackend
