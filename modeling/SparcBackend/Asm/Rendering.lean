import SparcBackend.Asm.Instruction
import SparcBackend.Asm.RegisterMap

/-!
A slot is a backquote, a letter that names an operand list (`s` for the values read, `d` for the
registers written, `j` for the jump targets) and the decimal index of an operand. A slot that has no
operand is kept as it stands, and the text of an operand is never searched for slots again.
-/
namespace SparcBackend

namespace Template

/-- The mark that opens a slot. -/
def mark : Char := '\x60'

/-- The operand list a slot draws from. -/
inductive Source where
  | read
  | written
  | jump
deriving DecidableEq, Repr

namespace Source

def letter : Source → Char
  | read => 's'
  | written => 'd'
  | jump => 'j'

def ofLetter? : Char → Option Source
  | 's' => some read
  | 'd' => some written
  | 'j' => some jump
  | _ => none

end Source

inductive Piece where
  | char (c : Char)
  /-- A slot with the digits of its index, of which there may be none. -/
  | slot (source : Source) (digits : List Char)
deriving DecidableEq, Repr

/-- The characters at the head of a list of pieces that are decimal digits. -/
def leadingDigits : List Piece → List Char
  | .char c :: rest => if c.isDigit then c :: leadingDigits rest else []
  | _ => []

/-- Puts a character before pieces. The mark and a letter behind it make a slot, together with the
digits that follow. -/
def attach (c : Char) (more : List Piece) : List Piece :=
  if c = mark then
    match more with
    | .char k :: rest =>
      match Source.ofLetter? k with
      | some source => .slot source (leadingDigits rest) :: rest.drop (leadingDigits rest).length
      | none => .char c :: more
    | _ => .char c :: more
  else
    .char c :: more

/-- A template cut into characters and slots. -/
def pieces (template : List Char) : List Piece :=
  template.foldr attach []

/-- Indices are less than this: they fit a 64-bit word. -/
def indexLimit : Nat := 18446744073709551616

/-- The index that digits write. No digits write none, and neither do those of a number that is too
large for an index. -/
def index? (digits : List Char) : Option Nat :=
  let n := Nat.ofDigitChars 10 digits 0
  if digits ≠ [] ∧ n < indexLimit then some n else none

def Piece.fill (operands : Source → List String) : Piece → List Char
  | .char c => [c]
  | .slot source digits =>
    match (index? digits).bind fun n => (operands source)[n]? with
    | some text => text.toList
    | none => mark :: source.letter :: digits

/-- The template with its slots filled. -/
def fill (operands : Source → List String) (template : String) : String :=
  String.ofList ((pieces template.toList).flatMap (Piece.fill operands))

end Template

namespace Instruction

def operandTexts (assign : Register → Register) (i : Instruction) : Template.Source → List String
  | .read => i.uses.map fun operand => (operand.mapRegister assign).text
  | .written => i.defs.map fun operand => (operand.mapRegister assign).text
  | .jump => i.jumps.map Label.name

/-- The text of an instruction, each register under the name that `assign` gives it. -/
def render (assign : Register → Register) (i : Instruction) : String :=
  match i with
  | .label name => name.name ++ ":"
  | .comment text => "! " ++ text
  | .operation template _ _ _ note => withRemark (Template.fill (i.operandTexts assign) template) note
  | .move template _ _ note => withRemark (Template.fill (i.operandTexts assign) template) note
where
  /-- Adds the note behind an exclamation mark. -/
  withRemark (text : String) : Option String → String
    | some note => text ++ " ! " ++ note
    | none => text

def text (i : Instruction) : String :=
  i.render id

/-- The text of an instruction after registers have been assigned, if they have. -/
def textWith (registers : Option RegisterMap) (i : Instruction) : String :=
  i.render (registers.elim id RegisterMap.resolve)

end Instruction

end SparcBackend
