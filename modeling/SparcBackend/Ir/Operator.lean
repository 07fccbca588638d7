/-!
The binary operators of expressions and the relations that comparisons test.
-/
namespace SparcBackend

/-- An operator on two 32-bit words. -/
inductive BinaryOp where
  | plus
  | minus
  | mul
  | div
  | and
  | or
  | xor
  | lshift
  /-- Shift right, filling with zeros. -/
  | rshift
  /-- Shift right, filling with the sign. -/
  | arshift
deriving DecidableEq, Repr

namespace BinaryOp

def all : List BinaryOp :=
  [plus,minus,mul,div,and,or,xor,lshift,rshift,arshift]

def isCommutative : BinaryOp → Bool
  | plus | mul | and | or | xor => true
  | _ => false

/-- The name that trees show. -/
def name : BinaryOp → String
  | plus => "PLUS"
  | minus => "MINUS"
  | mul => "MUL"
  | div => "DIV"
  | and => "AND"
  | or => "OR"
  | xor => "XOR"
  | lshift => "LSHIFT"
  | rshift => "RSHIFT"
  | arshift => "ARSHIFT"

/-- The sign that annotations show. -/
def symbol : BinaryOp → String
  | plus => "+"
  | minus => "-"
  | mul => "*"
  | div => "/"
  | and => "&"
  | or => "|"
  | xor => "^"
  | lshift => "<<"
  | rshift => ">>>"
  | arshift => ">>"

end BinaryOp

/-- A relation between two 32-bit words; the last four compare them as unsigned numbers. -/
inductive RelOp where
  | eq
  | ne
  | lt
  | gt
  | le
  | ge
  | ult
  | ugt
  | ule
  | uge
deriving DecidableEq, Repr

namespace RelOp

def all : List RelOp :=
  [eq,ne,lt,gt,le,ge,ult,ugt,ule,uge]

def name : RelOp → String
  | eq => "EQ"
  | ne => "NE"
  | lt => "LT"
  | gt => "GT"
  | le => "LE"
  | ge => "GE"
  | ult => "ULT"
  | ugt => "UGT"
  | ule => "ULE"
  | uge => "UGE"

end RelOp

end SparcBackend
