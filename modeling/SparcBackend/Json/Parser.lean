import SparcBackend.Json.Token

/-!
The tokens of a text are read by a second left fold, over a stack of the containers that are still
open. Nesting therefore costs no recursion, and a text of any depth is read or refused.
-/
namespace SparcBackend.Json

/-- A container whose members are being read, latest first; an object waits for the value of `key`. -/
inductive Frame where
  | array (items : List Json)
  | object (members : List (Option String × Json)) (key : Option String)
deriving Repr

/-- What the next token has to be, with the containers open around it. -/
inductive Expected where
  | value (stack : List Frame)
  /-- The first item of an array, or its end. -/
  | firstItem (stack : List Frame)
  /-- A comma or the end of an array. -/
  | nextItem (items : List Json) (stack : List Frame)
  /-- The first key of an object, or its end. -/
  | firstKey (stack : List Frame)
  /-- A key, after a comma. -/
  | key (members : List (Option String × Json)) (stack : List Frame)
  /-- The colon after a key. -/
  | colon (members : List (Option String × Json)) (key : Option String) (stack : List Frame)
  /-- A comma or the end of an object. -/
  | nextMember (members : List (Option String × Json)) (stack : List Frame)
  | nothing (value : Json)
deriving Repr

/-- Hands a finished value to the innermost open container. -/
def deliver (value : Json) : List Frame → Expected
  | [] => .nothing value
  | .array items :: stack => .nextItem (value :: items) stack
  | .object members key :: stack => .nextMember ((key,value) :: members) stack

def beginValue (stack : List Frame) : Token → Option Expected
  | .null => some (deliver .null stack)
  | .bool b => some (deliver (.bool b) stack)
  | .number n => some (deliver (.number n) stack)
  | .string text => some (deliver (.string text) stack)
  | .openArray => some (.firstItem stack)
  | .openObject => some (.firstKey stack)
  | _ => none

def Expected.step : Expected → Token → Option Expected
  | .value stack, t => beginValue stack t
  | .firstItem stack, .closeArray => some (deliver (.array []) stack)
  | .firstItem stack, t => beginValue (.array [] :: stack) t
  | .nextItem items stack, .comma => some (.value (.array items :: stack))
  | .nextItem items stack, .closeArray => some (deliver (.array items.reverse) stack)
  | .firstKey stack, .closeObject => some (deliver (.object []) stack)
  | .firstKey stack, .string text => some (.colon [] text stack)
  | .key members stack, .string text => some (.colon members text stack)
  | .colon members name stack, .colon => some (.value (.object members name :: stack))
  | .nextMember members stack, .comma => some (.key members stack)
  | .nextMember members stack, .closeObject => some (deliver (.object members.reverse) stack)
  | _, _ => none

def ofTokens? (tokens : List Token) : Option Json := do
  match ← tokens.foldlM Expected.step (.value []) with
  | .nothing value => some value
  | _ => none

/-- Reads a text that holds one value, blanks around it apart. -/
def parse? (text : String) : Option Json := do
  ofTokens? (← tokens? text.toList)

end SparcBackend.Json
