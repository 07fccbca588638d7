import SparcBackend.Json.Value

/-!
One printer with two layouts: everything on one line, or one member a line with two blanks of indent
for each open container. Strings escape the quote, the backslash and the control characters below
U+0020 and nothing else.
-/
namespace SparcBackend.Json

/-- A hexadecimal digit in lower case. -/
def hexDigit (n : Nat) : Char :=
  if n < 10 then Char.ofNat ('0'.toNat + n) else Char.ofNat ('a'.toNat + (n - 10))

/-- How a character is written inside quotes. -/
def escape (c : Char) : List Char :=
  if c = '"' then ['\\','"']
  else if c = '\\' then ['\\','\\']
  else if c = '\x08' then ['\\','b']
  else if c = '\x0c' then ['\\','f']
  else if c = '\n' then ['\\','n']
  else if c = '\r' then ['\\','r']
  else if c = '\t' then ['\\','t']
  else if c.toNat < 0x20 then ['\\','u','0','0',hexDigit (c.toNat / 16),hexDigit (c.toNat % 16)]
  else [c]

/-- A text between quotes. -/
def quote (s : String) : String :=
  "\"" ++ String.ofList (s.toList.flatMap escape) ++ "\""

def Number.text : Number → String
  | .natural n => toString n
  | .negative n => "-" ++ toString n
  | .decimal literal => literal

/-- A string value between quotes; one that denotes no text is written as a lone surrogate. -/
def stringText : Option String → String
  | some s => quote s
  | none => "\"\\ud800\""

/-- Where blanks go. -/
structure Layout where
  /-- What separates the members of a container at a depth, and what closes it off. -/
  lineBreak : Nat → String
  /-- What follows the colon of a member. -/
  afterColon : String

/-- No blanks at all. -/
def Layout.compact : Layout where
  lineBreak _ := ""
  afterColon := ""

/-- A line for each member, indented by two blanks for each open container. -/
def Layout.indented : Layout where
  lineBreak depth := "\n" ++ String.ofList (List.replicate (2 * depth) ' ')
  afterColon := " "

mutual

/-- Writes a value that stands inside `depth` containers. -/
def render (layout : Layout) (depth : Nat) : Json → String
  | .null => "null"
  | .bool true => "true"
  | .bool false => "false"
  | .number n => n.text
  | .string text => stringText text
  | .array [] => "[]"
  | .array (item :: items) =>
    "[" ++ layout.lineBreak (depth + 1) ++ render layout (depth + 1) item
      ++ renderItems layout (depth + 1) items ++ layout.lineBreak depth ++ "]"
  | .object [] => "\x7b\x7d"
  | .object ((key,value) :: members) =>
    "\x7b" ++ layout.lineBreak (depth + 1) ++ stringText key ++ ":" ++ layout.afterColon
      ++ render layout (depth + 1) value ++ renderMembers layout (depth + 1) members
      ++ layout.lineBreak depth ++ "\x7d"

def renderItems (layout : Layout) (depth : Nat) : List Json → String
  | [] => ""
  | item :: items =>
    "," ++ layout.lineBreak depth ++ render layout depth item ++ renderItems layout depth items

def renderMembers (layout : Layout) (depth : Nat) : List (Option String × Json) → String
  | [] => ""
  | (key,value) :: members =>
    "," ++ layout.lineBreak depth ++ stringText key ++ ":" ++ layout.afterColon
      ++ render layout depth value ++ renderMembers layout depth members

end

def compact (value : Json) : String :=
  render .compact 0 value

def pretty (value : Json) : String :=
  render .indented 0 value

end SparcBackend.Json
