import SparcBackend.Json.Value

/-!
Text is cut into tokens by one left fold over its characters. Outside strings, characters that are
neither blanks nor punctuation gather into a *word*, which has to be a literal or a numeral; inside
strings, escapes gather into 16-bit units, and pairs of surrogates are joined when the string ends.
-/
namespace SparcBackend.Json

inductive Token where
  | openObject
  | closeObject
  | openArray
  | closeArray
  | colon
  | comma
  | null
  | bool (b : Bool)
  | number (n : Number)
  | string (text : Option String)
deriving DecidableEq, Repr

/-! ### Words -/

/-- The value of a string of decimal digits. -/
def digitsValue (digits : List Char) : Nat :=
  digits.foldl (fun n c => 10 * n + (c.toNat - '0'.toNat)) 0

/-- An integer part is one digit, or several of which the first is not zero. -/
def isIntegerPart : List Char → Bool
  | [] => false
  | ['0'] => true
  | c :: rest => c != '0' && (c :: rest).all Char.isDigit

def isDigits (digits : List Char) : Bool :=
  !digits.isEmpty && digits.all Char.isDigit

/-- What may follow the letter of an exponent: an optional sign and digits. -/
def isExponent : List Char → Bool
  | '+' :: digits => isDigits digits
  | '-' :: digits => isDigits digits
  | digits => isDigits digits

/-- What may follow the integer part: nothing, a fraction, an exponent, or both in this order. -/
def isTail : List Char → Bool
  | [] => true
  | '.' :: rest =>
    let fraction := rest.takeWhile Char.isDigit
    match rest.dropWhile Char.isDigit with
    | [] => isDigits fraction
    | c :: exponent => isDigits fraction && (c == 'e' || c == 'E') && isExponent exponent
  | c :: exponent => (c == 'e' || c == 'E') && isExponent exponent

/-- Reads a numeral; the sign has been taken off. -/
def unsigned? (sign : Bool) (word : List Char) : Option Number :=
  let integer := word.takeWhile Char.isDigit
  let tail := word.dropWhile Char.isDigit
  if isIntegerPart integer && isTail tail then
    match tail, sign with
    | [], false => some (.natural (digitsValue integer))
    | [], true => some (.negative (digitsValue integer))
    | _, false => some (.decimal (String.ofList word))
    | _, true => some (.decimal (String.ofList ('-' :: word)))
  else
    none

/-- The token a word stands for. -/
def wordToken? : List Char → Option Token
  | ['n','u','l','l'] => some .null
  | ['t','r','u','e'] => some (.bool true)
  | ['f','a','l','s','e'] => some (.bool false)
  | '-' :: word => (unsigned? true word).map .number
  | word => (unsigned? false word).map .number

/-! ### Strings -/

/-- A piece of a string: a character, or the 16-bit unit of a `\u` escape. -/
inductive Piece where
  | char (c : Char)
  | unit (n : Nat)
deriving DecidableEq, Repr

/-- The first half of a surrogate pair. -/
def isHighSurrogate (n : Nat) : Bool :=
  0xD800 ≤ n && n < 0xDC00

/-- The second half of a surrogate pair. -/
def isLowSurrogate (n : Nat) : Bool :=
  0xDC00 ≤ n && n < 0xE000

/-- Joins surrogate pairs; `none` when a surrogate stands alone. -/
def joinPieces? : List Piece → Option (List Char)
  | [] => some []
  | .char c :: rest => (joinPieces? rest).map (c :: ·)
  | .unit high :: .unit low :: rest =>
    if isHighSurrogate high then
      if isLowSurrogate low then
        (joinPieces? rest).map (Char.ofNat (0x10000 + (high - 0xD800) * 0x400 + (low - 0xDC00)) :: ·)
      else
        none
    else if isLowSurrogate high then
      none
    else
      (joinPieces? (.unit low :: rest)).map (Char.ofNat high :: ·)
  | .unit n :: rest =>
    if isHighSurrogate n || isLowSurrogate n then
      none
    else
      (joinPieces? rest).map (Char.ofNat n :: ·)

def pieceText? (pieces : List Piece) : Option String :=
  (joinPieces? pieces).map String.ofList

/-- The character an escape letter stands for, `u` apart. -/
def escapeLetter? : Char → Option Char
  | '"' => some '"'
  | '\\' => some '\\'
  | '/' => some '/'
  | 'b' => some '\x08'
  | 'f' => some '\x0c'
  | 'n' => some '\n'
  | 'r' => some '\r'
  | 't' => some '\t'
  | _ => none

def hexDigit? (c : Char) : Option Nat :=
  if c.isDigit then some (c.toNat - '0'.toNat)
  else if 'a' ≤ c && c ≤ 'f' then some (c.toNat - 'a'.toNat + 10)
  else if 'A' ≤ c && c ≤ 'F' then some (c.toNat - 'A'.toNat + 10)
  else none

/-! ### The fold -/

/-- Where the lexer stands between two characters. Words and pieces are kept latest first. -/
inductive Place where
  | outside
  | word (letters : List Char)
  | quoted (pieces : List Piece)
  | escape (pieces : List Piece)
  /-- Inside a `\u` escape that misses `missing + 1` digits. -/
  | unicode (pieces : List Piece) (missing : Nat) (value : Nat)
deriving DecidableEq, Repr

/-- The place in the text and the tokens found before it, latest first. -/
structure Lexing where
  place : Place := .outside
  tokens : List Token := []
deriving DecidableEq, Repr

def isBlank (c : Char) : Bool :=
  c == ' ' || c == '\n' || c == '\t' || c == '\r'

def punctuation? : Char → Option Token
  | '\x7b' => some .openObject
  | '\x7d' => some .closeObject
  | '[' => some .openArray
  | ']' => some .closeArray
  | ':' => some .colon
  | ',' => some .comma
  | _ => none

/-- Ends the word that `c` delimits and reads `c` itself; `none` where `c` continues the word. -/
def delimiter? (tokens : List Token) (c : Char) : Option Lexing :=
  if isBlank c then some { tokens }
  else if c == '"' then some { place := .quoted [],tokens }
  else (punctuation? c).map fun t => { tokens := t :: tokens }

/-- Reads one character; `none` when no token can contain it here. -/
def Lexing.step (l : Lexing) (c : Char) : Option Lexing :=
  match l.place with
  | .outside => some ((delimiter? l.tokens c).getD { l with place := .word [c] })
  | .word letters =>
    if isBlank c || c == '"' || (punctuation? c).isSome then do
      delimiter? ((← wordToken? letters.reverse) :: l.tokens) c
    else
      some { l with place := .word (c :: letters) }
  | .quoted pieces =>
    if c == '"' then some { tokens := .string (pieceText? pieces.reverse) :: l.tokens }
    else if c == '\\' then some { l with place := .escape pieces }
    else if c.toNat < 0x20 then none
    else some { l with place := .quoted (.char c :: pieces) }
  | .escape pieces =>
    if c == 'u' then some { l with place := .unicode pieces 3 0 }
    else (escapeLetter? c).map fun e => { l with place := .quoted (.char e :: pieces) }
  | .unicode pieces missing value => do
    let value := 16 * value + (← hexDigit? c)
    match missing with
    | 0 => some { l with place := .quoted (.unit value :: pieces) }
    | missing + 1 => some { l with place := .unicode pieces missing value }

/-- The tokens of a text that ends here; `none` inside a string. -/
def Lexing.finish (l : Lexing) : Option (List Token) :=
  match l.place with
  | .outside => some l.tokens.reverse
  | .word letters => (wordToken? letters.reverse).map fun t => (t :: l.tokens).reverse
  | _ => none

def tokens? (text : List Char) : Option (List Token) := do
  (← text.foldlM Lexing.step {}).finish

end SparcBackend.Json
