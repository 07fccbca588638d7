import SparcBackend.Config

/-!
What the words of a command line ask for. An option may have its value behind an equals sign or in the
next word, which must not look like an option; letters may be joined (`-vo out.s`); behind `--` every
word is taken as it is. No option may be given twice.
-/
namespace SparcBackend.CommandLine

inductive Flag where
  | output
  | opt
  | noFrames
  | printAsm
  | verbose
  /-- Only of the command that compiles samples. -/
  | json
  | help
deriving DecidableEq, Repr

inductive Verb where
  | compile
  | sample
deriving DecidableEq, Repr

/-- What has been given so far. -/
structure Given where
  operand : Option String := none
  output : Option String := none
  optLevel : Option OptLevel := none
  noFrames : Bool := false
  printAsm : Bool := false
  verbose : Bool := false
  json : Bool := false
deriving DecidableEq, Repr

/-- Why the words are not read to their end. -/
inductive Stop where
  | badUsage
  | help
deriving DecidableEq, Repr

def longFlag? (verb : Verb) (name : String) : Option Flag :=
  if name = "output" then some .output
  else if name = "opt" then some .opt
  else if name = "no-frames" then some .noFrames
  else if name = "print-asm" then some .printAsm
  else if name = "verbose" then some .verbose
  else if name = "json" && verb = .sample then some .json
  else if name = "help" then some .help
  else none

def shortFlag? : Char → Option Flag
  | 'o' => some .output
  | 'v' => some .verbose
  | 'h' => some .help
  | _ => none

def Flag.takesValue : Flag → Bool
  | .output => true
  | .opt => true
  | _ => false

/-- Whether a word would be read as an option. A single hyphen is not. -/
def looksLikeOption (word : String) : Bool :=
  word.startsWith "-" && word ≠ "-"

namespace Given

def set (g : Given) : Flag → Except Stop Given
  | .noFrames => if g.noFrames then .error .badUsage else .ok { g with noFrames := true }
  | .printAsm => if g.printAsm then .error .badUsage else .ok { g with printAsm := true }
  | .verbose => if g.verbose then .error .badUsage else .ok { g with verbose := true }
  | .json => if g.json then .error .badUsage else .ok { g with json := true }
  | .help => .error .help
  | _ => .error .badUsage

/-- Sets an option to a value. A file name is not empty. -/
def setValue (g : Given) (flag : Flag) (value : String) : Except Stop Given :=
  match flag with
  | .output =>
    if g.output.isSome || value.isEmpty then .error .badUsage else .ok { g with output := some value }
  | .opt =>
    match g.optLevel, OptLevel.ofName value with
    | none, .ok level => .ok { g with optLevel := some level }
    | _, _ => .error .badUsage
  | _ => .error .badUsage

def setOperand (g : Given) (verb : Verb) (word : String) : Except Stop Given :=
  if g.operand.isSome || verb = .compile && word.isEmpty then .error .badUsage
  else .ok { g with operand := some word }

/-- Reads joined letters. Returns the option that waits for its value in the next word, if one does. -/
def readLetters (g : Given) : List Char → Except Stop (Given × Option Flag)
  | [] => .ok (g,none)
  | c :: rest =>
    match shortFlag? c with
    | none => .error .badUsage
    | some flag =>
      if flag.takesValue then
        match rest with
        | [] => .ok (g,some flag)
        | '=' :: value => return (← g.setValue flag (String.ofList value),none)
        | value => return (← g.setValue flag (String.ofList value),none)
      else do
        readLetters (← g.set flag) rest

/-- Reads a long option, without its hyphens. Returns the option that waits for its value in the next
word, if one does. -/
def readLong (g : Given) (verb : Verb) (word : List Char) : Except Stop (Given × Option Flag) :=
  match longFlag? verb (String.ofList (word.takeWhile (· ≠ '='))), word.dropWhile (· ≠ '=') with
  | none, _ => .error .badUsage
  | some flag, [] => if flag.takesValue then .ok (g,some flag) else return (← g.set flag,none)
  | some flag, _ :: value =>
    if flag.takesValue then return (← g.setValue flag (String.ofList value),none)
    else .error .badUsage

/-- Reads words that are no options, whatever they look like. -/
def readOperands (verb : Verb) : List String → Given → Except Stop Given
  | [], g => .ok g
  | word :: rest, g => do readOperands verb rest (← g.setOperand verb word)

/-- Reads one word that stands for itself or opens an option. -/
def readWord (g : Given) (verb : Verb) (word : String) : Except Stop (Given × Option Flag) :=
  match word.toList with
  | '-' :: '-' :: long => g.readLong verb long
  | '-' :: c :: letters => g.readLetters (c :: letters)
  | _ => return (← g.setOperand verb word,none)

def read (verb : Verb) : List String → Given → Except Stop Given
  | [], g => .ok g
  | word :: rest, g =>
    if word = "--" then readOperands verb rest g
    else do
      let (g,waiting) ← g.readWord verb word
      match waiting, rest with
      | none, rest => read verb rest g
      | some _, [] => .error .badUsage
      | some flag, value :: rest =>
        if looksLikeOption value then .error .badUsage
        else read verb rest (← g.setValue flag value)

end Given

structure BackendOptions where
  config : Config
  printAsm : Bool
deriving DecidableEq, Repr

/-- What a command line asks for. -/
inductive Request where
  | compile (input : String) (output : Option String) (options : BackendOptions)
  | sample (name : String) (output : Option String) (json : Bool) (options : BackendOptions)
  | version
  | help
  | badUsage
deriving DecidableEq, Repr

namespace Request

/-- The backend's part of what was given. -/
def backendOptions (g : Given) : BackendOptions where
  config := {
    optLevel := g.optLevel.getD .o1
    procedureFrames := !g.noFrames
    verbose := g.verbose }
  printAsm := g.printAsm

def ofVerb (verb : Verb) (words : List String) : Request :=
  match Given.read verb words {} with
  | .error .badUsage => .badUsage
  | .error .help => .help
  | .ok g =>
    match verb, g.operand with
    | _, none => .badUsage
    | .compile, some input => .compile input g.output (backendOptions g)
    | .sample, some name => .sample name g.output g.json (backendOptions g)

/-- Whether the words behind `help` ask for it: there are none, or one that names a command. -/
def isTopic : List String → Bool
  | [] => true
  | [word] => ["compile","sample","help"].contains word
  | _ => false

def ofArguments : List String → Request
  | [] => .badUsage
  | word :: rest =>
    if word = "compile" then ofVerb .compile rest
    else if word = "sample" then ofVerb .sample rest
    else if word = "--version" || word.startsWith "-V" then .version
    else if word = "--help" || word.startsWith "-h" || word = "help" && isTopic rest then .help
    else .badUsage

end Request

end SparcBackend.CommandLine
