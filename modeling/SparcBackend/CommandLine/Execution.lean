import SparcBackend.CommandLine.Arguments
import SparcBackend.CommandLine.Path
import SparcBackend.Ir.Codec
import SparcBackend.Ir.Sample
import SparcBackend.Pipeline

/-!
Commands read and write files through two operations that they are given, so that they run on a disk
or on a directory in memory alike. Everything else is decided here: what is printed where, what is
written, and how the command ends.
-/
namespace SparcBackend.CommandLine

/-- Access to files. Both operations tell why they fail. -/
structure Files (m : Type → Type) where
  read : String → m (Except String String)
  write : String → String → m (Except String Unit)

/-- How a command ends. -/
inductive Ending where
  | success
  | failure
  | badUsage
  /-- A frame size went beyond 64 bits. -/
  | overflow
deriving DecidableEq, Repr

def Ending.status : Ending → UInt32
  | .success => 0
  | .failure => 1
  | .badUsage => 2
  | .overflow => 101

/-- What a command prints and how it ends. -/
structure Outcome where
  ending : Ending
  output : String := ""
  errors : String := ""
deriving DecidableEq, Repr

namespace Outcome

def printed (output : String) : Outcome :=
  { ending := .success,output }

/-- The outcome with a failure behind what has been printed. -/
def failWith (o : Outcome) (f : Failure) : Outcome :=
  { o with ending := .failure,errors := o.errors ++ "Error: " ++ f.message ++ "\n" }

end Outcome

def versionLine : String :=
  "mjc 0.1.0\n"

def usage : String :=
  "Usage: mjc compile <INPUT> [OPTIONS]\n       mjc sample <NAME> [OPTIONS]\n\n"
    ++ "Options: -o, --output <FILE>; --opt <LEVEL>; --no-frames; --print-asm; -v, --verbose; --json (sample)\n"

/-- Compiles a program: the fragments, if none failed, and what is printed in either case. -/
def compileProgram (options : BackendOptions) (program : Program) : Option (List CodeFragment) × Outcome :=
  match Pipeline.run options.config program {} with
  | none => (none,{ ending := .overflow })
  | some result =>
    let reporter := result.value.reporter
    let reports : Outcome :=
      { ending := .success,errors := String.join (reporter.diagnostics.map fun d => d.text ++ "\n") }
    match result.value.fragments with
    | none => (none,reports.failWith reporter.failure)
    | some fragments =>
      (some fragments,if options.printAsm then { reports with output := Listing.text fragments } else reports)

variable {m : Type → Type} [Monad m]

/-- Writes a listing behind what has been printed. -/
def writeListing (files : Files m) (path : String) (fragments : List CodeFragment) (o : Outcome) :
    m Outcome := do
  match ← files.write path (Listing.text fragments) with
  | .ok () => return o
  | .error cause => return o.failWith (.io s!"Unable to write assembly file {path}: {cause}")

def executeCompile (files : Files m) (input : String) (output : Option String) (options : BackendOptions) :
    m Outcome := do
  let nothing : Outcome := { ending := .success }
  match ← files.read input with
  | .error cause => return nothing.failWith (.io s!"Unable to read {input}: {cause}")
  | .ok text =>
    match Program.parse? text with
    | none => return nothing.failWith (.input s!"{input} holds no program")
    | some program =>
      match compileProgram options program with
      | (none,o) => return o
      | (some fragments,o) => writeListing files (output.getD (withExtension "s" input)) fragments o

/-- Compiles a sample, or writes it in tree form. -/
def executeSample (files : Files m) (name : String) (output : Option String) (json : Bool)
    (options : BackendOptions) : m Outcome := do
  let nothing : Outcome := { ending := .success }
  match Sample.find? name with
  | none =>
    let available := ", ".intercalate (Sample.all.map Prod.fst)
    return nothing.failWith (.input s!"Unknown sample: {name} (available: {available})")
  | some program =>
    if json then
      match output with
      | none => return .printed program.print
      | some path =>
        match ← files.write path program.print with
        | .ok () => return nothing
        | .error cause => return nothing.failWith (.io cause)
    else
      match compileProgram options program, output with
      | (none,o), _ => return o
      | (some fragments,o), some path => writeListing files path fragments o
      | (some fragments,o), none =>
        return if options.printAsm then o else { o with output := Listing.text fragments }

/-- Does what a command line asks for. -/
def execute (files : Files m) (arguments : List String) : m Outcome :=
  match Request.ofArguments arguments with
  | .compile input output options => executeCompile files input output options
  | .sample name output json options => executeSample files name output json options
  | .version => return .printed versionLine
  | .help => return .printed usage
  | .badUsage => return { ending := .badUsage }

end SparcBackend.CommandLine
