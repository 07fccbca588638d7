import SparcBackend.Log

/-!
What a compilation tells its user. Phases do not stop at the first problem: they report it and go on
with the next method, and whoever runs the phases looks at the reports between them.
-/
namespace SparcBackend

inductive Severity where
  | error
  | warning
  | note
deriving DecidableEq, Repr

def Severity.name : Severity → String
  | .error => "error"
  | .warning => "warning"
  | .note => "note"

/-- A failure of the compiler as a whole. -/
inductive Failure where
  /-- A method has no instructions. -/
  | selection (method message : String)
  /-- The program cannot be read. -/
  | input (message : String)
  | io (message : String)
  | compilation (summary : String)
  | internal (message : String)
deriving DecidableEq, Repr

def Failure.message : Failure → String
  | .selection method message => s!"Codegen error in {method}: {message}"
  | .input message => s!"Input error: {message}"
  | .io message => s!"IO error: {message}"
  | .compilation summary => s!"Compilation failed: {summary}"
  | .internal message => s!"Internal compiler error: {message}"

/-- A message with the phase it arose in and further remarks. -/
structure Diagnostic where
  severity : Severity
  phase : Option String := none
  message : String
  notes : List String := []
deriving DecidableEq, Repr

namespace Diagnostic

def inPhase (d : Diagnostic) (phase : Option String) : Diagnostic :=
  { d with phase }

/-- The diagnostic with one more remark. -/
def withNote (d : Diagnostic) (note : String) : Diagnostic :=
  { d with notes := d.notes ++ [note] }

/-- The text of a diagnostic, each remark on a line of its own. -/
def text (d : Diagnostic) : String :=
  d.severity.name ++ d.phase.elim "" (fun phase => s!"[{phase}]") ++ ": " ++ d.message
    ++ String.join (d.notes.map fun note => "\n  note: " ++ note)

end Diagnostic

/-- The diagnostics of a compilation and the phase that runs. -/
structure Reporter where
  diagnostics : List Diagnostic := []
  phase : Option String := none
deriving DecidableEq, Repr

namespace Reporter

def errorCount (r : Reporter) : Nat :=
  r.diagnostics.countP fun d => d.severity = .error

def warningCount (r : Reporter) : Nat :=
  r.diagnostics.countP fun d => d.severity = .warning

def hasErrors (r : Reporter) : Bool :=
  0 < r.errorCount

/-- Adds a diagnostic of the running phase. -/
def push (r : Reporter) (severity : Severity) (message : String) (notes : List String) : Reporter :=
  { r with diagnostics := r.diagnostics ++ [{ severity,phase := r.phase,message,notes }] }

def beginPhase (r : Reporter) (phase : String) : Logged Reporter := do
  Logged.write (Log.info s!"[Entering {phase} phase]")
  return { r with phase := some phase }

def error (r : Reporter) (message : String) (notes : List String) : Logged Reporter := do
  Logged.write (Log.error message)
  return r.push .error message notes

def warning (r : Reporter) (message : String) (notes : List String) : Logged Reporter := do
  Logged.write (Log.warn message)
  return r.push .warning message notes

def note (r : Reporter) (message : String) (notes : List String) : Reporter :=
  r.push .note message notes

/-- Reports a failure as an error. -/
def report (r : Reporter) (failure : Failure) (notes : List String) : Logged Reporter :=
  r.error failure.message notes

/-- A number of things, in words. -/
def counted (n : Nat) (thing : String) : String :=
  s!"{n} {thing}" ++ if n = 1 then "" else "s"

/-- The numbers of errors and warnings, in words. -/
def summary (r : Reporter) : String :=
  match r.errorCount, r.warningCount with
  | 0, 0 => "No errors or warnings"
  | 0, warnings => counted warnings "warning"
  | errors, 0 => counted errors "error"
  | errors, warnings => counted errors "error" ++ " and " ++ counted warnings "warning"

/-- The failure of a compilation with these reports. -/
def failure (r : Reporter) : Failure :=
  .compilation r.summary

end Reporter

end SparcBackend
