/-!
What the phases report about their decisions, as data: a computation returns the lines that it wrote
next to its value, in order.
-/
namespace SparcBackend

/-- How much a reader wants to see. -/
inductive LogLevel where
  | error
  | warn
  | info
  | debug
  | trace
deriving DecidableEq, Repr

namespace LogLevel

/-- Errors come first, traces last. -/
def rank : LogLevel → Nat
  | error => 1
  | warn => 2
  | info => 3
  | debug => 4
  | trace => 5

def name : LogLevel → String
  | error => "error"
  | warn => "warn"
  | info => "info"
  | debug => "debug"
  | trace => "trace"

def all : List LogLevel :=
  [error,warn,info,debug,trace]

end LogLevel

structure LogLine where
  level : LogLevel
  message : String
deriving DecidableEq, Repr

/-- Lines in the order in which they were written. -/
abbrev Log := List LogLine

namespace Log

def error (message : String) : LogLine := ⟨.error,message⟩

def warn (message : String) : LogLine := ⟨.warn,message⟩

/-- A line on the progress of the work. -/
def info (message : String) : LogLine := ⟨.info,message⟩

/-- A line on a decision. -/
def debug (message : String) : LogLine := ⟨.debug,message⟩

/-- A line on a single step. -/
def trace (message : String) : LogLine := ⟨.trace,message⟩

/-- The lines up to a level; `none` keeps no line. -/
def upTo (level : Option LogLevel) (log : Log) : Log :=
  log.filter fun line => level.any fun most => line.level.rank ≤ most.rank

end Log

/-- A value and the lines written while it was computed. -/
structure Logged (α : Type) where
  value : α
  log : Log := []

namespace Logged

def write (line : LogLine) : Logged Unit :=
  { value := (),log := [line] }

def writeAll (log : Log) : Logged Unit :=
  { value := (),log }

instance : Monad Logged where
  pure a := { value := a }
  bind x f := { value := (f x.value).value,log := x.log ++ (f x.value).log }

@[simp] theorem value_pure {α : Type} (a : α) : (pure a : Logged α).value = a := rfl

@[simp] theorem log_pure {α : Type} (a : α) : (pure a : Logged α).log = [] := rfl

@[simp] theorem value_bind {α β : Type} (x : Logged α) (f : α → Logged β) :
    (x >>= f).value = (f x.value).value := rfl

@[simp] theorem log_bind {α β : Type} (x : Logged α) (f : α → Logged β) :
    (x >>= f).log = x.log ++ (f x.value).log := rfl

end Logged

end SparcBackend
