import SparcBackend.CommandLine.Execution

/-!
Files and directories for executing commands without a disk, with a working directory from which
relative paths start. A path is followed name by name, and every name but the last has to lead to a
directory. Besides the files there are the usual top directories and a few devices.
-/
namespace SparcBackend.CommandLine

/-- Why a path cannot be read or written. -/
inductive FileError where
  | missing
  | notADirectory
  | isADirectory
  | nameTooLong
  | noSpace
deriving DecidableEq, Repr

def FileError.message : FileError → String
  | .missing => "No such file or directory (os error 2)"
  | .notADirectory => "Not a directory (os error 20)"
  | .isADirectory => "Is a directory (os error 21)"
  | .noSpace => "No space left on device (os error 28)"
  | .nameTooLong => "File name too long (os error 36)"

/-- A special file. None of them has anything to read. -/
inductive Device where
  /-- Takes everything and keeps nothing. -/
  | null
  /-- Has no room. -/
  | full
  | output
  | errors
deriving DecidableEq, Repr

/-- A place in the tree, as the names that lead to it from the top. -/
abbrev Place := List String

def Device.at? (place : Place) : Option Device :=
  if place = ["dev","null"] || place = ["dev","stdin"] then some .null
  else if place = ["dev","full"] then some .full
  else if place = ["dev","stdout"] then some .output
  else if place = ["dev","stderr"] then some .errors
  else none

inductive Entry where
  | file (contents : String)
  | device (d : Device)
  | directory
deriving DecidableEq, Repr

inductive Location where
  /-- At a directory that has been walked through, or at the top. -/
  | directory
  /-- At a name, of which nothing is known yet but the directory that it stands in. -/
  | named (parent : Place) (name : String) (endsInSlash : Bool)
deriving DecidableEq, Repr

/-- Files with their contents, and what has been printed by way of devices. -/
structure FileTree where
  files : List (Place × String) := []
  output : String := ""
  errors : String := ""
deriving DecidableEq, Repr

namespace FileTree

/-- The directory from which relative paths start. -/
def workingDirectory : Place := ["tmp","work"]

/-- The directories below the top that exist without files. -/
def topDirectories : List String :=
  ["bin","dev","etc","home","lib","mnt","opt","proc","root","run","sbin","srv","sys","tmp",
    "usr","var"]

/-- The bytes that a name may have. -/
def nameLimit : Nat := 255

/-- The bytes that a path may have. -/
def pathLimit : Nat := 4095

def isDirectory (t : FileTree) (place : Place) : Bool :=
  place.isEmpty || place = workingDirectory || topDirectories.any (fun name => place = [name])
    || t.files.any fun (file,_) => place.isPrefixOf file && place ≠ file

def entry? (t : FileTree) (place : Place) : Option Entry :=
  match t.files.lookup place, Device.at? place with
  | some contents, _ => some (.file contents)
  | none, some d => some (.device d)
  | none, none => if t.isDirectory place then some .directory else none

def lookUp (t : FileTree) (parent : Place) (name : String) : Except FileError (Option Entry) :=
  if nameLimit < name.utf8ByteSize then .error .nameTooLong
  else .ok (t.entry? (parent ++ [name]))

/-- Goes on from a directory to the one that a name leads to. One dot stays, and two dots lead up, but
not beyond the top. -/
def enter (t : FileTree) (here : Place) (name : String) : Except FileError Place := do
  if name = "." then return here
  else if name = ".." then return here.dropLast
  else
    match ← t.lookUp here name with
    | some .directory => return here ++ [name]
    | some _ => throw .notADirectory
    | none => throw .missing

/-- The names between the slashes of a path. -/
def names (path : String) : List String :=
  (path.splitOn "/").filter (· ≠ "")

/-- Follows a path up to its last name. -/
def locate (t : FileTree) (path : String) : Except FileError Location := do
  if path.isEmpty then throw .missing
  if pathLimit < path.utf8ByteSize then throw .nameTooLong
  match (names path).getLast? with
  | none => return .directory
  | some last =>
    let start := if path.startsWith "/" then [] else workingDirectory
    let parent ← (names path).dropLast.foldlM t.enter start
    if last = "." || last = ".." then return .directory
    else return .named parent last (path.endsWith "/")

/-- Reads a file. A slash behind its name asks for a directory. -/
def read (t : FileTree) (path : String) : Except FileError String := do
  match ← t.locate path with
  | .directory => throw .isADirectory
  | .named parent name endsInSlash =>
    match ← t.lookUp parent name with
    | none => throw .missing
    | some .directory => throw .isADirectory
    | some (.file contents) => if endsInSlash then throw .notADirectory else return contents
    | some (.device _) => if endsInSlash then throw .notADirectory else return ""

def insert (t : FileTree) (place : Place) (contents : String) : FileTree :=
  { t with files := (place,contents) :: t.files.filter fun (file,_) => file ≠ place }

/-- Writes a file, in a directory that exists. No file can be made under a name with a slash behind it. -/
def write (t : FileTree) (path contents : String) : Except FileError FileTree := do
  match ← t.locate path with
  | .directory => throw .isADirectory
  | .named parent name endsInSlash =>
    if endsInSlash then throw .isADirectory
    match ← t.lookUp parent name with
    | some .directory => throw .isADirectory
    | some (.device .null) => return t
    | some (.device .full) => throw .noSpace
    | some (.device .output) => return { t with output := t.output ++ contents }
    | some (.device .errors) => return { t with errors := t.errors ++ contents }
    | some (.file _) => return t.insert (parent ++ [name]) contents
    | none => return t.insert (parent ++ [name]) contents

def ofList (files : List (String × String)) : FileTree :=
  files.foldl (fun t (name,contents) =>
    t.insert (workingDirectory ++ (names name).filter (· ≠ ".")) contents) {}

/-- The files of a tree that is carried along. -/
def access : Files (StateM FileTree) where
  read path := return ((← get).read path).mapError FileError.message
  write path contents := do
    match (← get).write path contents with
    | .ok t =>
      set t
      return .ok ()
    | .error e => return .error e.message

/-- Executes a command line in the working directory. What is printed by way of devices stands behind
what the command prints itself. -/
def execute (t : FileTree) (arguments : List String) : Outcome × FileTree :=
  let (o,after) := (CommandLine.execute access arguments).run { files := t.files }
  ({ o with output := o.output ++ after.output,errors := o.errors ++ after.errors },after)

end FileTree

end SparcBackend.CommandLine
