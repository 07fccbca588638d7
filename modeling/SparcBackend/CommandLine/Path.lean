/-!
The name under which the result of a compilation is written when none is given.
-/
namespace SparcBackend.CommandLine

/-- Whether the last component of a path names a file: one or two dots name directories. -/
def isFileName (name : List Char) : Bool :=
  name ≠ [] && name ≠ ['.'] && name ≠ ['.','.']

/-- The characters before the last dot; `none` without a dot, and for a name whose only dot begins it. -/
def stem? (name : List Char) : Option (List Char) :=
  match name.reverse.dropWhile (· ≠ '.') with
  | [] => none
  | [_] => none
  | _ :: before => some before.reverse

/-- The name without what follows its last dot. The dot stays, unless it begins the name. -/
def withoutExtension (name : List Char) : List Char :=
  match stem? name with
  | some stem => stem ++ ['.']
  | none => name

/-- The path with the extension of its last component replaced, or added where it has none. The old
extension is taken off first; where no file name is left, as of `..s`, nothing is added. -/
def withExtension (extension path : String) : String :=
  let reversed := path.toList.reverse.dropWhile (· = '/')
  let name := (reversed.takeWhile (· ≠ '/')).reverse
  let directory := (reversed.dropWhile (· ≠ '/')).reverse
  if isFileName name then
    let bare := withoutExtension name
    if isFileName bare then
      String.ofList (directory ++ (stem? bare).getD bare ++ '.' :: extension.toList)
    else
      String.ofList (directory ++ bare)
  else
    path

end SparcBackend.CommandLine
