/-!
All occurrences that do not overlap are replaced, from left to right. An empty pattern occurs once
before each character and once at the end.
-/
namespace SparcBackend.Text

/-- Replaces a nonempty pattern; the first `matched` characters belong to an occurrence that has
already been replaced. -/
def replaceFrom (pattern value : List Char) (matched : Nat) : List Char → List Char
  | [] => []
  | c :: rest =>
    match matched with
    | matched + 1 => replaceFrom pattern value matched rest
    | 0 =>
      if pattern.isPrefixOf (c :: rest) then
        value ++ replaceFrom pattern value (pattern.length - 1) rest
      else
        c :: replaceFrom pattern value 0 rest

/-- The text with `value` in place of every occurrence of `pattern`. -/
def replaceAll (pattern value text : String) : String :=
  if pattern.isEmpty then
    String.ofList (value.toList ++ text.toList.flatMap fun c => c :: value.toList)
  else
    String.ofList (replaceFrom pattern.toList value.toList 0 text.toList)

end SparcBackend.Text
