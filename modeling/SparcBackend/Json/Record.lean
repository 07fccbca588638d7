import SparcBackend.Json.Value

/-!
The conventions by which typed data is laid out in JSON. A record is an object, whose unknown
members are passed over, or the array of its fields in order. A variant is an object with one member,
named by its tag; a variant without content may also be the tag alone.

A *budget* limits how deeply typed data may nest: each array or object that is looked into costs one,
and data inside a member that is passed over costs nothing.
-/
namespace SparcBackend.Json

/-- The number of containers that may stand inside one another. -/
def nestingLimit : Nat := 127

def membersNamed (name : String) (members : List (Option String × Json)) : List Json :=
  members.filterMap fun (key,value) => if key = some name then some value else none

/-- The fields of a record, each present or absent. All member names must be text, no field may occur
twice, and an array may not have more items than there are fields. -/
def fields? (names : List String) : Json → Option (List (Option Json))
  | .object members =>
    if members.all (fun (key,_) => key.isSome)
        && names.all (fun name => (membersNamed name members).length ≤ 1) then
      some (names.map fun name => (membersNamed name members).head?)
    else
      none
  | .array items =>
    if items.length ≤ names.length then
      some (items.map some ++ List.replicate (names.length - items.length) none)
    else
      none
  | _ => none

def toText? : Json → Option String
  | .string text => text
  | _ => none

def toBool? : Json → Option Bool
  | .bool b => some b
  | _ => none

/-- An integer between bounds, written without fraction and exponent and not as `-0`. -/
def toIntBetween? (least greatest : Int) : Json → Option Int
  | .number n => do
    let i ← n.toInt?
    if least ≤ i && i ≤ greatest then some i else none
  | _ => none

def toInt32? (value : Json) : Option Int32 :=
  (value.toIntBetween? (-2147483648) 2147483647).map Int32.ofInt

def toUInt64? (value : Json) : Option UInt64 :=
  (value.toIntBetween? 0 18446744073709551615).map fun i => UInt64.ofNat i.toNat

/-- The items of an array, each read with what the budget leaves. -/
def items? {α : Type} (read : Nat → Json → Option α) : Nat → Json → Option (List α)
  | budget + 1, .array items => items.mapM (read budget)
  | _, _ => none

/-- The tag of a variant without content: the tag itself, or an object that maps it to null. -/
def unitTag? : Nat → Json → Option String
  | _, .string text => text
  | _ + 1, .object [(some tag,.null)] => some tag
  | _, _ => none

end SparcBackend.Json
