import SparcBackend.Ir.Tree

/-!
SPARC names its registers by group and number: `%i` for incoming arguments (the first is the object
and takes the result), `%o` for outgoing arguments (the first brings the result of a call), `%l` for
locals and `%g` for globals, eight of each, besides the stack and the frame pointer. An *access* is an
expression for a machine resource.
-/
namespace SparcBackend.Machine

def groupSize : Nat := 8

/-- The arguments that travel in registers. -/
def argumentRegisters : Nat := 6

def wordSize : Nat := 4

/-- Sizes, offsets and counts are less than this: they fit a 64-bit word. -/
def sizeLimit : Nat := 18446744073709551616

/-- Why the machine has no such resource. -/
inductive AccessError where
  | tooManyArguments (count most : Nat)
  | noSuchLocalRegister (index available : Nat)
  /-- A size or a count does not fit a 64-bit word. -/
  | overflow
deriving DecidableEq, Repr

def AccessError.message : AccessError → String
  | .tooManyArguments count most => s!"Too many arguments: {count} (maximum: {most})"
  | .noSuchLocalRegister index available => s!"No local register {index} (only {available} available)"
  | .overflow => "Size out of range"

/-- The register of a group with a number. -/
def groupRegister (group : Char) (index : Nat) : Register :=
  ⟨String.ofList ('%' :: group :: Nat.toDigits 10 index)⟩

/-- Whether a name denotes a machine register. -/
def isPhysical (r : Register) : Bool :=
  r.name = "%sp" || r.name = "%fp" ||
    match r.name.toList with
    | ['%',group,digit] =>
      (group = 'i' || group = 'o' || group = 'l' || group = 'g') && '0' ≤ digit && digit ≤ '7'
    | _ => false

/-- The object whose method runs. -/
def objectRegister : Register := ⟨"%i0"⟩

/-- Where a procedure leaves its result. -/
def resultRegister : Register := ⟨"%i0"⟩

/-- Where a caller finds the result of a call. -/
def callResultRegister : Register := ⟨"%o0"⟩

def stackPointer : Register := ⟨"%sp"⟩

def framePointer : Register := ⟨"%fp"⟩

/-- The argument register of a group with a number. -/
def argumentAccess (group : Char) (index : Nat) : Except AccessError Expression :=
  if index < argumentRegisters then .ok (.register (groupRegister group index))
  else if index + 1 < sizeLimit then .error (.tooManyArguments (index + 1) argumentRegisters)
  else .error .overflow

/-- Where a procedure finds its argument with a number. -/
def incomingArgument (index : Nat) : Except AccessError Expression :=
  argumentAccess 'i' index

/-- Where a caller puts the argument with a number. -/
def outgoingArgument (index : Nat) : Except AccessError Expression :=
  argumentAccess 'o' index

/-- The local register with a number. -/
def localRegister (index : Nat) : Except AccessError Expression :=
  if index < groupSize then .ok (.register (groupRegister 'l' index))
  else .error (.noSuchLocalRegister index groupSize)

/-- The registers that are handed out to virtual registers, in this order. -/
def localRegisters : List Register :=
  (List.range groupSize).map (groupRegister 'l')

/-- The address of a word on the stack, below the frame pointer with one word between. The offset is
taken as a signed 32-bit word. -/
def localAccess (index : Nat) : Except AccessError Expression :=
  let offset := (index + 1) * wordSize
  if offset < sizeLimit then
    .ok (.binary .minus (.register framePointer) (.constant (Int32.ofNat offset)))
  else
    .error .overflow

end SparcBackend.Machine
