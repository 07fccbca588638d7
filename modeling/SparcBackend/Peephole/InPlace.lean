import SparcBackend.Asm.Fragment
import SparcBackend.Peephole.Sweep

/-!
The optimizer as a sequence of edits of one fragment. Lines and slots are looked up and written by
their numbers, and asking for one that is not there ends everything (`Stop.outOfRange`). Whether a
lifetime ends on a line is read off the table that the fragment carries, which is computed afresh
when a pass begins and after every change. Loops may make a limited number of turns. What they end
with is what the sweeps end with.
-/
namespace SparcBackend.Peephole.InPlace
open Machine (Target OffsetSign)

/-- Why a rule changes nothing. -/
inductive Stop where
  | inapplicable
  /-- A line or a slot that is not there. -/
  | outOfRange
deriving DecidableEq, Repr

abbrev Attempt := Except Stop

/-- The whole code after a change. -/
structure Edit where
  code : List Instruction
  /-- The number of instructions that have gone. -/
  deleted : Nat
  message : String
deriving DecidableEq, Repr

/-! ### Lines and slots by number -/

section
variable {α : Type}

/-- A value without which the rule does not apply. -/
def want (x : Option α) : Attempt α :=
  x.elim (.error .inapplicable) .ok

/-- A condition without which the rule does not apply. -/
def require (condition : Bool) : Attempt Unit :=
  if condition then .ok () else .error .inapplicable

/-- The second rule where the first does not apply. -/
def orElse (first second : Attempt α) : Attempt α :=
  match first with
  | .error .inapplicable => second
  | _ => first

def fetch (items : List α) (place : Nat) : Attempt α :=
  items[place]?.elim (.error .outOfRange) .ok

def put (items : List α) (place : Nat) (item : α) : Attempt (List α) :=
  if place < items.length then .ok (items.set place item) else .error .outOfRange

def remove (items : List α) (place : Nat) : Attempt (List α) :=
  if place < items.length then .ok (items.eraseIdx place) else .error .outOfRange

/-- The items without those from one place up to another. -/
def drain (items : List α) (first behind : Nat) : Attempt (List α) :=
  if first ≤ behind ∧ behind ≤ items.length then .ok (items.take first ++ items.drop behind)
  else .error .outOfRange

/-- The items up to a place. -/
def upTo (items : List α) (place : Nat) : Attempt (List α) :=
  if place ≤ items.length then .ok (items.take place) else .error .outOfRange

/-- The number of the last place. -/
def lastPlace (items : List α) : Attempt Nat :=
  if items.length = 0 then .error .outOfRange else .ok (items.length - 1)

def swapFirst (items : List α) : Attempt (List α) := do
  let first ← fetch items 0
  let second ← fetch items 1
  put (← put items 0 second) 1 first

end

/-- Fills the read slots of an instruction, each of them with one operand. -/
def fillUses (i : Instruction) (uses : List Operand) : Attempt Instruction :=
  if uses.length = i.uses.length then .ok (i.withUses uses) else .error .outOfRange

/-- Fills the first written slot of an instruction. -/
def fillFirstDef (i : Instruction) (operand : Operand) : Attempt Instruction := do
  return i.withDefs (← put i.defs 0 operand)

/-- The first line from a line on that fills no delay slot. -/
def skipNops (code : List Instruction) (line : Nat) : Attempt Nat :=
  if line < code.length then do
    if isNop (← fetch code line) then skipNops code (line + 1) else return line
  else
    return line
termination_by code.length - line

/-- Whether a label is among those that stand from a line on. -/
def labelFollows (code : List Instruction) (target : Label) (line : Nat) : Bool :=
  if line < code.length then
    match code[line]?.bind Instruction.label? with
    | some label => label = target || labelFollows code target (line + 1)
    | none => false
  else
    false
termination_by code.length - line

/-! ### Rules -/

/-- An addition of zero is a copy. -/
def addZero (code : List Instruction) (line : Nat) : Attempt Edit := do
  let head ← fetch code line
  let (d,left,right) ← want (binaryParts? head)
  let source ← want (besideZero? left right)
  return { code := ← put code line (copy source d),deleted := 0
           message := "Replacing ADD of zero with MOV: " ++ head.text }

/-- A subtraction of zero is a copy. -/
def subZero (code : List Instruction) (line : Nat) : Attempt Edit := do
  let head ← fetch code line
  let (d,left,right) ← want (binaryParts? head)
  require (right = .immediate 0)
  return { code := ← put code line (copy left d),deleted := 0
           message := "Replacing SUB of zero with MOV: " ++ head.text }

/-- An address that is added up for the next load or store moves into it. -/
def foldAddress (lifetimes : LifetimeTable) (sign : OffsetSign) (code : List Instruction) (line : Nat) :
    Attempt Edit := do
  let head ← fetch code line
  let (d,base,offset) ← want (binaryParts? head)
  require base.asRegister?.isSome
  require (sign = .plus || offset.asImmediate?.isSome)
  require (lifetimes.endsAt d (line + 1))
  let next ← want code[line + 1]?
  let access ← want (foldedAccess? d base offset sign next)
  let folded := withFoldedNote d s!"{base.text} {sign.symbol} {offset.text}" next.note? access
  return { code := ← remove (← put code (line + 1) folded) line,deleted := 1
           message := s!"Folding address arithmetic into {folded.text}: {head.text}" }

/-- A jump to a label that follows goes, and so does what fills its delay slot. -/
def dropJump (code : List Instruction) (line : Nat) : Attempt Edit := do
  let head ← fetch code line
  let target ← want head.jumps.head?
  let behind ← skipNops code (line + 1)
  require (labelFollows code target behind)
  return { code := ← drain code line behind,deleted := behind - line
           message := s!"Removing branch to {target.name} (label follows immediately): {head.text}" }

/-- The copy of the result of a call goes when the next instruction can read the result itself. -/
def forwardResult (t : Target) (lifetimes : LifetimeTable) (code : List Instruction) (line : Nat) :
    Attempt Edit := do
  let place ← skipNops code (line + 1)
  let copied ← want code[place]?
  require (copied.kind = .move)
  let result ← want t.callResult.asRegister?
  let ([.register d],[source]) := (copied.defs,copied.uses) | .error .inapplicable
  require (source.isRegister result)
  require (lifetimes.endsAt d (place + 1))
  let consumer ← want code[place + 1]?
  require (consumer.reads d)
  return { code := ← remove (← put code (place + 1) (consumer.replaceUse d (.register result))) place
           deleted := 1
           message := s!"Using {result.name} in place of its copy {d.name}: {consumer.text}" }

/-- The operands with `value` for the one in a slot, which is the last or trades places with it. -/
def putLast (kind : Machine.Kind) (value : Int) (uses : List Operand) (slot last : Nat) :
    Attempt (List Operand) :=
  if slot = last then
    put uses last (.immediate value)
  else if kind.operator?.any BinaryOp.isCommutative && uses.length = 2 then do
    put (← swapFirst uses) last (.immediate value)
  else
    .error .inapplicable

/-- The operands with `value` for `d` in the last place, where it is the only immediate. -/
def placeImmediate (kind : Machine.Kind) (d : Register) (value : Int) (uses : List Operand) :
    Attempt (List Operand) := do
  let slot ← want (uses.findIdx? fun operand => operand.isRegister d)
  let last ← lastPlace uses
  let placed ← putLast kind value uses slot last
  require (!(← upTo placed last).any fun operand => operand.asImmediate?.isSome)
  return placed

/-- A number that is loaded for the next instruction moves into it. -/
def foldImmediate (t : Target) (lifetimes : LifetimeTable) (code : List Instruction) (line : Nat) :
    Attempt Edit := do
  let head ← fetch code line
  let ([.register d],[.immediate value]) := (head.defs,head.uses) | .error .inapplicable
  require (t.immediateFits value && lifetimes.endsAt d (line + 1))
  let next ← want code[line + 1]?
  require (t.acceptsImmediate next.kind && next.useCount d = 1)
  let uses ← placeImmediate next.kind d value next.uses
  let folded := (← fillUses next uses).renameInNote d.name (toString value)
  return { code := ← remove (← put code (line + 1) folded) line,deleted := 1
           message := s!"Folding {value} into the next instruction as an immediate: {head.text}" }

/-- A copy of a register to itself goes. -/
def dropSelfMove (code : List Instruction) (line : Nat) : Attempt Edit := do
  let head ← fetch code line
  let ([destination],[source]) := (head.defs,head.uses) | .error .inapplicable
  require (destination = source)
  return { code := ← remove code line,deleted := 1,message := "Removing no-op MOV: " ++ head.text }

/-- The rule for the kind of the instruction. -/
def kindRule (t : Target) (lifetimes : LifetimeTable) (code : List Instruction) (line : Nat) :
    Attempt Edit := do
  let head ← fetch code line
  match head.kind with
  | .add => orElse (addZero code line) (foldAddress lifetimes .plus code line)
  | .sub => orElse (subZero code line) (foldAddress lifetimes .minus code line)
  | .jump => dropJump code line
  | .call => forwardResult t lifetimes code line
  | .loadImmediate => foldImmediate t lifetimes code line
  | .move => dropSelfMove code line
  | _ => .error .inapplicable

/-- An instruction whose result the next one copies away computes it in the right place at once. -/
def mergeMove (lifetimes : LifetimeTable) (code : List Instruction) (line : Nat) : Attempt Edit := do
  let head ← fetch code line
  require (head.kind ≠ .store && !head.uses.isEmpty)
  let .register d :: _ := head.defs | .error .inapplicable
  require (lifetimes.endsAt d (line + 1))
  let next ← want code[line + 1]?
  require (next.kind = .move && next.reads d)
  let destination ← want next.defs.head?
  let merged := (← fillFirstDef head destination).renameInNote d.name destination.text
  return { code := ← remove (← put code line merged) (line + 1),deleted := 1
           message := s!"Merging {next.text} into {head.text}" }

/-- The change on a line: by the rule for its kind, or else by the general rule. -/
def change (t : Target) (lifetimes : LifetimeTable) (code : List Instruction) (line : Nat) : Attempt Edit :=
  orElse (kindRule t lifetimes code line) (mergeMove lifetimes code line)

/-! ### Loops -/

/-- How a loop has ended. -/
inductive Ending (α : Type) where
  | done (result : α)
  /-- All turns have been made, and the loop is not over. -/
  | unfinished
  | outOfRange
deriving DecidableEq, Repr

/-- Where a pass stands. -/
structure Pass where
  fragment : CodeFragment
  line : Nat := 0
  changed : Bool := false
  /-- The reports of the changes, in order. -/
  messages : List String := []

/-- A pass at the start of a fragment. -/
def Pass.start (f : CodeFragment) : Pass :=
  { fragment := f.withLifetimes }

/-- A pass after a change on its line. -/
def Pass.edit (p : Pass) (e : Edit) : Pass :=
  { fragment := { p.fragment with code := e.code }.withLifetimes
    line := p.line + 1 - e.deleted
    changed := true
    messages := p.messages ++ [e.message] }

def Pass.next (p : Pass) : Pass :=
  { p with line := p.line + 1 }

/-- One turn of a pass; `none` when something was out of range. -/
def Pass.turn? (t : Target) (p : Pass) : Option Pass :=
  match fetch p.fragment.code p.line with
  | .error _ => none
  | .ok head =>
    if head.isMarker then some p.next
    else
      match change t p.fragment.lifetimes p.fragment.code p.line with
      | .ok e => some (p.edit e)
      | .error .inapplicable => some p.next
      | .error .outOfRange => none

/-- A pass until it has come to the end of the code. -/
def Pass.run (t : Target) : Nat → Pass → Ending Pass
  | 0, p => if p.line < p.fragment.code.length then .unfinished else .done p
  | turns + 1, p =>
    if p.line < p.fragment.code.length then
      match p.turn? t with
      | some p => run t turns p
      | none => .outOfRange
    else
      .done p

/-- One pass over a fragment. -/
def pass (t : Target) (turns : Nat) (f : CodeFragment) : Ending Pass :=
  (Pass.start f).run t turns

/-- What has come of passing over a fragment until a pass changes nothing. -/
structure Passed where
  fragment : CodeFragment
  /-- The number of passes that changed something. -/
  passes : Nat := 0
  messages : List String := []

/-- Goes on with one more pass that changed something. -/
def Passed.after (o : Passed) (p : Pass) : Passed :=
  { fragment := p.fragment,passes := o.passes + 1,messages := o.messages ++ p.messages }

/-- Passes over a fragment until a pass changes nothing. None of the loops makes more turns than the
limit allows. -/
def Passed.run (t : Target) (limit : Nat) : Nat → Passed → Ending Passed
  | 0, _ => .unfinished
  | turns + 1, o =>
    match pass t limit o.fragment with
    | .done p => if p.changed then run t limit turns (o.after p) else .done { o with fragment := p.fragment }
    | .unfinished => .unfinished
    | .outOfRange => .outOfRange

/-- Optimizes a fragment. -/
def optimize (t : Target) (limit : Nat) (f : CodeFragment) : Ending Passed :=
  Passed.run t limit limit { fragment := f }

end SparcBackend.Peephole.InPlace
