import SparcBackend.Lifetime
import SparcBackend.Machine.Target

/-!
A rule looks at an instruction and what follows it and may put shorter or cheaper code in their place.
Rules that drop a register ask that its lifetime ends right there; a rule that finds operands of
another shape does not apply. Each change makes the code lighter (`weight_lt_of_change?`), where the
weight counts the instructions and once more the additions and subtractions.
-/
namespace SparcBackend.Peephole
open Machine (Target OffsetSign)

/-- The lifetime of a register ends a number of lines behind the instruction in question. -/
abbrev EndsAfter := Nat → Register → Bool

/-- What a rule puts in place of an instruction and everything behind it. -/
structure Change where
  code : List Instruction
  /-- The number of instructions that have gone. -/
  deleted : Nat
  message : String
deriving DecidableEq, Repr

/-- The parts of `op a, b, d`. -/
def binaryParts? (i : Instruction) : Option (Register × Operand × Operand) :=
  match i.defs, i.uses with
  | [.register d], [left,right] => some (d,left,right)
  | _, _ => none

/-- A copy with a note. -/
def copy (source : Operand) (destination : Register) : Instruction :=
  (Machine.move source (.register destination)).withNote s!"{source.text} -> {destination.name}"

/-! ### Rules by kind -/

/-- The other summand where one is zero. -/
def besideZero? (left right : Operand) : Option Operand :=
  if left = .immediate 0 then some right
  else if right = .immediate 0 then some left
  else none

/-- An addition of zero is a copy. -/
def addZero? (head : Instruction) (rest : List Instruction) : Option Change := do
  let (d,left,right) ← binaryParts? head
  let source ← besideZero? left right
  return { code := copy source d :: rest,deleted := 0
           message := "Replacing ADD of zero with MOV: " ++ head.text }

/-- A subtraction of zero is a copy. -/
def subZero? (head : Instruction) (rest : List Instruction) : Option Change := do
  let (d,left,right) ← binaryParts? head
  guard (right = .immediate 0)
  return { code := copy left d :: rest,deleted := 0
           message := "Replacing SUB of zero with MOV: " ++ head.text }

/-- The load or store `i` at the address that was computed into `d`, with base and offset instead. -/
def foldedAccess? (d : Register) (base offset : Operand) (sign : OffsetSign) (i : Instruction) :
    Option Instruction :=
  match i.kind, i.defs, i.uses with
  | .load, [value], [address] =>
    if address.isRegister d then some (Machine.offsetLoad base offset sign value) else none
  | .store, [address], [value] =>
    if address.isRegister d then some (Machine.offsetStore value base offset sign) else none
  | _, _, _ => none

/-- The instruction with the note of another in which an address is spelt out. -/
def withFoldedNote (d : Register) (merged : String) (note : Option String) (i : Instruction) : Instruction :=
  match note with
  | some note => i.withNote (Text.replaceAll d.name merged note)
  | none => i

/-- An address that is added up for the next load or store moves into it. A subtraction needs a number
as offset. -/
def foldAddress? (ends : EndsAfter) (sign : OffsetSign) (head : Instruction) (rest : List Instruction) :
    Option Change := do
  let (d,base,offset) ← binaryParts? head
  guard base.asRegister?.isSome
  guard (sign = .plus || offset.asImmediate?.isSome)
  guard (ends 1 d)
  let next :: after := rest | none
  let access ← foldedAccess? d base offset sign next
  let folded := withFoldedNote d s!"{base.text} {sign.symbol} {offset.text}" next.note? access
  return { code := folded :: after,deleted := 1
           message := s!"Folding address arithmetic into {folded.text}: {head.text}" }

/-- Whether an instruction fills a delay slot. -/
def isNop (i : Instruction) : Bool :=
  i.kind = .nop

/-- The labels at the head of some code. -/
def leadingLabels (code : List Instruction) : List Label :=
  (code.takeWhile Instruction.isLabel).filterMap Instruction.label?

/-- A jump to a label that follows goes, and so does what fills its delay slot. -/
def dropJump? (head : Instruction) (rest : List Instruction) : Option Change := do
  let target ← head.jumps.head?
  let nops := rest.takeWhile isNop
  let after := rest.dropWhile isNop
  guard ((leadingLabels after).contains target)
  return { code := after,deleted := nops.length + 1
           message := s!"Removing branch to {target.name} (label follows immediately): {head.text}" }

/-- The copy of the result of a call goes when the next instruction can read the result itself. -/
def forwardResult? (t : Target) (ends : EndsAfter) (head : Instruction) (rest : List Instruction) :
    Option Change := do
  let nops := rest.takeWhile isNop
  let copied :: consumer :: after := rest.dropWhile isNop | none
  guard (copied.kind = .move)
  let result ← t.callResult.asRegister?
  let ([.register d],[source]) := (copied.defs,copied.uses) | none
  guard (source.isRegister result)
  guard (ends (nops.length + 2) d)
  guard (consumer.reads d)
  return { code := head :: nops ++ consumer.replaceUse d (.register result) :: after,deleted := 1
           message := s!"Using {result.name} in place of its copy {d.name}: {consumer.text}" }

/-- The operands with `value` for `d` in the last place. It gets there from the first of two places if
the operator commutes, and it must be the only immediate. -/
def placeImmediate? (kind : Machine.Kind) (d : Register) (value : Int) (uses : List Operand) :
    Option (List Operand) :=
  if uses.getLast? = some (.register d) then
    if uses.dropLast.any fun operand => operand.asImmediate?.isSome then none
    else some (uses.dropLast ++ [.immediate value])
  else
    match uses with
    | [first,second] =>
      if first.isRegister d && kind.operator?.any BinaryOp.isCommutative
          && second.asImmediate?.isNone then
        some [second,.immediate value]
      else
        none
    | _ => none

/-- A number that is loaded for the next instruction moves into it. -/
def foldImmediate? (t : Target) (ends : EndsAfter) (head : Instruction) (rest : List Instruction) :
    Option Change := do
  let ([.register d],[.immediate value]) := (head.defs,head.uses) | none
  guard (t.immediateFits value && ends 1 d)
  let next :: after := rest | none
  guard (t.acceptsImmediate next.kind && next.useCount d = 1)
  let uses ← placeImmediate? next.kind d value next.uses
  return { code := (next.withUses uses).renameInNote d.name (toString value) :: after,deleted := 1
           message := s!"Folding {value} into the next instruction as an immediate: {head.text}" }

/-- A copy of a register to itself goes. -/
def dropSelfMove? (head : Instruction) (rest : List Instruction) : Option Change := do
  let ([destination],[source]) := (head.defs,head.uses) | none
  guard (destination = source)
  return { code := rest,deleted := 1,message := "Removing no-op MOV: " ++ head.text }

/-- The rule for the kind of the instruction. -/
def kindRule? (t : Target) (ends : EndsAfter) (head : Instruction) (rest : List Instruction) :
    Option Change :=
  match head.kind with
  | .add => (addZero? head rest).or (foldAddress? ends .plus head rest)
  | .sub => (subZero? head rest).or (foldAddress? ends .minus head rest)
  | .jump => dropJump? head rest
  | .call => forwardResult? t ends head rest
  | .loadImmediate => foldImmediate? t ends head rest
  | .move => dropSelfMove? head rest
  | _ => none

/-! ### The general rule -/

/-- An instruction whose result the next one copies away computes it in the right place at once. What a
store lists as written are its address registers, so it is left alone. -/
def mergeMove? (ends : EndsAfter) (head : Instruction) (rest : List Instruction) : Option Change := do
  guard (head.kind ≠ .store && !head.uses.isEmpty)
  let .register d :: others := head.defs | none
  guard (ends 1 d)
  let next :: after := rest | none
  guard (next.kind = .move && next.reads d)
  let destination ← next.defs.head?
  return { code := (head.withDefs (destination :: others)).renameInNote d.name destination.text :: after
           deleted := 1
           message := s!"Merging {next.text} into {head.text}" }

/-- The change at an instruction: by the rule for its kind, or else by the general rule. -/
def change? (t : Target) (ends : EndsAfter) (head : Instruction) (rest : List Instruction) :
    Option Change :=
  if head.isMarker then none
  else (kindRule? t ends head rest).or (mergeMove? ends head rest)

/-! ### Weight -/

/-- Additions and subtractions, which a rule may turn into copies. -/
def isArithmetic (i : Instruction) : Bool :=
  i.kind = .add || i.kind = .sub

/-- The number of instructions, additions and subtractions counting twice. -/
def weight (code : List Instruction) : Nat :=
  code.length + code.countP isArithmetic

@[simp] theorem weight_cons (i : Instruction) (code : List Instruction) :
    weight (i :: code) = weight code + 1 + if isArithmetic i then 1 else 0 := by
  simp only [weight,List.length_cons,List.countP_cons]
  omega

theorem weight_append (first second : List Instruction) :
    weight (first ++ second) = weight first + weight second := by
  simp only [weight,List.length_append,List.countP_append]
  omega

/-- Instructions of the same kind weigh the same. -/
theorem isArithmetic_eq_of_kind {i j : Instruction} (same : i.kind = j.kind) :
    isArithmetic i = isArithmetic j := by
  simp only [isArithmetic,same]

theorem weight_dropWhile_le (p : Instruction → Bool) (code : List Instruction) :
    weight (code.dropWhile p) ≤ weight code := by
  have parts := weight_append (code.takeWhile p) (code.dropWhile p)
  rw [List.takeWhile_append_dropWhile] at parts
  omega

theorem guard_of {p : Prop} [Decidable p] (holds : p) : (guard p : Option Unit) = some () :=
  if_pos holds

theorem guard_of_not {p : Prop} [Decidable p] (fails : ¬ p) : (guard p : Option Unit) = none :=
  if_neg fails

theorem guard_eq_some {p : Prop} [Decidable p] {u : Unit} (passed : (guard p : Option Unit) = some u) : p := by
  by_cases holds : p
  · exact holds
  · cases (guard_of_not holds).symm.trans passed

section
variable {t : Target} {ends : EndsAfter} {head : Instruction} {rest : List Instruction} {c : Change}

theorem weight_copy_lt (source : Operand) (d : Register) (arithmetic : isArithmetic head = true) :
    weight (copy source d :: rest) < weight (head :: rest) := by
  have : isArithmetic (copy source d) = false := by simp [isArithmetic,copy]
  simp [arithmetic,this]

theorem weight_lt_of_addZero? (arithmetic : isArithmetic head = true) (change : addZero? head rest = some c) :
    weight c.code < weight (head :: rest) := by
  obtain ⟨_,_,change⟩ := Option.bind_eq_some_iff.1 change
  obtain ⟨_,_,change⟩ := Option.bind_eq_some_iff.1 change
  obtain rfl := Option.some.inj change
  exact weight_copy_lt _ _ arithmetic

theorem weight_lt_of_subZero? (arithmetic : isArithmetic head = true) (change : subZero? head rest = some c) :
    weight c.code < weight (head :: rest) := by
  obtain ⟨_,_,change⟩ := Option.bind_eq_some_iff.1 change
  obtain ⟨_,_,change⟩ := Option.bind_eq_some_iff.1 change
  obtain rfl := Option.some.inj change
  exact weight_copy_lt _ _ arithmetic

theorem isArithmetic_of_foldedAccess? {d : Register} {base offset : Operand} {sign : OffsetSign}
    {i j : Instruction} (folded : foldedAccess? d base offset sign i = some j) : isArithmetic j = false := by
  unfold foldedAccess? at folded
  split at folded
  · split at folded
    · cases folded; simp [isArithmetic]
    · cases folded
  · split at folded
    · cases folded; simp [isArithmetic]
    · cases folded
  · cases folded

theorem kind_withFoldedNote (d : Register) (merged : String) (note : Option String) (i : Instruction) :
    (withFoldedNote d merged note i).kind = i.kind := by
  cases note <;> simp [withFoldedNote]

theorem weight_lt_of_foldAddress? {sign : OffsetSign} (change : foldAddress? ends sign head rest = some c) :
    weight c.code < weight (head :: rest) := by
  obtain ⟨_,_,change⟩ := Option.bind_eq_some_iff.1 change
  obtain ⟨_,_,change⟩ := Option.bind_eq_some_iff.1 change
  obtain ⟨_,_,change⟩ := Option.bind_eq_some_iff.1 change
  obtain ⟨_,_,change⟩ := Option.bind_eq_some_iff.1 change
  split at change
  · obtain ⟨access,folded,change⟩ := Option.bind_eq_some_iff.1 change
    obtain rfl := Option.some.inj change
    have : isArithmetic access = false := isArithmetic_of_foldedAccess? folded
    simp only [weight_cons,isArithmetic_eq_of_kind (kind_withFoldedNote _ _ _ access),this,
      Bool.false_eq_true,if_false]
    omega
  · cases change

theorem weight_lt_of_dropJump? (change : dropJump? head rest = some c) :
    weight c.code < weight (head :: rest) := by
  obtain ⟨_,_,change⟩ := Option.bind_eq_some_iff.1 change
  obtain ⟨_,_,change⟩ := Option.bind_eq_some_iff.1 change
  obtain rfl := Option.some.inj change
  have := weight_dropWhile_le isNop rest
  simp only [weight_cons]
  omega

theorem weight_lt_of_forwardResult? (change : forwardResult? t ends head rest = some c) :
    weight c.code < weight (head :: rest) := by
  unfold forwardResult? at change
  split at change
  · rename_i copied consumer after behind
    obtain ⟨_,_,change⟩ := Option.bind_eq_some_iff.1 change
    obtain ⟨result,_,change⟩ := Option.bind_eq_some_iff.1 change
    split at change
    · rename_i d source _
      obtain ⟨_,_,change⟩ := Option.bind_eq_some_iff.1 change
      obtain ⟨_,_,change⟩ := Option.bind_eq_some_iff.1 change
      obtain ⟨_,_,change⟩ := Option.bind_eq_some_iff.1 change
      obtain rfl := Option.some.inj change
      have same : isArithmetic (consumer.replaceUse d (.register result)) = isArithmetic consumer :=
        isArithmetic_eq_of_kind (by simp)
      have parts := weight_append (rest.takeWhile isNop) (rest.dropWhile isNop)
      rw [List.takeWhile_append_dropWhile,behind] at parts
      simp only [List.cons_append,weight_cons,weight_append,same] at parts ⊢
      omega
    · cases change
  · cases change

theorem weight_lt_of_foldImmediate? (change : foldImmediate? t ends head rest = some c) :
    weight c.code < weight (head :: rest) := by
  unfold foldImmediate? at change
  split at change
  · obtain ⟨_,_,change⟩ := Option.bind_eq_some_iff.1 change
    split at change
    · rename_i next after _
      obtain ⟨_,_,change⟩ := Option.bind_eq_some_iff.1 change
      obtain ⟨uses,_,change⟩ := Option.bind_eq_some_iff.1 change
      obtain rfl := Option.some.inj change
      have same : ∀ old value, isArithmetic ((next.withUses uses).renameInNote old value)
          = isArithmetic next := fun _ _ => isArithmetic_eq_of_kind (by simp)
      simp only [weight_cons,same]
      omega
    · cases change
  · cases change

theorem weight_lt_of_dropSelfMove? (change : dropSelfMove? head rest = some c) :
    weight c.code < weight (head :: rest) := by
  unfold dropSelfMove? at change
  split at change
  · obtain ⟨_,_,change⟩ := Option.bind_eq_some_iff.1 change
    obtain rfl := Option.some.inj change
    simp only [weight_cons]
    omega
  · cases change

theorem weight_lt_of_mergeMove? (change : mergeMove? ends head rest = some c) :
    weight c.code < weight (head :: rest) := by
  obtain ⟨_,_,change⟩ := Option.bind_eq_some_iff.1 change
  split at change
  · obtain ⟨_,_,change⟩ := Option.bind_eq_some_iff.1 change
    split at change
    · obtain ⟨_,_,change⟩ := Option.bind_eq_some_iff.1 change
      obtain ⟨destination,_,change⟩ := Option.bind_eq_some_iff.1 change
      obtain rfl := Option.some.inj change
      have same : ∀ defs old value, isArithmetic ((head.withDefs defs).renameInNote old value)
          = isArithmetic head := fun _ _ _ => isArithmetic_eq_of_kind (by simp)
      simp only [weight_cons,same]
      omega
    · cases change
  · cases change

theorem weight_lt_of_kindRule? (change : kindRule? t ends head rest = some c) :
    weight c.code < weight (head :: rest) := by
  unfold kindRule? at change
  split at change
  · rename_i kind
    rcases Option.or_eq_some_iff.1 change with change | ⟨_,change⟩
    · exact weight_lt_of_addZero? (by simp [isArithmetic,kind]) change
    · exact weight_lt_of_foldAddress? change
  · rename_i kind
    rcases Option.or_eq_some_iff.1 change with change | ⟨_,change⟩
    · exact weight_lt_of_subZero? (by simp [isArithmetic,kind]) change
    · exact weight_lt_of_foldAddress? change
  · exact weight_lt_of_dropJump? change
  · exact weight_lt_of_forwardResult? change
  · exact weight_lt_of_foldImmediate? change
  · exact weight_lt_of_dropSelfMove? change
  · cases change

/-- Every change makes the code lighter. -/
theorem weight_lt_of_change? (change : change? t ends head rest = some c) :
    weight c.code < weight (head :: rest) := by
  unfold change? at change
  split at change
  · cases change
  · rcases Option.or_eq_some_iff.1 change with change | ⟨_,change⟩
    · exact weight_lt_of_kindRule? change
    · exact weight_lt_of_mergeMove? change

end

end SparcBackend.Peephole
