import SparcBackend.Ir.Program
import SparcBackend.Machine.Access
import SparcBackend.Machine.Instructions

/-!
A frame holds the locals of a method and, below them, the words that every procedure reserves. The
prologue opens a frame and the epilogue closes it. The entry method has none: it ends the program by a
call, so that buffered output is written.
-/
namespace SparcBackend.Machine

/-- The words that every frame reserves: 16 for a register window, one for the address of a returned
structure, six for arguments. -/
def reservedWords : Nat := 16 + 1 + 6

/-- The bytes in a frame, rounded up to a double word; `none` where they do not fit a 64-bit word. -/
def frameSize? (locals : Nat) : Option Nat :=
  let bytes := (locals + reservedWords) * wordSize
  if bytes + 7 < sizeLimit then some ((bytes + 7) / 8 * 8) else none

/-- The instructions that open a method, its label first; `none` where the frame is too large. -/
def prologue? (m : Method) : Option (List Instruction) :=
  if m.isEntry then
    some [.label ⟨m.name⟩,.comment "Main function does not have a stack frame.",
      .comment "As a result, the prologue is empty."]
  else
    (frameSize? m.locals.toNat).map fun size =>
      [.label ⟨m.name⟩,
        (Instruction.plain s!"save %sp, -{size}, %sp" [] []).withNote s!"{m.locals.toNat} locals"]

/-- The instructions that leave a method, its epilogue label first. -/
def epilogue (m : Method) : List Instruction :=
  if m.isEntry then
    [.label ⟨m.epilogueLabel⟩,.plain "clr %o0" [] [],call ⟨"exit"⟩,nop]
  else
    [.label ⟨m.epilogueLabel⟩,.plain "ret" [] [],
      (Instruction.plain "restore" [] []).withNote "(utilize delay slot)"]

end SparcBackend.Machine
