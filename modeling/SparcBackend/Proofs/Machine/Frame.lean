import Mathlib.Order.Bounds.Basic
import Mathlib.Tactic.Common
import SparcBackend.Machine.Frame
import SparcBackend.Proofs.Ir.Execution
import SparcBackend.Proofs.Machine.Encoding

/-!
Where locals lie. A local is addressed by what is taken from the frame pointer, as a number
of 32 bits with a sign. As a word it is always the right one; as a number it is right for
the first 536870911 locals only, and two locals have the same address exactly if their
numbers are the same modulo 1073741824. So in a frame that lies below its frame pointer in
the memory of the machine all locals lie in their places.
-/
namespace SparcBackend.Machine
variable {n size i j : Nat} {fp : Int}

/-! ### Sizes -/

theorem frameSize?_eq_some : frameSize? n = some size ↔
    (n + 23) * 4 + 7 < sizeLimit ∧ size = ((n + 23) * 4 + 7) / 8 * 8 := by
  unfold frameSize? reservedWords wordSize
  rw [Option.ite_none_right_eq_some,Option.some.injEq,eq_comm (b := size)]

/-- A frame is no larger than it has to be. -/
theorem isLeast_of_frameSize? (sized : frameSize? n = some size) : IsLeast {s | 8 ∣ s ∧ 4 * (n + 23) ≤ s} size := by
  obtain ⟨-,rfl⟩ := frameSize?_eq_some.1 sized
  refine ⟨⟨Nat.dvd_mul_left _ _,by omega⟩,?_⟩
  rintro s ⟨⟨k,rfl⟩,enough⟩
  omega

/-- The greatest frame for which an instruction has room is that of 1001 locals. -/
theorem fits_frameSize_iff (sized : frameSize? n = some size) : Fits (-size) ↔ n ≤ 1001 := by
  obtain ⟨-,rfl⟩ := frameSize?_eq_some.1 sized
  unfold Fits
  omega

/-! ### Places -/

/-- What is taken from the frame pointer for a local. -/
def localOffset (index : Nat) : Int32 := Int32.ofNat ((index + 1) * wordSize)

theorem localAccess_of_frameSize? (sized : frameSize? n = some size) (inside : i < n) :
    localAccess i = .ok (.binary .minus (.register framePointer) (.constant (localOffset i))) := by
  have fits : (i + 1) * wordSize < sizeLimit := by
    have := (frameSize?_eq_some.1 sized).1
    unfold wordSize
    omega
  exact if_pos fits

/-- The offset as a number: there are multiples of four on both sides of zero. -/
theorem toInt_localOffset (i : Nat) :
    (localOffset i).toInt = 4 * (((i + 1) % 1073741824 : Nat) : Int) - if (i + 1) % 1073741824 < 536870912 then 0 else 4294967296 := by
  have size : Int32.size = 4294967296 := rfl
  rw [localOffset,wordSize,Int32.toInt_ofNat',Int.bmod,size]
  split <;> split <;> omega

/-- The word at an address is the local with a number, between the frame pointer and the reserved words. -/
structure IsPlaced (fp : Int) (size index : Nat) (address : Int) : Prop where
  place : address = fp - 4 * (index + 1)
  below : address + 4 ≤ fp
  above : fp - size + 92 ≤ address

/-- The right place is always in the frame. -/
theorem isPlaced_iff (sized : frameSize? n = some size) (inside : i < n) {address : Int} :
    IsPlaced fp size i address ↔ address = fp - 4 * (i + 1) := by
  obtain ⟨-,rfl⟩ := frameSize?_eq_some.1 sized
  constructor
  · exact IsPlaced.place
  · rintro rfl
    exact ⟨rfl,by omega,by omega⟩

/-- Words at two addresses have no byte in common. -/
def Apart (a b : Int) : Prop := a + 4 ≤ b ∨ b + 4 ≤ a

theorem apart_localOffset_iff : Apart (fp - (localOffset i).toInt) (fp - (localOffset j).toInt) ↔ i % 1073741824 ≠ j % 1073741824 := by
  rw [toInt_localOffset,toInt_localOffset,Apart]
  split <;> split <;> omega

/-- The value of the expression for a local is the right address as a word. -/
theorem eval_localAccess {Memory : Type} (w : World Memory) (s : Store Memory) (i : Nat) :
    (Expression.binary .minus (.register framePointer) (.constant (localOffset i))).eval w s =
      some (s.registers framePointer - BitVec.ofNat 32 (4 * (i + 1)),s) := by
  simp only [Expression.eval,localOffset,wordSize,BinaryOp.apply,Nat.mul_comm (i + 1)]
  rfl

/-- Frames have the least size that is aligned and large enough. All locals are in
    their places and apart from each other in frames that lie below the frame pointer in
    memory. By the numbers that are taken from the frame pointer this is so for each of the
    first 536870911 locals and no other, and locals are apart whose numbers differ modulo
    1073741824. -/
theorem localAccess_placed (sized : frameSize? n = some size) :
    IsLeast {s | 8 ∣ s ∧ 4 * (n + 23) ≤ s} size ∧
    ∃ offset : Nat → Int32,
      (∀ i < n, localAccess i = .ok (.binary .minus (.register framePointer) (.constant (offset i)))) ∧
      (∀ (fp : Int), ∀ i < n, IsPlaced fp size i (fp - (offset i).toInt) ↔ i < 536870911) ∧
      (∀ (fp : Int), ∀ i < n, ∀ j < n, Apart (fp - (offset i).toInt) (fp - (offset j).toInt) ↔ i % 1073741824 ≠ j % 1073741824) ∧
      ∀ {Memory : Type} (w : World Memory) (s : Store Memory), size ≤ (s.registers framePointer).toNat → ∀ i < n, ∃ address,
        (Expression.binary .minus (.register framePointer) (.constant (offset i))).eval w s = some (address,s) ∧
        IsPlaced (s.registers framePointer).toNat size i address.toNat := by
  refine ⟨isLeast_of_frameSize? sized,localOffset,fun i inside => localAccess_of_frameSize? sized inside,?_,?_,?_⟩
  · intro fp i inside
    rw [isPlaced_iff sized inside,toInt_localOffset]
    have := (frameSize?_eq_some.1 sized).1
    split <;> omega
  · intro fp i _ j _
    exact apart_localOffset_iff
  · intro Memory w s room i inside
    refine ⟨_,eval_localAccess w s i,?_⟩
    rw [isPlaced_iff sized inside]
    have := (frameSize?_eq_some.1 sized).2
    have word : (s.registers framePointer - BitVec.ofNat 32 (4 * (i + 1))).toNat = (s.registers framePointer).toNat - 4 * (i + 1) := by
      bv_omega
    omega

theorem localAccess_placed_pair : ∃ offset : Nat → Int32, frameSize? 2 = some 104 ∧
    ∀ fp : Int, IsPlaced fp 104 0 (fp - (offset 0).toInt) ∧ IsPlaced fp 104 1 (fp - (offset 1).toInt) ∧
      Apart (fp - (offset 0).toInt) (fp - (offset 1).toInt) := by
  have sized : frameSize? 2 = some 104 := by decide
  obtain ⟨-,offset,-,placed,apart,-⟩ := localAccess_placed sized
  refine ⟨offset,sized,fun fp => ⟨?_,?_,?_⟩⟩
  · exact (placed fp 0 (by decide)).2 (by decide)
  · exact (placed fp 1 (by decide)).2 (by decide)
  · exact (apart fp 0 (by decide) 1 (by decide)).2 (by decide)

/-- Two locals of one frame at the same address. -/
theorem not_localAccess_placed_wrapped : ∃ size, frameSize? 1073741825 = some size ∧
    localAccess 0 = .ok (.binary .minus (.register framePointer) (.constant 4)) ∧
    localAccess 1073741824 = .ok (.binary .minus (.register framePointer) (.constant 4)) ∧
    ∀ fp : Int, ¬ IsPlaced fp size 1073741824 (fp - (4 : Int32).toInt) := by
  refine ⟨4294967392,by decide,rfl,rfl,fun fp placed => ?_⟩
  have place : fp - (4 : Int32).toInt = fp - 4 * ((1073741824 : Nat) + 1) := placed.place
  have offset : (4 : Int32).toInt = 4 := rfl
  omega

end SparcBackend.Machine
