import SparcBackend.Proofs.Allocation.FirstFit
import SparcBackend.Proofs.Allocation.Pressure
import SparcBackend.Selection.Fragment

/-!
Local registers that the code itself names. The pool starts with all of them free, and
whether a line names one is not looked at. So one of them may be assigned to a virtual
register that is held on that line, but only one that stands so far in front in the pool
that there are enough owned registers to hold all up to it.
-/
namespace SparcBackend
namespace Allocation
open Machine (groupRegister)
open Selection (select)
variable {supply : RegisterSupply} {code : List Instruction} {registers : List Register} {r x : Register} {m : RegisterMap}
  {holding : Finset Register}

/-- The code names `x` on a line on which `r` is held. -/
def NamedWithin (code : List Instruction) (r x : Register) : Prop :=
  ∃ line i, code[line]? = some i ∧ x ∈ i.registers ∧ Holds code r line

/-- What `r` has is no register that the code names while `r` is held. -/
def Respects (code : List Instruction) (m : RegisterMap) (r : Register) : Prop :=
  ∀ x, m.get? r = some x → ¬ NamedWithin code r x

/-- All registers in front of the first free one are held, each by another register. -/
theorem length_le_of_firstFree? (distinct : registers.Nodup) (is : firstFree? registers m holding = some x) :
    ∃ front back, registers = front ++ x :: back ∧ front.length ≤ holding.card := by
  obtain ⟨-,front,back,rfl,taken⟩ := List.find?_eq_some_iff_append.1 is
  have held : front.toFinset ⊆ holding.image m.resolve := by
    intro y member
    obtain ⟨r,among,has⟩ : ∃ r ∈ holding, m.get? r = some y := by simpa using taken y (List.mem_toFinset.1 member)
    exact Finset.mem_image.2 ⟨r,among,by simp [RegisterMap.resolve,has]⟩
  refine ⟨front,back,rfl,?_⟩
  calc front.length = front.toFinset.card := (List.toFinset_card_of_nodup (distinct.sublist (List.sublist_append_left _ _))).symm
    _ ≤ (holding.image m.resolve).card := Finset.card_le_card held
    _ ≤ holding.card := Finset.card_image_le

theorem localRegisters_split {front back : List Register} (parts : Machine.localRegisters = front ++ x :: back) :
    front.length < Machine.groupSize ∧ x = groupRegister 'l' front.length := by
  have inside : front.length < Machine.groupSize := by
    have size : Machine.localRegisters.length = Machine.groupSize := by simp [Machine.localRegisters]
    simp [← size,parts]
  have there : Machine.localRegisters[front.length]? = some x := by simp [parts]
  exact ⟨inside,by simpa [Machine.localRegisters,inside] using there.symm⟩

/-- A register gets the first local one that no other owned register holds at its first
    definition, and the pressure there exceeds the number of that one. Whether the code
    itself names it while it is held is not looked at. Code that names no local register
    below the pressure while this one is held is respected. -/
theorem ofCode_respects_iff (supply : RegisterSupply) (code : List Instruction) (r : Register)
    (assigned : (ofCode supply code).map.contains r = true) :
    ∃ before line k, IsFirst supply code before ⟨line,r⟩ ∧ k < Machine.groupSize ∧ k < pressure supply code line ∧
      (ofCode supply code).map.get? r = some (groupRegister 'l' k) ∧
      firstFree? Machine.localRegisters (ofCode supply code).map (holders supply code before line) = some (groupRegister 'l' k) ∧
      (Respects code (ofCode supply code).map r ↔ ¬ NamedWithin code r (groupRegister 'l' k)) ∧
      ((∀ j < Machine.groupSize, NamedWithin code r (groupRegister 'l' j) → pressure supply code line ≤ j) →
        Respects code (ofCode supply code).map r) := by
  have distinct : Machine.localRegisters.Nodup := by decide +kernel
  obtain ⟨x,is⟩ := Option.isSome_iff_exists.1 assigned
  obtain ⟨before,line,first,free⟩ := firstFit_chooses code supply distinct r x is
  obtain ⟨front,back,parts,held⟩ := length_le_of_firstFree? distinct free
  obtain ⟨inside,rfl⟩ := localRegisters_split parts
  have below := held.trans_lt first.card_holders_lt
  have unnamed (spared : ¬ NamedWithin code r (groupRegister 'l' front.length)) : Respects code (ofCode supply code).map r := by
    intro x is'
    cases is.symm.trans is'
    exact spared
  refine ⟨before,line,front.length,first,inside,below,is,free,⟨fun respects => respects _ is,unnamed⟩,?_⟩
  intro beyond
  exact unnamed fun named => Nat.not_le_of_lt below (beyond _ inside named)

/-- A local register that is written while a virtual one is held. -/
def heldAcross (k : Nat) : Procedure where
  className := "Test"
  methodName := "heldAcross"
  body := [.move (.named "x") (.named "%i0"),.move (.register (groupRegister 'l' k)) (.constant 7),.move (.named "%i1") (.named "x")]

theorem ofCode_respects_iff_heldAcross : ∃ f, (select .sparc {} (heldAcross 7) false).outcome = .ok f ∧
    (ofCode f.supply f.code).map.contains ⟨"x"⟩ = true ∧ NamedWithin f.code ⟨"x"⟩ (groupRegister 'l' 7) ∧
      Respects f.code (ofCode f.supply f.code).map ⟨"x"⟩ := by
  obtain ⟨f,accepted,assigned,named,last,few⟩ : ∃ f, (select .sparc {} (heldAcross 7) false).outcome = .ok f ∧
      (ofCode f.supply f.code).map.contains ⟨"x"⟩ = true ∧
      (∃ i, f.code[2]? = some i ∧ groupRegister 'l' 7 ∈ i.registers ∧ Holds f.code ⟨"x"⟩ 2) ∧
      (∀ k < Machine.groupSize, ∀ i ∈ f.code, groupRegister 'l' k ∈ i.registers → k = 7) ∧ f.supply.children.length < 7 :=
    ⟨_,rfl,by decide +kernel,⟨_,rfl,by decide +kernel⟩,by decide +kernel,by decide +kernel⟩
  obtain ⟨before,line,-,-,-,-,-,-,-,respects⟩ := ofCode_respects_iff f.supply f.code ⟨"x"⟩ assigned
  refine ⟨f,accepted,assigned,⟨2,named⟩,respects ?_⟩
  rintro j inside ⟨_,i,here,member,_⟩
  have seventh := last j inside i (List.mem_of_getElem? here) member
  have most : pressure f.supply f.code line ≤ f.supply.children.length := (Finset.card_filter_le _ _).trans (List.toFinset_card_le _)
  omega

/-- The first local register is written while it is assigned to another one. -/
theorem not_respects_heldAcross : ∃ f, (select .sparc {} (heldAcross 0) false).outcome = .ok f ∧
    ∃ r ∈ f.supply.children, ¬ Respects f.code (ofCode f.supply f.code).map r := by
  refine ⟨_,rfl,⟨"x"⟩,by decide +kernel,fun respects => ?_⟩
  refine respects (groupRegister 'l' 0) (by decide +kernel) ⟨2,_,rfl,?_,?_⟩
  · decide +kernel
  · decide +kernel

end Allocation

end SparcBackend
