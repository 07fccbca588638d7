import Mathlib.Tactic.Common
import SparcBackend.Ir.Supply
import SparcBackend.Machine.Access

/-!
Minted registers are new. Different numbers have different names, so the search for a
free number ends at a name that nobody has, and the letter a temporary begins with
keeps it apart from the registers of the machine.
-/
namespace SparcBackend

namespace Name

/-- Four digits or more, read back. -/
theorem ofDigitChars_fourDigits (n : Nat) : Nat.ofDigitChars 10 (fourDigits n).toList 0 = n := by
  simp only [fourDigits,String.toList_ofList,List.leftpad,Nat.ofDigitChars_append,
    Nat.ofDigitChars_replicate_zero,Nat.mul_zero,Nat.ofDigitChars_ten_toDigits]

theorem numbered_injective (stem : String) : Function.Injective (numbered stem) := by
  intro m n same
  have digits : (fourDigits m).toList = (fourDigits n).toList := by
    have lists := congrArg String.toList same
    simp only [numbered,String.toList_append] at lists
    exact List.append_cancel_left lists
  rw [← ofDigitChars_fourDigits m,digits,ofDigitChars_fourDigits]

end Name

namespace RegisterSupply

theorem le_freeNumber (stem : String) (taken : List Register) (n : Nat) : n ≤ freeNumber stem taken n := by
  induction taken, n using freeNumber.induct stem with
  | case1 taken n found ih =>
    rw [freeNumber,dif_pos found]
    omega
  | case2 taken n free =>
    have stays : freeNumber stem taken n = n := by rw [freeNumber,dif_neg free]
    exact Nat.le_of_eq stays.symm

/-- The search ends at a name that is free. A name struck off the list on the way belongs
    to a smaller number. -/
theorem numbered_freeNumber_not_mem (stem : String) (taken : List Register) (n : Nat) :
    (⟨Name.numbered stem (freeNumber stem taken n)⟩ : Register) ∉ taken := by
  induction taken, n using freeNumber.induct stem with
  | case1 taken n found ih =>
    rw [freeNumber,dif_pos found]
    have beyond := le_freeNumber stem (taken.erase ⟨Name.numbered stem n⟩) (n+1)
    intro member
    refine ih ((List.mem_erase_of_ne ?_).2 member)
    intro same
    have numbers := Name.numbered_injective stem (Register.mk.inj same)
    omega
  | case2 taken n free =>
    rw [freeNumber,dif_neg free]
    exact free

/-- A minted temporary was nobody's before. -/
theorem create_not_mem (supply : RegisterSupply) : supply.create.1 ∉ supply.children :=
  numbered_freeNumber_not_mem "t" supply.children supply.next

theorem create_children (supply : RegisterSupply) :
    supply.create.2.children = supply.children ++ [supply.create.1] := rfl

/-- A temporary is no register of the machine. -/
theorem isPhysical_create (supply : RegisterSupply) : Machine.isPhysical supply.create.1 = false := by
  obtain ⟨n,named⟩ : ∃ n, supply.create.1 = ⟨Name.numbered "t" n⟩ := ⟨_,rfl⟩
  have first : (Name.numbered "t" n).toList = 't' :: (Name.fourDigits n).toList := by
    simp [Name.numbered]
  have sp : Name.numbered "t" n ≠ "%sp" := by
    intro same
    simp [same] at first
  have fp : Name.numbered "t" n ≠ "%fp" := by
    intro same
    simp [same] at first
  rw [named]
  simp only [Machine.isPhysical,sp,fp,decide_false,Bool.false_or,first]
  rfl

theorem owns_iff {supply : RegisterSupply} {r : Register} : supply.owns r = true ↔ r ∈ supply.children :=
  List.contains_iff_mem

theorem mem_adopt {supply : RegisterSupply} {r x : Register} :
    x ∈ (supply.adopt r).children ↔ x ∈ supply.children ∨ x = r := by
  unfold adopt
  split
  · rename_i owned
    refine ⟨.inl,?_⟩
    rintro (member | rfl)
    · exact member
    · exact owns_iff.1 owned
  · simp

theorem mem_adoptAll {supply : RegisterSupply} {rs : List Register} {x : Register} :
    x ∈ (supply.adoptAll rs).children ↔ x ∈ supply.children ∨ x ∈ rs := by
  unfold adoptAll
  induction rs generalizing supply with
  | nil => simp
  | cons r rest ih => rw [List.foldl_cons,ih,mem_adopt,List.mem_cons,or_assoc]

/-! ### Registers that a method may use -/

/-- A register that is owned or belongs to the machine. -/
def Knows (supply : RegisterSupply) (r : Register) : Prop := r ∈ supply.children ∨ Machine.isPhysical r = true

instance : LE RegisterSupply where
  le supply left := ∀ r ∈ supply.children, r ∈ left.children

variable {supply mid left : RegisterSupply} {r : Register}

theorem le_refl (supply : RegisterSupply) : supply ≤ supply := fun _ member => member

theorem le_trans (first : supply ≤ mid) (second : mid ≤ left) : supply ≤ left :=
  fun r member => second r (first r member)

theorem le_create (supply : RegisterSupply) : supply ≤ supply.create.2 := by
  intro r member
  rw [create_children]
  exact List.mem_append_left _ member

theorem Knows.mono (known : supply.Knows r) (le : supply ≤ left) : left.Knows r := known.imp_left (le r)

theorem knows_create (supply : RegisterSupply) : supply.create.2.Knows supply.create.1 := by
  left
  rw [create_children]
  exact List.mem_append_right _ (List.mem_singleton.2 rfl)

theorem not_knows_create (supply : RegisterSupply) : ¬ supply.Knows supply.create.1 := by
  rintro (member | physical)
  · exact supply.create_not_mem member
  · simp [supply.isPhysical_create] at physical

end RegisterSupply

end SparcBackend
