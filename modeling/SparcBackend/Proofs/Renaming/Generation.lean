import Mathlib.Algebra.Group.End
import Mathlib.Data.Fintype.Sum
import SparcBackend.Proofs.Ir.Freshness
import SparcBackend.Proofs.Renaming.Allocation
import SparcBackend.Proofs.Renaming.Peephole

/-!
Names of virtual registers do not matter. To give other names to the registers that a
fragment owns is to permute all registers, as far as the fragment mentions them; no rule
and no walk looks at a name otherwise than by comparing it with another one, so all that
is made of the fragment is permuted alike.
-/
namespace SparcBackend
open Machine (Target)

/-! ### Fragments under other names -/

/-- The instruction without the note for people. -/
def Instruction.withoutNote : Instruction → Instruction
  | .operation template defs uses jumps _ => .operation template defs uses jumps none
  | .move template destination source _ => .move template destination source none
  | i => i

def LifetimeTable.rename (σ : Register → Register) (table : LifetimeTable) : LifetimeTable where
  rows := table.rows.map fun row => (σ row.1,row.2)

def RegisterMap.rename (σ : Register → Register) (m : RegisterMap) : RegisterMap :=
  .ofList (m.entries.map fun entry => (σ entry.1,entry.2))

/-- The new names of the registers that are owned; all others keep theirs. -/
def RegisterSupply.naming (supply : RegisterSupply) (names : Register → Register) : Register → Register :=
  fun r => if supply.owns r then names r else r

namespace CodeFragment

def withoutNotes (f : CodeFragment) : CodeFragment := { f with code := f.code.map Instruction.withoutNote }

/-- The fragment with other names for the registers that it owns, wherever they stand. -/
def rename (f : CodeFragment) (names : Register → Register) : CodeFragment :=
  { f with
    code := f.code.map (Instruction.mapRegisters (f.supply.naming names))
    supply := f.supply.rename (f.supply.naming names)
    lifetimes := f.lifetimes.rename (f.supply.naming names)
    registers := f.registers.map (RegisterMap.rename (f.supply.naming names)) }

/-- New names for what a fragment owns: all different, and none that of the result of a call or of
    another register in the code. -/
structure IsRenaming (f : CodeFragment) (names : Register → Register) : Prop where
  result : Machine.callResultRegister ∉ f.supply.children
  injective : ∀ r ∈ f.supply.children, ∀ s ∈ f.supply.children, names r = names s → r = s
  notResult : ∀ r ∈ f.supply.children, names r ≠ Machine.callResultRegister
  apart : ∀ r ∈ f.supply.children, ∀ i ∈ f.code, ∀ s ∈ i.registers, s ∉ f.supply.children → names r ≠ s

end CodeFragment

/-! ### Permutations of all registers -/

instance : Infinite Register :=
  Infinite.of_injective (fun n => (⟨Name.numbered "t" n⟩ : Register)) fun _ _ same =>
    Name.numbered_injective "t" (Register.mk.inj same)

/-- What keeps finitely many registers apart is part of a permutation. -/
theorem exists_perm {σ : Register → Register} {mentioned : Finset Register} (injective : Set.InjOn σ mentioned) :
    ∃ π : Equiv.Perm Register, ∀ r ∈ mentioned, π r = σ r := by
  let all := mentioned ∪ mentioned.image σ
  let among : Finset all := Finset.univ.filter fun r => r.1 ∈ mentioned
  have into : among.image (fun r => σ r.1) ⊆ all := by
    intro s member
    obtain ⟨r,inside,rfl⟩ := Finset.mem_image.1 member
    exact Finset.mem_union_right _ (Finset.mem_image_of_mem σ (Finset.mem_filter.1 inside).2)
  have apart : Set.InjOn (fun r : all => σ r.1) among := by
    intro r inside s inside' same
    exact Subtype.ext (injective (Finset.mem_filter.1 inside).2 (Finset.mem_filter.1 inside').2 same)
  obtain ⟨within,extends_⟩ := Finset.exists_equiv_extend_of_card_eq (Fintype.card_coe all) into apart
  refine ⟨Equiv.Perm.ofSubtype within,fun r member => ?_⟩
  have inside : r ∈ all := Finset.mem_union_left _ member
  rw [Equiv.Perm.ofSubtype_apply_of_mem within inside]
  exact extends_ ⟨r,inside⟩ (Finset.mem_filter.2 ⟨Finset.mem_univ _,member⟩)

/-! ### What is mentioned -/

/-- The registers in the code, those that are owned and that of the result of a call. -/
def mentioned (supply : RegisterSupply) (code : List Instruction) : List Register :=
  Machine.callResultRegister :: supply.children ++ code.flatMap Instruction.registers

section
variable {supply : RegisterSupply} {code : List Instruction} {σ ρ : Register → Register} {i j : Instruction}

theorem Renames.withoutNote_eq (renames : Renames σ i j) : j.withoutNote = (i.mapRegisters σ).withoutNote := by
  cases renames <;> rfl

theorem map_withoutNote {code' : List Instruction} (lines : List.Forall₂ (Renames σ) code code') :
    code'.map Instruction.withoutNote = (code.map (Instruction.mapRegisters σ)).map Instruction.withoutNote := by
  induction lines with
  | nil => rfl
  | cons renames _ ih => rw [List.map_cons,List.map_cons,List.map_cons,renames.withoutNote_eq,ih]

theorem Instruction.mapRegisters_congr (same : ∀ r ∈ i.registers, σ r = ρ r) : i.mapRegisters σ = i.mapRegisters ρ := by
  have operands : ∀ {all : List Operand}, (∀ r ∈ all.filterMap Operand.asRegister?, σ r = ρ r) →
      all.map (Operand.mapRegister σ) = all.map (Operand.mapRegister ρ) := by
    intro all same
    apply List.map_congr_left
    intro operand member
    cases operand with
    | register r => exact congrArg _ (same r (List.mem_filterMap.2 ⟨_,member,rfl⟩))
    | immediate | address => rfl
  have written := operands fun r member => same r (List.mem_append_left _ member)
  have read := operands fun r member => same r (List.mem_append_right _ member)
  cases i with
  | operation template defs uses jumps note => exact congrArg₂ (operation template · · jumps note) written read
  | move template destination source note =>
    exact congrArg₂ (move template · · note) (List.singleton_inj.1 written) (List.singleton_inj.1 read)
  | label | comment => rfl

theorem Instruction.mapRegisters_id (i : Instruction) : i.mapRegisters id = i := by
  cases i <;> simp [mapRegisters]

theorem mem_mentioned_of_owned {r : Register} (owned : r ∈ supply.children) : r ∈ mentioned supply code :=
  List.mem_append_left _ (List.mem_cons_of_mem _ owned)

theorem mem_mentioned_of_mem {r : Register} (member : i ∈ code) (here : r ∈ i.registers) : r ∈ mentioned supply code :=
  List.mem_append_right _ (List.mem_flatMap.2 ⟨i,member,here⟩)

/-- What leaves every register alone that is mentioned leaves the code as it is. -/
theorem renames_of_fixed (fixed : ∀ r ∈ mentioned supply code, σ r = r) :
    List.Forall₂ (Renames σ) code code ∧ supply.rename σ = supply := by
  constructor
  · rw [List.forall₂_same]
    intro i member
    have same := Instruction.mapRegisters_congr (ρ := id) fun r here => fixed r (mem_mentioned_of_mem member here)
    have renames := Renames.mapRegisters (σ := σ) i
    rwa [same,Instruction.mapRegisters_id] at renames
  · have same : supply.children.map σ = supply.children.map id := by
      apply List.map_congr_left
      intro r owned
      exact fixed r (mem_mentioned_of_owned owned)
    rw [RegisterSupply.rename,same,List.map_id]

/-- The optimizer brings no register into the code. A permutation that exchanges one that is not
    mentioned with another such one changes nothing in the code, so nothing in what becomes of it. -/
theorem mentioned_of_optimize (member : i ∈ (Peephole.optimize .sparc supply code).code) {r : Register} (here : r ∈ i.registers) :
    r ∈ mentioned supply code := by
  by_contra absent
  obtain ⟨s,other⟩ := Infinite.exists_notMem_finset (r :: mentioned supply code).toFinset
  rw [List.mem_toFinset,List.mem_cons,not_or] at other
  have fixed : ∀ x ∈ mentioned supply code, Equiv.swap r s x = x := by
    intro x inside
    apply Equiv.swap_apply_of_ne_of_ne
    · rintro rfl
      exact absent inside
    · rintro rfl
      exact other.2 inside
  have result : ∀ x ∈ Target.sparc.callResult.asRegister?, Equiv.swap r s x = x := by
    rintro x ⟨⟩
    exact fixed _ List.mem_cons_self
  obtain ⟨lines,owned⟩ := renames_of_fixed fixed
  have after := (Peephole.optimize_renames (Equiv.swap r s).injective supply result lines).1
  rw [owned,List.forall₂_same] at after
  have same := (after i member).registers_eq
  conv_lhs at same => rw [← List.map_id i.registers]
  have kept := List.map_inj_left.1 same r here
  rw [Equiv.swap_apply_left] at kept
  exact other.1 kept.symm

end

/-! ### What is generated -/

/-- What comes of handing out machine registers in a fragment, by the lifetimes that it carries. -/
def CodeFragment.allocation (f : CodeFragment) (registers : List Register) : Allocation :=
  (Allocation.firstFit f.code f.supply f.lifetimes registers).value

/-- The same machine registers under the new names, and as far. -/
structure Allocation.IsRenamed (supply : RegisterSupply) (names : Register → Register) (a b : Allocation) : Prop where
  map : ∀ r x, b.map.get? r = some x ↔ ∃ s ∈ supply.children, r = names s ∧ a.map.get? s = some x
  exhausted : b.exhausted = a.exhausted.map fun e => ⟨e.line,names e.register⟩

section
variable {f : CodeFragment} {names : Register → Register} {π : Equiv.Perm Register}

theorem naming_of_mem {r : Register} (owned : r ∈ f.supply.children) : f.supply.naming names r = names r :=
  if_pos (List.contains_iff_mem.2 owned)

theorem naming_of_not_mem {r : Register} (foreign : r ∉ f.supply.children) : f.supply.naming names r = r :=
  if_neg (mt List.contains_iff_mem.1 foreign)

/-- A new name is the name of nothing else that is mentioned. -/
theorem CodeFragment.IsRenaming.ne_of_foreign (valid : f.IsRenaming names) {r s : Register} (owned : r ∈ f.supply.children)
    (member : s ∈ mentioned f.supply f.code) (foreign : s ∉ f.supply.children) : names r ≠ s := by
  rcases List.mem_append.1 member with front | inside
  · rcases List.mem_cons.1 front with rfl | absurdity
    · exact valid.notResult r owned
    · exact absurd absurdity foreign
  · obtain ⟨i,line,here⟩ := List.mem_flatMap.1 inside
    exact valid.apart r owned i line s here foreign

theorem CodeFragment.IsRenaming.injOn (valid : f.IsRenaming names) :
    Set.InjOn (f.supply.naming names) (mentioned f.supply f.code).toFinset := by
  intro r inside s inside' same
  rw [Finset.mem_coe,List.mem_toFinset] at inside inside'
  by_cases owned : r ∈ f.supply.children <;> by_cases owned' : s ∈ f.supply.children
  · rw [naming_of_mem owned,naming_of_mem owned'] at same
    exact valid.injective r owned s owned' same
  · rw [naming_of_mem owned,naming_of_not_mem owned'] at same
    exact absurd same (valid.ne_of_foreign owned inside' owned')
  · rw [naming_of_not_mem owned,naming_of_mem owned'] at same
    exact absurd same.symm (valid.ne_of_foreign owned' inside owned)
  · rwa [naming_of_not_mem owned,naming_of_not_mem owned'] at same

theorem rename_supply (agrees : ∀ r ∈ mentioned f.supply f.code, π r = f.supply.naming names r) :
    (f.rename names).supply = f.supply.rename π := by
  have same : f.supply.children.map (f.supply.naming names) = f.supply.children.map π := by
    apply List.map_congr_left
    intro r owned
    exact (agrees r (mem_mentioned_of_owned owned)).symm
  rw [CodeFragment.rename,RegisterSupply.rename,RegisterSupply.rename,same]

theorem rename_lines (agrees : ∀ r ∈ mentioned f.supply f.code, π r = f.supply.naming names r) :
    List.Forall₂ (Renames π) f.code (f.rename names).code := by
  rw [CodeFragment.rename,List.forall₂_map_right_iff,List.forall₂_same]
  intro i member
  rw [← Instruction.mapRegisters_congr fun r here => agrees r (mem_mentioned_of_mem member here)]
  exact Renames.mapRegisters i

theorem lives_renames {code code' : List Instruction} (lines : List.Forall₂ (Renames π) code code') (supply : RegisterSupply)
    (r : Register) : (LifetimeTable.ofCode code' (supply.rename π)).get? (π r) = (LifetimeTable.ofCode code supply).get? r := by
  rw [LifetimeTable.get?_ofCode,LifetimeTable.get?_ofCode,Lifetime.ofCode_renames π.injective lines,RegisterSupply.rename]
  simp only [List.mem_map_of_injective π.injective]

theorem firstFit_owned (code : List Instruction) (supply : RegisterSupply) (lifetimes : LifetimeTable) (registers : List Register) :
    (∀ r x, (Allocation.firstFit code supply lifetimes registers).value.map.get? r = some x → r ∈ supply.children) ∧
      ∀ e, (Allocation.firstFit code supply lifetimes registers).value.exhausted = some e → e.register ∈ supply.children := by
  obtain ⟨complete,stops⟩ := Allocation.firstFit_keys code supply lifetimes registers
  constructor
  · intro r x is
    have known : (Allocation.firstFit code supply lifetimes registers).value.map.contains r = true := by
      rw [RegisterMap.contains,is]
      rfl
    cases stopped : (Allocation.firstFit code supply lifetimes registers).value.exhausted with
    | none => exact ((complete stopped r).1 known).1
    | some e =>
      obtain ⟨met,stops⟩ := stops e stopped
      exact ((stops.keys r).1 known).1
  · intro e stopped
    obtain ⟨met,stops⟩ := stops e stopped
    exact stops.owned

theorem firstFit_isRenamed {supply : RegisterSupply} {code code' : List Instruction} {lifetimes lifetimes' : LifetimeTable}
    (lines : List.Forall₂ (Renames π) code code') (lives : ∀ r ∈ supply.children, lifetimes'.get? (π r) = lifetimes.get? r)
    (named : ∀ r ∈ supply.children, π r = names r) (registers : List Register) :
    (Allocation.firstFit code supply lifetimes registers).value.IsRenamed supply names
      (Allocation.firstFit code' (supply.rename π) lifetimes' registers).value := by
  have renames := Allocation.firstFit_renames π.injective lines lives registers
  obtain ⟨keys,stopped⟩ := firstFit_owned code supply lifetimes registers
  constructor
  · intro r x
    constructor
    · intro is
      obtain ⟨s,rfl⟩ := π.surjective r
      rw [renames.map] at is
      have owned := keys s x is
      exact ⟨s,owned,named s owned,is⟩
    · rintro ⟨s,owned,rfl,is⟩
      rwa [← named s owned,renames.map]
  · rw [renames.exhausted]
    apply Option.map_congr
    intro e is
    rw [named _ (stopped e is)]

end

namespace Peephole.InPlace
variable {f : CodeFragment} {names : Register → Register} {π : Equiv.Perm Register}

/-- Optimized under other names, a fragment is what it is optimized under its own, notes aside. -/
theorem optimized_rename (agrees : ∀ r ∈ mentioned f.supply f.code, π r = f.supply.naming names r)
    (lines : List.Forall₂ (Renames π) (optimized .sparc f).fragment.code (optimized .sparc (f.rename names)).fragment.code) :
    (optimized .sparc (f.rename names)).fragment.withoutNotes = ((optimized .sparc f).fragment.rename names).withoutNotes := by
  have supply := rename_supply agrees
  have code := map_withoutNote lines
  have same : (optimized .sparc f).fragment.code.map (Instruction.mapRegisters π) =
      (optimized .sparc f).fragment.code.map (Instruction.mapRegisters (f.supply.naming names)) := by
    apply List.map_congr_left
    intro i member
    exact Instruction.mapRegisters_congr fun r here => agrees r (mentioned_of_optimize member here)
  rw [same] at code
  have lifetimes : (optimized .sparc (f.rename names)).fragment.lifetimes =
      ((optimized .sparc f).fragment.rename names).lifetimes := by
    show LifetimeTable.ofCode (optimized .sparc (f.rename names)).fragment.code (f.rename names).supply =
      (LifetimeTable.ofCode (optimized .sparc f).fragment.code f.supply).rename (f.supply.naming names)
    rw [LifetimeTable.ofCode,LifetimeTable.ofCode,LifetimeTable.rename,CodeFragment.rename,RegisterSupply.rename,List.map_map,
      List.map_map]
    congr 1
    apply List.map_congr_left
    intro r owned
    have named := agrees r (mem_mentioned_of_owned owned)
    rw [Function.comp_apply,Function.comp_apply,← named]
    exact congrArg _ (Lifetime.ofCode_renames π.injective lines)
  rw [CodeFragment.withoutNotes,CodeFragment.withoutNotes,code,lifetimes]
  rfl

end Peephole.InPlace

open Peephole

/-- What is generated does not depend on the names of virtual registers. -/
theorem generation_ignores_names (f : CodeFragment) (names : Register → Register) (valid : f.IsRenaming names) :
    (∃ o o', InPlace.Optimizes f o ∧ InPlace.Optimizes (f.rename names) o' ∧
      o'.fragment.withoutNotes = (o.fragment.rename names).withoutNotes ∧ o'.passes = o.passes ∧
      ∀ registers, (o.fragment.allocation registers).IsRenamed f.supply names (o'.fragment.allocation registers)) ∧
    (∀ registers, (f.withLifetimes.allocation registers).IsRenamed f.supply names
      ((f.rename names).withLifetimes.allocation registers)) ∧
    ∀ lifetimes lifetimes' registers, (∀ r ∈ f.supply.children, lifetimes'.get? (names r) = lifetimes.get? r) →
      ({ f with lifetimes }.allocation registers).IsRenamed f.supply names
        ({ f.rename names with lifetimes := lifetimes' }.allocation registers) := by
  obtain ⟨π,extends_⟩ := exists_perm valid.injOn
  have agrees : ∀ r ∈ mentioned f.supply f.code, π r = f.supply.naming names r :=
    fun r member => extends_ r (List.mem_toFinset.2 member)
  have named : ∀ r ∈ f.supply.children, π r = names r := by
    intro r owned
    rw [agrees r (mem_mentioned_of_owned owned),naming_of_mem owned]
  have result : ∀ r ∈ Target.sparc.callResult.asRegister?, π r = r := by
    rintro r ⟨⟩
    rw [agrees _ List.mem_cons_self,naming_of_not_mem valid.result]
  have lines := rename_lines agrees
  obtain ⟨after,passes⟩ := optimize_renames π.injective f.supply result lines
  rw [← rename_supply agrees] at after passes
  have allocated : ∀ {code code' : List Instruction} {lifetimes lifetimes' : LifetimeTable} (registers : List Register),
      List.Forall₂ (Renames π) code code' → (∀ r ∈ f.supply.children, lifetimes'.get? (π r) = lifetimes.get? r) →
      (Allocation.firstFit code f.supply lifetimes registers).value.IsRenamed f.supply names
        (Allocation.firstFit code' (f.rename names).supply lifetimes' registers).value := by
    intro code code' lifetimes lifetimes' registers lines lives
    rw [rename_supply agrees]
    exact firstFit_isRenamed lines lives named registers
  have fresh : ∀ {code code' : List Instruction}, List.Forall₂ (Renames π) code code' → ∀ r ∈ f.supply.children,
      (LifetimeTable.ofCode code' (f.rename names).supply).get? (π r) = (LifetimeTable.ofCode code f.supply).get? r := by
    intro code code' lines r _
    rw [rename_supply agrees]
    exact lives_renames lines f.supply r
  refine ⟨⟨InPlace.optimized .sparc f,InPlace.optimized .sparc (f.rename names),InPlace.optimizes f,
    InPlace.optimizes (f.rename names),InPlace.optimized_rename agrees after,passes.symm,?_⟩,?_,?_⟩
  · exact fun registers => allocated registers after (fresh after)
  · exact fun registers => allocated registers lines (fresh lines)
  · intro lifetimes lifetimes' registers lives
    apply allocated registers lines
    intro r owned
    rw [named r owned]
    exact lives r owned

/-- A number that is loaded, doubled and returned. -/
def doubling : CodeFragment where
  className := "Main"
  methodName := "run"
  code := [Machine.loadImmediate 21 ⟨"a"⟩,.plain "add `s0, `s1, `d0" [.register ⟨"b"⟩] [.register ⟨"a"⟩,.register ⟨"a"⟩],
    Machine.move (.register ⟨"b"⟩) (.register ⟨"%i0"⟩)]
  supply := { children := [⟨"a"⟩,⟨"b"⟩] }

/-- Each of two names for the other one. -/
def otherName (r : Register) : Register := if r = ⟨"a"⟩ then ⟨"b"⟩ else ⟨"a"⟩

theorem generation_ignores_names_doubling : doubling.IsRenaming otherName ∧ ∃ o o',
    InPlace.optimize .sparc 5 doubling = .done o ∧ InPlace.optimize .sparc 5 (doubling.rename otherName) = .done o' ∧
    o'.fragment.withoutNotes = (o.fragment.rename otherName).withoutNotes := by
  have valid : doubling.IsRenaming otherName := ⟨by decide +kernel,by decide +kernel,by decide +kernel,by decide +kernel⟩
  obtain ⟨⟨o,o',optimizes,optimizes',same,-⟩,-⟩ := generation_ignores_names doubling otherName valid
  exact ⟨valid,o,o',optimizes.ends 0,optimizes'.ends 0,same⟩

end SparcBackend
