import SparcBackend.Proofs.Allocation.FirstFit
import SparcBackend.Proofs.Peephole.Definedness
import SparcBackend.Proofs.Phases

/-!
Who owns the registers of a method. The registers it was given come first, then those that
its body names, then those that selection mints, each once; and no phase behind selection
brings in a register of anybody else.
-/
namespace SparcBackend
open Machine (Action isPhysical)

namespace RegisterSupply
variable {supply mid left : RegisterSupply} {r : Register} {rs more : List Register}

/-! ### Adopting -/

/-- What is adopted are the registers that were not owned, each where it occurs first. -/
theorem adoptAll_children (supply : RegisterSupply) (rs : List Register) :
    (supply.adoptAll rs).children = supply.children ++ (rs.filter fun r => !supply.owns r).eraseDups := by
  induction rs generalizing supply with
  | nil => simp [adoptAll]
  | cons r rest ih =>
    have step : supply.adoptAll (r :: rest) = (supply.adopt r).adoptAll rest := rfl
    rw [step,ih]
    by_cases owned : supply.owns r = true
    · simp [adopt,owned]
    · have grown : (supply.adopt r).children = supply.children ++ [r] := by simp [adopt,owned]
      have others : (rest.filter fun x => !(supply.adopt r).owns x) = (rest.filter fun x => !supply.owns x).filter fun x => !x == r := by
        rw [List.filter_filter]
        refine List.filter_congr fun x _ => ?_
        by_cases same : x = r <;> simp [owns,grown,same]
      rw [grown,others,List.filter_cons_of_pos (by simp [owned]),List.eraseDups_cons,List.append_assoc]
      rfl

theorem nodup_adopt (distinct : supply.children.Nodup) (r : Register) : (supply.adopt r).children.Nodup := by
  unfold adopt
  split
  · exact distinct
  · rename_i unowned
    have new : r ∉ supply.children := fun member => unowned (owns_iff.2 member)
    simpa [List.nodup_append] using ⟨distinct,fun x member same => new (same ▸ member)⟩

theorem nodup_adoptAll (distinct : supply.children.Nodup) (rs : List Register) : (supply.adoptAll rs).children.Nodup := by
  induction rs generalizing supply with
  | nil => exact distinct
  | cons r rest ih => exact ih (nodup_adopt distinct r)

/-! ### Minting -/

/-- From one supply to another, registers have been minted one after the other. -/
inductive Mints : RegisterSupply → List Register → RegisterSupply → Prop where
  | nil {supply : RegisterSupply} : Mints supply [] supply
  | cons {supply left : RegisterSupply} {rs : List Register} : Mints supply.create.2 rs left → Mints supply (supply.create.1 :: rs) left

theorem Mints.append (first : Mints supply rs mid) (second : Mints mid more left) : Mints supply (rs ++ more) left := by
  induction first with
  | nil => exact second
  | cons _ ih => exact .cons (ih second)

theorem Mints.single (supply : RegisterSupply) : Mints supply [supply.create.1] supply.create.2 := .cons .nil

theorem Mints.children (mints : Mints supply rs left) : left.children = supply.children ++ rs := by
  induction mints with
  | nil => simp
  | cons _ ih => rw [ih,create_children,List.append_assoc,List.singleton_append]

theorem Mints.nodup (mints : Mints supply rs left) (distinct : supply.children.Nodup) : left.children.Nodup := by
  induction mints with
  | nil => exact distinct
  | @cons supply _ _ _ ih =>
    refine ih ?_
    rw [create_children]
    simpa [List.nodup_append] using ⟨distinct,fun x member same => supply.create_not_mem (same ▸ member)⟩

theorem Mints.le (mints : Mints supply rs left) : supply ≤ left := by
  intro r member
  rw [mints.children]
  exact List.mem_append_left _ member

end RegisterSupply

namespace Selection
open RegisterSupply (Mints)
variable {base supply mid left : RegisterSupply} {code more : List Instruction}

/-- The registers that lines put values into, in the order of the lines. -/
def written (code : List Instruction) : List Register := code.filterMap fun i => i.action?.bind Action.destination?

theorem written_append : written (code ++ more) = written code ++ written more := List.filterMap_append

theorem written_single {i : Instruction} {a : Action} (means : i.action? = some a) : written [i] = a.destination?.toList := by
  cases puts : a.destination? <;> simp [written,means,puts]

/-- The registers written that nobody knew before. -/
def introduced (base : RegisterSupply) (code : List Instruction) : List Register :=
  (written code).filter fun r => !(base.owns r || isPhysical r)

theorem introduced_append : introduced base (code ++ more) = introduced base code ++ introduced base more := by
  rw [introduced,written_append,List.filter_append]
  rfl

theorem introduced_known {i : Instruction} {a : Action} (means : i.action? = some a)
    (known : ∀ d, a.destination? = some d → base.Knows d) : introduced base [i] = [] := by
  rw [introduced,written_single means,List.filter_eq_nil_iff]
  intro d member
  rw [Option.mem_toList] at member
  rcases known d member with owned | physical
  · simp [RegisterSupply.owns_iff.2 owned]
  · simp [physical]

theorem introduced_fresh {i : Instruction} {a : Action} (le : base ≤ supply) (means : i.action? = some a)
    (puts : a.destination? = some supply.create.1) : introduced base [i] = [supply.create.1] := by
  have unowned : base.owns supply.create.1 = false := by
    rw [← Bool.not_eq_true,RegisterSupply.owns_iff]
    exact fun member => supply.create_not_mem (le _ member)
  simp [introduced,written_single means,puts,unowned,supply.isPhysical_create]

/-- Every covering mints the registers that its lines introduce, in the order of the lines. -/
theorem isCompositional_mints (base : RegisterSupply) : IsCompositional base.Knows (fun _ => True) fun supply _ code left =>
    base ≤ supply → Mints supply (introduced base code) left where
  nil _ := .nil
  append one two le := by
    have first := one le
    rw [introduced_append]
    exact first.append (two (RegisterSupply.le_trans le first.le))
  operand _ _ _ := .nil
  number {supply _ _} means _ _ le := by
    rw [introduced_fresh le means rfl]
    exact .single supply
  fresh {_ mid _ _ _} holds means le := by
    have before := holds le
    rw [introduced_append,introduced_fresh (RegisterSupply.le_trans le before.le) means rfl]
    exact before.append (.single mid)
  read means _ writes holds le := by
    have known : introduced base [_] = [] := introduced_known means fun d puts => by
      rcases writes d puts with named | physical
      · exact named
      · exact .inr physical
    rw [introduced_append,known,List.append_nil]
    exact holds le
  drop holds := holds
  transfer {_ i _} means _ writes _ _ := by
    have jump : introduced base [i] = [] := introduced_known means (by simp [writes])
    have filler : introduced base [Machine.nop] = [] := introduced_known Instruction.action?_nop (by simp [Action.destination?])
    rw [← List.singleton_append,introduced_append,jump,filler]
    exact .nil

end Selection

namespace Peephole

/-- However often the code is swept, its lines stay proper. -/
theorem proper_afterSweeps {supply : RegisterSupply} {code : List Instruction} (proper : ∀ i ∈ code, i.IsProper supply) (n : Nat) :
    ∀ i ∈ afterSweeps .sparc supply code n, i.IsProper supply := by
  have step := preserved_of_rewrites (G := fun _ => True) (P := fun code => ∀ i ∈ code, i.IsProper supply)
    fun (s : Site) loss (rewrites : s.Rewrites supply loss) _ proper => rewrites.proper proper
  exact (afterSweeps_induction (P := fun code => Meaningful code ∧ ∀ i ∈ code, i.IsProper supply)
    (fun s made => step s made trivial) ⟨fun i member => (proper i member).means,proper⟩ n).2

end Peephole

open Selection Peephole Pipeline

/-- Who owns the registers of a fragment. -/
structure Ownership (supply : RegisterSupply) (body : List Statement) (f : CodeFragment) : Prop where
  /-- What was given comes first, then what the body names, in tree order, then what was minted. -/
  children : ∃ minted, RegisterSupply.Mints (supply.adoptAll (virtualRegisters body)) minted f.supply ∧
    f.supply.children = supply.children ++ ((virtualRegisters body).filter fun r => !supply.owns r).eraseDups ++ minted ∧
    minted = introduced (supply.adoptAll (virtualRegisters body)) f.code
  /-- Nothing is owned twice, if nothing was given twice. -/
  distinct : supply.children.Nodup → f.supply.children.Nodup
  /-- All other registers are the machine's, however often the code is swept. -/
  known : ∀ n, ∀ i ∈ afterSweeps .sparc f.supply f.code n, ∀ r ∈ i.registers, r ∈ f.supply.children ∨ isPhysical r = true
  /-- What is made of the fragment is a number of sweeps, and changes no owner. -/
  stays : ∀ config, (finished config f).supply = f.supply ∧ ∃ n, (finished config f).code = afterSweeps .sparc f.supply f.code n
  /-- Machine registers are assigned to registers that are owned. -/
  assigned : ∀ config, ∃ m, (finished config f).registers = some m ∧ ∀ r, m.contains r = true → r ∈ f.supply.children ∧
    ((∀ given ∈ supply.children, isPhysical given = false) → isPhysical r = false)

/-- Selection gives every register an owner, and nothing behind it takes one away or adds
    one. A machine register is owned only if it was given, and only then one is assigned to it. -/
theorem select_owned {supply : RegisterSupply} {p : Procedure} {frames : Bool} {f : CodeFragment}
    (accepted : (select .sparc supply p frames).outcome = .ok f) : Ownership supply p.body f := by
  obtain ⟨virtual,proper⟩ := select_proper accepted
  have mints := (isCompositional_mints _).select accepted (knows_named supply p.body) (fun _ _ => trivial) (RegisterSupply.le_refl _)
  refine ⟨⟨_,mints,?_,rfl⟩,fun distinct => mints.nodup (RegisterSupply.nodup_adoptAll distinct _),?_,?_,?_⟩
  · rw [mints.children,RegisterSupply.adoptAll_children]
  · intro n i member
    exact (proper_afterSweeps proper n i member).known
  · intro config
    refine ⟨optimizeOne_supply config f,?_⟩
    show ∃ n, (optimizeOne config f).value.code = _
    rw [optimizeOne_code]
    split
    · exact exists_afterSweeps .sparc f.supply f.code
    · exact ⟨0,rfl⟩
  · intro config
    refine ⟨_,rfl,fun r assigned => ?_⟩
    rw [optimizeOne_fresh,optimizeOne_supply] at assigned
    obtain ⟨x,is⟩ := Option.isSome_iff_exists.1 assigned
    obtain ⟨-,owned⟩ := (Allocation.ofCode_sound f.supply (optimizeOne config f).value.code).assigned r x is
    exact ⟨owned,fun given => (virtual r owned).elim (given r) id⟩

theorem select_owned_successor : ∃ f, (select .sparc { children := [⟨"t0000"⟩] } successor true).outcome = .ok f ∧
    f.supply.children = [⟨"t0000"⟩,⟨"x"⟩,⟨"t0001"⟩,⟨"t0002"⟩,⟨"t0003"⟩] ∧
    Ownership { children := [⟨"t0000"⟩] } successor.body f := by
  obtain ⟨f,accepted⟩ : ∃ f, (select .sparc { children := [⟨"t0000"⟩] } successor true).outcome = .ok f := ⟨_,rfl⟩
  refine ⟨f,accepted,?_,select_owned accepted⟩
  cases accepted
  decide +kernel

end SparcBackend
